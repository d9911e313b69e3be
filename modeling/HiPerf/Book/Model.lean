import HiPerf.Lib.Exec
import HiPerf.Lib.Machine

/-!
The flat limit order book of `smr-collections/common/src/book.rs`: a ladder of
price levels, a pool of orders linked through slot numbers, and an id-map.
Integers wrap as in a release build; an index out of range, a missing key and
a division by zero stop the program, which keeps the state it had reached.
-/

namespace HiPerf

open Machine

/-- Why a program stopped. -/
inductive Panic where
  | indexOutOfBounds
  | divideByZero
  | divideOverflow
  | missingKey
  | message (text : String)
  deriving DecidableEq, Repr

abbrev Run (σ α : Type) := EStateM Panic σ α

/-- The fields of `SmrConfig` the collections read. -/
structure SmrConfig where
  cap : Nat
  levels : Nat
  tick : Int
  priceMin : Int
  steady : Nat
  chunk : Nat
  otrBps : Nat
  deriving DecidableEq, Repr

/-- Sentinel handle: empty head or tail, link end, no slot. -/
def NIL : Nat := 4294967295

structure Order where
  orderId : Int
  price : Int
  qty : Int
  filled : Int
  next : Nat
  prev : Nat
  side : Nat
  deriving DecidableEq, Repr

/-- What a pool slot holds before its first use. -/
def Order.zero : Order := ⟨0, 0, 0, 0, NIL, NIL, 0⟩

structure PriceLevel where
  head : Nat
  tail : Nat
  qtyTotal : Int
  count : Nat
  deriving DecidableEq, Repr

def PriceLevel.EMPTY : PriceLevel := ⟨NIL, NIL, 0, 0⟩

/-- The hash map from order ids to slots. -/
abbrev IdMap := Int → Option Nat

def IdMap.empty : IdMap := fun _ => none

def IdMap.insert (m : IdMap) (k : Int) (v : Nat) : IdMap := fun x => if x = k then some v else m x

def IdMap.remove (m : IdMap) (k : Int) : IdMap := fun x => if x = k then none else m x

structure Book where
  priceMin : Int
  tick : Int
  nLevels : Nat
  bids : Array PriceLevel
  asks : Array PriceLevel
  pool : Array Order
  hwm : Nat
  bestBid : Int
  bestAsk : Int
  idmap : IdMap
  freeHead : Nat

/-- `((price - price_min) / tick) as u32`. -/
def gridTick {σ : Type} (priceMin tick price : Int) : Run σ Nat :=
  if tick = 0 then throw .divideByZero
  else if i64 (price - priceMin) = -9223372036854775808 ∧ tick = -1 then throw .divideOverflow
  else pure (u32 ((i64 (price - priceMin)).tdiv tick))

namespace Book

def new (cfg : SmrConfig) : Book where
  priceMin := cfg.priceMin
  tick := cfg.tick
  nLevels := cfg.levels
  bids := Array.replicate cfg.levels PriceLevel.EMPTY
  asks := Array.replicate cfg.levels PriceLevel.EMPTY
  pool := Array.replicate cfg.cap Order.zero
  hwm := 0
  bestBid := -1
  bestAsk := -1
  idmap := IdMap.empty
  freeHead := NIL

def tickOf (price : Int) : Run Book Nat := do
  let b ← get
  gridTick b.priceMin b.tick price

def lane (b : Book) (side : Nat) : Array PriceLevel := if side = 0 then b.bids else b.asks

/-- `self.pool[slot]`, read. -/
def order (slot : Nat) : Run Book Order := fun b =>
  match b.pool[slot]? with
  | some o => .ok o b
  | none => .error .indexOutOfBounds b

/-- `self.pool[slot]`, written. -/
def setOrder (slot : Nat) (o : Order) : Run Book Unit := fun b =>
  if slot < b.pool.size then .ok () { b with pool := b.pool.setIfInBounds slot o }
  else .error .indexOutOfBounds b

/-- `self.pool[slot].next = next`. -/
def setNext (slot next : Nat) : Run Book Unit := do
  let o ← order slot
  setOrder slot { o with next }

/-- `self.pool[slot].prev = prev`. -/
def setPrev (slot prev : Nat) : Run Book Unit := do
  let o ← order slot
  setOrder slot { o with prev }

/-- `self.lane(side)[t]`, read. -/
def level (side t : Nat) : Run Book PriceLevel := fun b =>
  match (b.lane side)[t]? with
  | some l => .ok l b
  | none => .error .indexOutOfBounds b

/-- `self.lane(side)[t]`, written. -/
def setLevel (side t : Nat) (l : PriceLevel) : Run Book Unit := fun b =>
  if t < (b.lane side).size then
    .ok () (if side = 0 then { b with bids := b.bids.setIfInBounds t l }
      else { b with asks := b.asks.setIfInBounds t l })
  else .error .indexOutOfBounds b

/-- `self.idmap[&order_id]`. -/
def getSlot (orderId : Int) : Run Book Nat := fun b =>
  match b.idmap orderId with
  | some slot => .ok slot b
  | none => .error .missingKey b

def allocSlot : Run Book Nat := do
  let b ← get
  if b.freeHead ≠ NIL then
    let slot := b.freeHead
    let o ← order slot
    modify fun b => { b with freeHead := o.next }
    return slot
  else
    if b.hwm = b.pool.size then
      throw (.message s!"order pool exhausted: SMRC_CAP={b.pool.size} reached")
    let slot := b.hwm
    modify fun b => { b with hwm := u32 (b.hwm + 1) }
    return slot

def freeSlot (slot : Nat) : Run Book Unit := do
  let head := (← get).freeHead
  let o ← order slot
  setOrder slot { o with orderId := 0, next := head, prev := NIL }
  modify fun b => { b with freeHead := slot }

/-- The end of `insert`: the level just occupied against the cached bests. -/
def noteBest (side t : Nat) : Run Book Unit := do
  modify fun b => { b with bestBid :=
    if side = 0 ∧ (b.bestBid < 0 ∨ i32 t > b.bestBid) then i32 t else b.bestBid }
  modify fun b => { b with bestAsk :=
    if side = 1 ∧ (b.bestAsk < 0 ∨ i32 t < b.bestAsk) then i32 t else b.bestAsk }

def insert (orderId price qty : Int) (side : Nat) : Run Book Unit := do
  let t ← tickOf price
  let slot ← allocSlot
  let prevTail := (← level side t).tail
  setOrder slot
    { orderId, price, qty, filled := 0, next := NIL, prev := prevTail, side }
  let lvl ← level side t
  setLevel side t
    { head := if lvl.tail = NIL then slot else lvl.head
      tail := slot
      qtyTotal := i64 (lvl.qtyTotal + qty)
      count := u32 (lvl.count + 1) }
  if prevTail ≠ NIL then setNext prevTail slot
  modify fun b => { b with idmap := b.idmap.insert orderId slot }
  noteBest side t

def update (orderId fillQty : Int) : Run Book Unit := do
  let slot ← getSlot orderId
  let o ← order slot
  let add := min fillQty (i64 (o.qty - o.filled))
  setOrder slot { o with filled := i64 (o.filled + add) }
  let t ← tickOf o.price
  let lvl ← level o.side t
  setLevel o.side t { lvl with qtyTotal := i64 (lvl.qtyTotal - add) }

/-- Unlink `slot` from its level's queue and debit `rem` from the level's
remaining quantity. -/
def unlink (slot side t : Nat) (rem : Int) : Run Book Unit := do
  let o ← order slot
  if o.prev ≠ NIL then setNext o.prev o.next
  if o.next ≠ NIL then setPrev o.next o.prev
  let lvl ← level side t
  setLevel side t
    { head := if lvl.head = slot then o.next else lvl.head
      tail := if lvl.tail = slot then o.prev else lvl.tail
      qtyTotal := i64 (lvl.qtyTotal - rem)
      count := u32 (lvl.count - 1) }

/-- `for i in (0..=t).rev()`: the first occupied bid level, or -1. -/
def scanBids : Nat → Run Book Int
  | 0 => do
    if (← level 0 0).head ≠ NIL then return i32 0
    return -1
  | t + 1 => do
    if (← level 0 (t + 1)).head ≠ NIL then return i32 (t + 1 : Nat)
    scanBids t

/-- `for i in t..n_levels`, of which `n` are left: the first occupied ask
level, or -1. -/
def scanAsks (t : Nat) : Nat → Run Book Int
  | 0 => return -1
  | n + 1 => do
    if (← level 1 t).head ≠ NIL then return i32 t
    scanAsks (t + 1) n

/-- After a removal emptied level `t`, restore the cached best for `side`. -/
def repairBest (side t : Nat) : Run Book Unit := do
  let b ← get
  if side = 0 then
    if b.bestBid ≠ i32 t then return
    if (← level 0 t).head ≠ NIL then return
    let nb ← scanBids t
    modify fun b => { b with bestBid := nb }
  else
    if b.bestAsk ≠ i32 t then return
    if (← level 1 t).head ≠ NIL then return
    let na ← scanAsks t (b.nLevels - t)
    modify fun b => { b with bestAsk := na }

/-- `self.idmap.remove(&order_id).expect(..)`. -/
def removeId (orderId : Int) (text : String) : Run Book Nat := fun b =>
  match b.idmap orderId with
  | some slot => .ok slot { b with idmap := b.idmap.remove orderId }
  | none => .error (.message text) b

/-- Remove a resting order. Its remaining quantity leaves the level. -/
def cancel (orderId : Int) : Run Book Unit := do
  let slot ← removeId orderId "cancel: unknown order id"
  let o ← order slot
  let rem := i64 (o.qty - o.filled)
  let t ← tickOf o.price
  unlink slot o.side t rem
  freeSlot slot
  repairBest o.side t

/-- Fill an order to completion, then remove it. -/
def fill (orderId : Int) : Run Book Unit := do
  let slot ← removeId orderId "fill: unknown order id"
  let o ← order slot
  let rem := i64 (o.qty - o.filled)
  setOrder slot { o with filled := o.qty }
  let t ← tickOf o.price
  unlink slot o.side t rem
  freeSlot slot
  repairBest o.side t

end Book

/-- One call on a store. -/
inductive Op where
  | insert (orderId price qty : Int) (side : Nat)
  | update (orderId fillQty : Int)
  | cancel (orderId : Int)
  | fill (orderId : Int)
  deriving DecidableEq, Repr

def Book.apply : Op → Run Book Unit
  | .insert orderId price qty side => Book.insert orderId price qty side
  | .update orderId fillQty => Book.update orderId fillQty
  | .cancel orderId => Book.cancel orderId
  | .fill orderId => Book.fill orderId

/-- A sequence of calls, from a given book. -/
def Book.run (ops : List Op) : Run Book Unit := Exec.runAll Book.apply ops

end HiPerf
