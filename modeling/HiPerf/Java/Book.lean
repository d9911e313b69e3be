import HiPerf.Book.Model
import HiPerf.Lib.HashMaps

/-!
The flat order book of `Book.java`. Handles and ladder indices are signed, and an array access
with a negative one fails like one past the end. The id map is a parameter, and has references
to orders of the pool; an order knows its own slot.
-/

namespace HiPerf.Java

open Machine HashMaps

structure Order where
  orderId : Int
  price : Int
  qty : Int
  filled : Int
  next : Int
  prev : Int
  slot : Int
  side : Nat
  deriving DecidableEq, Repr

structure Level where
  head : Int
  tail : Int
  qtyTotal : Int
  count : Int
  deriving DecidableEq, Repr

/-- `Book.NIL`. -/
def NIL : Int := -1

/-- `a[i]`, if that is a place of the array. -/
def nth {α : Type} (a : Array α) (i : Int) : Option α := if 0 ≤ i then a[i.toNat]? else none

/-- `new Order()`. -/
def zeroOrder : Order := ⟨0, 0, 0, 0, 0, 0, 0, 0⟩

/-- `new Level()`. -/
def newLevel : Level := ⟨NIL, NIL, 0, 0⟩

structure Book (om : Long2ObjectHashMap Int) where
  priceMin : Int
  tick : Int
  nLevels : Int
  bids : Array Level
  asks : Array Level
  pool : Array Order
  hwm : Int
  bestBid : Int
  bestAsk : Int
  ids : om.Map
  freeHead : Int

variable {om : Long2ObjectHashMap Int}

/-- A book around an id map. -/
def emptyBook (cfg : SmrConfig) (ids : om.Map) : Book om where
  priceMin := cfg.priceMin
  tick := cfg.tick
  nLevels := cfg.levels
  bids := Array.replicate cfg.levels newLevel
  asks := Array.replicate cfg.levels newLevel
  pool := Array.replicate cfg.cap zeroOrder
  hwm := 0
  bestBid := -1
  bestAsk := -1
  ids := ids
  freeHead := NIL

def newBook (om : Long2ObjectHashMap Int) (cfg : SmrConfig) : Except Panic (Book om) :=
  match om.new (i32 (cfg.cap * 2)) with
  | .ok ids => .ok (emptyBook cfg ids)
  | .error text => .error (.message text)

namespace Book

/-- `(int) ((price - priceMin) / tick)`. -/
def tickOf (price : Int) : Run (Book om) Int := do
  let b ← get
  if b.tick = 0 then throw .divideByZero
  return i32 ((i64 (price - b.priceMin)).tdiv b.tick)

def lane (b : Book om) (side : Nat) : Array Level := if side = 0 then b.bids else b.asks

/-- `pool[slot]`, read. -/
def order (slot : Int) : Run (Book om) Order := fun b =>
  match nth b.pool slot with
  | some o => .ok o b
  | none => .error .indexOutOfBounds b

/-- The fields of `pool[slot]`, written. -/
def setOrder (slot : Int) (o : Order) : Run (Book om) Unit := fun b =>
  match nth b.pool slot with
  | some _ => .ok () { b with pool := b.pool.setIfInBounds slot.toNat o }
  | none => .error .indexOutOfBounds b

def setNext (slot next : Int) : Run (Book om) Unit := do
  let o ← order slot
  setOrder slot { o with next }

def setPrev (slot prev : Int) : Run (Book om) Unit := do
  let o ← order slot
  setOrder slot { o with prev }

/-- `lane(side)[t]`, read. -/
def level (side : Nat) (t : Int) : Run (Book om) Level := fun b =>
  match nth (b.lane side) t with
  | some l => .ok l b
  | none => .error .indexOutOfBounds b

/-- The fields of `lane(side)[t]`, written. -/
def setLevel (side : Nat) (t : Int) (l : Level) : Run (Book om) Unit := fun b =>
  match nth (b.lane side) t with
  | some _ => .ok () (if side = 0 then { b with bids := b.bids.setIfInBounds t.toNat l }
      else { b with asks := b.asks.setIfInBounds t.toNat l })
  | none => .error .indexOutOfBounds b

/-- `ids.get(orderId)`, of which a field is then read: the place of the order in the pool. -/
def getId (orderId : Int) : Run (Book om) Int := fun b =>
  match om.get b.ids orderId with
  | some i => .ok i b
  | none => .error .missingKey b

/-- `ids.remove(orderId)`, of which a field is then read. -/
def removeId (orderId : Int) : Run (Book om) Int := fun b =>
  match om.remove b.ids orderId with
  | (some i, ids) => .ok i { b with ids }
  | (none, ids) => .error .missingKey { b with ids }

def putId (orderId i : Int) : Run (Book om) Unit := fun b =>
  match om.put b.ids orderId i with
  | .ok ids => .ok () { b with ids }
  | .error text => .error (.message text) b

def getSlot (orderId : Int) : Run (Book om) Int := do
  let i ← getId orderId
  let o ← order i
  return o.slot

def allocSlot : Run (Book om) Int := do
  let b ← get
  if b.freeHead ≠ NIL then
    let slot := b.freeHead
    let o ← order slot
    modify fun b => { b with freeHead := o.next }
    return slot
  else
    if b.hwm = b.pool.size then
      throw (.message s!"order pool exhausted: SMRC_CAP={b.pool.size} reached")
    let slot := b.hwm
    modify fun b => { b with hwm := i32 (b.hwm + 1) }
    return slot

def freeSlot (slot : Int) : Run (Book om) Unit := do
  let o ← order slot
  let head := (← get).freeHead
  setOrder slot { o with orderId := 0, next := head, prev := NIL }
  modify fun b => { b with freeHead := slot }

/-- The end of `insert`: the level just occupied against the cached bests. -/
def noteBest (side : Nat) (t : Int) : Run (Book om) Unit := do
  modify fun b => { b with bestBid :=
    if side = 0 ∧ (b.bestBid < 0 ∨ t > b.bestBid) then t else b.bestBid }
  modify fun b => { b with bestAsk :=
    if side = 1 ∧ (b.bestAsk < 0 ∨ t < b.bestAsk) then t else b.bestAsk }

/-- A new order goes behind the tail of its level, or is the head of an empty one. -/
def link (side : Nat) (t slot prevTail : Int) : Run (Book om) Unit :=
  if prevTail ≠ NIL then setNext prevTail slot
  else do
    let lvl ← level side t
    setLevel side t { lvl with head := slot }

def insert (orderId price qty : Int) (side : Nat) : Run (Book om) Unit := do
  let t ← tickOf price
  let slot ← allocSlot
  let prevTail := (← level side t).tail
  setOrder slot { orderId, price, qty, filled := 0, next := NIL, prev := prevTail, slot, side }
  link side t slot prevTail
  let lvl ← level side t
  setLevel side t { lvl with
    tail := slot
    qtyTotal := i64 (lvl.qtyTotal + qty)
    count := i32 (lvl.count + 1) }
  putId orderId slot
  noteBest side t

def update (orderId fillQty : Int) : Run (Book om) Unit := do
  let i ← getId orderId
  let o ← order i
  let add := min fillQty (i64 (o.qty - o.filled))
  setOrder i { o with filled := i64 (o.filled + add) }
  let t ← tickOf o.price
  let lvl ← level o.side t
  setLevel o.side t { lvl with qtyTotal := i64 (lvl.qtyTotal - add) }

/-- Unlink `slot` from its level's queue and debit `rem` from the level's quantity. -/
def unlink (slot : Int) (side : Nat) (t rem : Int) : Run (Book om) Unit := do
  let o ← order slot
  if o.prev ≠ NIL then setNext o.prev o.next
  if o.next ≠ NIL then setPrev o.next o.prev
  let lvl ← level side t
  setLevel side t
    { head := if lvl.head = slot then o.next else lvl.head
      tail := if lvl.tail = slot then o.prev else lvl.tail
      qtyTotal := i64 (lvl.qtyTotal - rem)
      count := i32 (lvl.count - 1) }

/-- `for (int i = t; i >= 0; i--)`, of which `n` rounds are left. -/
def scanBids (i : Int) : Nat → Run (Book om) Int
  | 0 => return -1
  | n + 1 => do
    if (← level 0 i).head ≠ NIL then return i
    scanBids (i - 1) n

/-- `for (int i = t; i < nLevels; i++)`, of which `n` rounds are left. -/
def scanAsks (i : Int) : Nat → Run (Book om) Int
  | 0 => return -1
  | n + 1 => do
    if (← level 1 i).head ≠ NIL then return i
    scanAsks (i + 1) n

/-- Restore the cached best for `side` after a removal emptied level `t`. -/
def repairBest (side : Nat) (t : Int) : Run (Book om) Unit := do
  let b ← get
  if side = 0 then
    if b.bestBid ≠ t then return
    if (← level 0 t).head ≠ NIL then return
    let nb ← scanBids t (t + 1).toNat
    modify fun b => { b with bestBid := nb }
  else
    if b.bestAsk ≠ t then return
    if (← level 1 t).head ≠ NIL then return
    let na ← scanAsks t (b.nLevels - t).toNat
    modify fun b => { b with bestAsk := na }

def cancel (orderId : Int) : Run (Book om) Unit := do
  let i ← removeId orderId
  let o ← order i
  let rem := i64 (o.qty - o.filled)
  let t ← tickOf o.price
  unlink o.slot o.side t rem
  freeSlot o.slot
  repairBest o.side t

def fill (orderId : Int) : Run (Book om) Unit := do
  let i ← removeId orderId
  let o ← order i
  let rem := i64 (o.qty - o.filled)
  setOrder i { o with filled := o.qty }
  let t ← tickOf o.price
  unlink o.slot o.side t rem
  freeSlot o.slot
  repairBest o.side t

/-- The loop of `rebuildIds` from `slot` on, of which `n` slots are left. -/
def indexSlots (slot : Int) : Nat → Run (Book om) Unit
  | 0 => pure ()
  | n + 1 => do
    let o ← order slot
    if o.orderId ≠ 0 then putId o.orderId slot
    indexSlots (slot + 1) n

def rebuildIds : Run (Book om) Unit := do
  modify fun b => { b with ids := om.clear b.ids }
  let b ← get
  indexSlots 0 b.hwm.toNat

def apply : Op → Run (Book om) Unit
  | .insert orderId price qty side => insert orderId price qty side
  | .update orderId fillQty => update orderId fillQty
  | .cancel orderId => cancel orderId
  | .fill orderId => fill orderId

def run (ops : List Op) : Run (Book om) Unit := Exec.runAll apply ops

end Book

end HiPerf.Java
