import HiPerf.Go.IdMap

/-!
The flat order book of `go/internal/smrcoll/book.go`. Its slots start as zero values, links
included, and it finds a slot through its own id map.
-/

namespace HiPerf.Go

open Machine

structure Book where
  priceMin : Int
  tick : Int
  nLevels : Nat
  bids : Array PriceLevel
  asks : Array PriceLevel
  pool : Array Order
  hwm : Nat
  freeHead : Nat
  bestBid : Int
  bestAsk : Int
  ids : IdMap

/-- `Order{}`. -/
def zeroOrder : Order := ⟨0, 0, 0, 0, 0, 0, 0⟩

def newBook (cfg : SmrConfig) : Option Book :=
  (newIDMap cfg.cap).map fun ids =>
    { priceMin := cfg.priceMin
      tick := cfg.tick
      nLevels := cfg.levels
      bids := Array.replicate cfg.levels ⟨NIL, NIL, 0, 0⟩
      asks := Array.replicate cfg.levels ⟨NIL, NIL, 0, 0⟩
      pool := Array.replicate cfg.cap zeroOrder
      hwm := 0
      freeHead := NIL
      bestBid := -1
      bestAsk := -1
      ids }

namespace Book

/-- `uint32((price - b.PriceMin) / b.Tick)`. A quotient that overflows wraps. -/
def tickOf (price : Int) : Run Book Nat := do
  let b ← get
  if b.tick = 0 then throw .divideByZero
  return u32 ((i64 (price - b.priceMin)).tdiv b.tick)

def lane (b : Book) (side : Nat) : Array PriceLevel := if side = 0 then b.bids else b.asks

/-- `b.Pool[slot]`, read. -/
def order (slot : Nat) : Run Book Order := fun b =>
  match b.pool[slot]? with
  | some o => .ok o b
  | none => .error .indexOutOfBounds b

/-- `b.Pool[slot]`, written. -/
def setOrder (slot : Nat) (o : Order) : Run Book Unit := fun b =>
  if slot < b.pool.size then .ok () { b with pool := b.pool.setIfInBounds slot o }
  else .error .indexOutOfBounds b

def setNext (slot next : Nat) : Run Book Unit := do
  let o ← order slot
  setOrder slot { o with next }

def setPrev (slot prev : Nat) : Run Book Unit := do
  let o ← order slot
  setOrder slot { o with prev }

/-- `b.lane(side)[t]`, read. -/
def level (side t : Nat) : Run Book PriceLevel := fun b =>
  match (b.lane side)[t]? with
  | some l => .ok l b
  | none => .error .indexOutOfBounds b

/-- `b.lane(side)[t]`, written. -/
def setLevel (side t : Nat) (l : PriceLevel) : Run Book Unit := fun b =>
  if t < (b.lane side).size then
    .ok () (if side = 0 then { b with bids := b.bids.setIfInBounds t l }
      else { b with asks := b.asks.setIfInBounds t l })
  else .error .indexOutOfBounds b

/-- What the model stops with where a loop of the id map does not end. -/
def endless : Panic := .message "endless probing"

def getSlot (orderId : Int) : Run Book Nat := fun b =>
  match b.ids.get orderId with
  | some slot => .ok slot b
  | none => .error endless b

/-- `b.ids.put(orderID, slot)`. -/
def putId (orderId : Int) (slot : Nat) : Run Book Unit := fun b =>
  match b.ids.put orderId slot with
  | some ids => .ok () { b with ids }
  | none => .error endless b

/-- `b.ids.del(orderID)`. -/
def delId (orderId : Int) : Run Book Unit := fun b =>
  match b.ids.del orderId with
  | some ids => .ok () { b with ids }
  | none => .error endless b

def allocSlot : Run Book Nat := do
  let b ← get
  if b.freeHead ≠ NIL then
    let slot := b.freeHead
    let o ← order slot
    modify fun b => { b with freeHead := o.next }
    return slot
  else
    if b.hwm = b.pool.size then
      throw (.message s!"order pool exhausted: SMRC_CAP={b.pool.size} reached")
    let slot := b.hwm
    modify fun b => { b with hwm := u32 (b.hwm + 1) }
    return slot

def freeSlot (slot : Nat) : Run Book Unit := do
  let head := (← get).freeHead
  let o ← order slot
  setOrder slot { o with orderId := 0, next := head, prev := NIL }
  modify fun b => { b with freeHead := slot }

/-- The end of `Insert`: the level just occupied against the cached bests. -/
def noteBest (side t : Nat) : Run Book Unit := do
  modify fun b => { b with bestBid :=
    if side = 0 ∧ (b.bestBid < 0 ∨ i32 t > b.bestBid) then i32 t else b.bestBid }
  modify fun b => { b with bestAsk :=
    if side = 1 ∧ (b.bestAsk < 0 ∨ i32 t < b.bestAsk) then i32 t else b.bestAsk }

/-- A new order goes behind the tail of its level, or is the head of an empty one. -/
def link (side t slot prevTail : Nat) : Run Book Unit :=
  if prevTail ≠ NIL then setNext prevTail slot
  else do
    let lvl ← level side t
    setLevel side t { lvl with head := slot }

def insert (orderId price qty : Int) (side : Nat) : Run Book Unit := do
  let t ← tickOf price
  let slot ← allocSlot
  let prevTail := (← level side t).tail
  setOrder slot { orderId, price, qty, filled := 0, next := NIL, prev := prevTail, side }
  link side t slot prevTail
  let lvl ← level side t
  setLevel side t { lvl with
    tail := slot
    qtyTotal := i64 (lvl.qtyTotal + qty)
    count := u32 (lvl.count + 1) }
  putId orderId slot
  noteBest side t

def update (orderId fillQty : Int) : Run Book Unit := do
  let slot ← getSlot orderId
  let o ← order slot
  let rem := i64 (o.qty - o.filled)
  let add := if fillQty > rem then rem else fillQty
  setOrder slot { o with filled := i64 (o.filled + add) }
  let t ← tickOf o.price
  let lvl ← level o.side t
  setLevel o.side t { lvl with qtyTotal := i64 (lvl.qtyTotal - add) }

/-- Remove `slot` from its level's queue and debit `rem` from the level's quantity. -/
def unlink (slot side t : Nat) (rem : Int) : Run Book Unit := do
  let o ← order slot
  if o.prev ≠ NIL then setNext o.prev o.next
  if o.next ≠ NIL then setPrev o.next o.prev
  let lvl ← level side t
  setLevel side t
    { head := if lvl.head = slot then o.next else lvl.head
      tail := if lvl.tail = slot then o.prev else lvl.tail
      qtyTotal := i64 (lvl.qtyTotal - rem)
      count := u32 (lvl.count - 1) }

/-- `for i := int(t); i >= 0; i--`. -/
def scanBids : Nat → Run Book Int
  | 0 => do
    if (← level 0 0).head ≠ NIL then return i32 0
    return -1
  | t + 1 => do
    if (← level 0 (t + 1)).head ≠ NIL then return i32 (t + 1 : Nat)
    scanBids t

/-- `for i := int(t); i < int(b.NLevels); i++`, of which `n` are left. -/
def scanAsks (t : Nat) : Nat → Run Book Int
  | 0 => return -1
  | n + 1 => do
    if (← level 1 t).head ≠ NIL then return i32 t
    scanAsks (t + 1) n

/-- After a removal emptied level `t`, restore the cached best for `side`. -/
def repairBest (side t : Nat) : Run Book Unit := do
  let b ← get
  if side = 0 then
    if b.bestBid ≠ i32 t then return
    if (← level 0 t).head ≠ NIL then return
    let nb ← scanBids t
    modify fun b => { b with bestBid := nb }
  else
    if b.bestAsk ≠ i32 t then return
    if (← level 1 t).head ≠ NIL then return
    let na ← scanAsks t (b.nLevels - t)
    modify fun b => { b with bestAsk := na }

def cancel (orderId : Int) : Run Book Unit := do
  let slot ← getSlot orderId
  let o ← order slot
  let rem := i64 (o.qty - o.filled)
  let t ← tickOf o.price
  delId orderId
  unlink slot o.side t rem
  freeSlot slot
  repairBest o.side t

def fill (orderId : Int) : Run Book Unit := do
  let slot ← getSlot orderId
  let o ← order slot
  let rem := i64 (o.qty - o.filled)
  setOrder slot { o with filled := o.qty }
  let t ← tickOf o.price
  delId orderId
  unlink slot o.side t rem
  freeSlot slot
  repairBest o.side t

/-- The loop of `rebuildIDs` from `slot` on, of which `n` slots are left. -/
def indexSlots (slot : Nat) : Nat → Run Book Unit
  | 0 => pure ()
  | n + 1 => do
    let o ← order slot
    if o.orderId ≠ 0 then putId o.orderId slot
    indexSlots (slot + 1) n

def rebuildIDs : Run Book Unit := do
  let b ← get
  match newIDMap b.pool.size with
  | some ids => set { b with ids }
  | none => throw endless
  indexSlots 0 b.hwm

def apply : Op → Run Book Unit
  | .insert orderId price qty side => insert orderId price qty side
  | .update orderId fillQty => update orderId fillQty
  | .cancel orderId => cancel orderId
  | .fill orderId => fill orderId

def run (ops : List Op) : Run Book Unit := Exec.runAll apply ops

end Book

end HiPerf.Go
