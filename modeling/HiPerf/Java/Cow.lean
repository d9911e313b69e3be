import HiPerf.Cow.Model
import HiPerf.Java.Book
import HiPerf.Lib.Pages

/-!
The copy-on-write book of `CowBook.java`. A reference to a chunk is its address, which the
calls keep in locals while they copy other chunks. The parallel arrays of a chunk, all of one
length, are one array of their entries. The id map, a parameter, has slots.
-/

namespace HiPerf.Java

open Machine Epoch HashMaps

/-- The entries of an `OrderChunk` at one index. -/
structure Cell where
  orderId : Int
  price : Int
  qty : Int
  filled : Int
  next : Int
  prev : Int
  side : Nat
  deriving DecidableEq, Repr

/-- An order without its slot. -/
def Order.cell (o : Order) : Cell := ⟨o.orderId, o.price, o.qty, o.filled, o.next, o.prev, o.side⟩

structure CowRoot where
  priceMin : Int
  tick : Int
  nLevels : Int
  capacity : Int
  hwm : Int
  bestBid : Int
  bestAsk : Int
  freeHead : Int
  chunk : Nat
  orderChunks : Array Nat
  bidChunks : Array Nat
  askChunks : Array Nat

structure CowBook (lm : Long2LongHashMap) where
  priceMin : Int
  tick : Int
  nLevels : Int
  chunk : Nat
  capacity : Int
  gen : Int
  orders : Pages Cell
  bids : Pages Level
  asks : Pages Level
  hwm : Int
  bestBid : Int
  bestAsk : Int
  freeHead : Int
  ids : lm.Map

def zeroCell : Cell := ⟨0, 0, 0, 0, 0, 0, 0⟩

/-- `n` chunks of the first generation, all full but perhaps the last of the `total` entries. -/
def newChunks {α : Type} (size total n : Nat) (v : α) : Pages α where
  heap := (Array.range n).map fun ci => ⟨1, Array.replicate (min size (total - ci * size)) v⟩
  table := Array.range n

variable {lm : Long2LongHashMap}

def newCowBook (lm : Long2LongHashMap) (cfg : SmrConfig) : Except Panic (CowBook lm) :=
  if cfg.chunk = 0 then throw .divideByZero
  else
    let nOC := (i32 (i32 (cfg.cap + cfg.chunk) - 1)).tdiv cfg.chunk
    let nLC := (i32 (i32 (cfg.levels + LEVEL_CHUNK) - 1)).tdiv LEVEL_CHUNK
    if nOC < 0 ∨ nLC < 0 then throw (.message "negative array size")
    else pure
      { priceMin := cfg.priceMin
        tick := cfg.tick
        nLevels := cfg.levels
        chunk := cfg.chunk
        capacity := cfg.cap
        gen := 1
        orders := newChunks cfg.chunk cfg.cap nOC.toNat zeroCell
        bids := newChunks LEVEL_CHUNK cfg.levels nLC.toNat newLevel
        asks := newChunks LEVEL_CHUNK cfg.levels nLC.toNat newLevel
        hwm := 0
        bestBid := -1
        bestAsk := -1
        freeHead := NIL
        ids := lm.new NIL }

/-- Entry `k` of the chunk at address `a`. -/
def entry {α : Type} (p : Pages α) (a : Nat) (k : Int) : Option α :=
  if 0 ≤ k then p.item a k.toNat else none

namespace CowBook

/-- `(int) ((price - priceMin) / tick)`. -/
def tickOf (price : Int) : Run (CowBook lm) Int := do
  let w ← get
  if w.tick = 0 then throw .divideByZero
  return i32 ((i64 (price - w.priceMin)).tdiv w.tick)

def lane (w : CowBook lm) (side : Nat) : Pages Level := if side = 0 then w.bids else w.asks

def setLane (w : CowBook lm) (side : Nat) (p : Pages Level) : CowBook lm :=
  if side = 0 then { w with bids := p } else { w with asks := p }

def orderChunkForRead (slot : Int) : Run (CowBook lm) Nat := do
  let w ← get
  match nth w.orders.table (slot.tdiv w.chunk) with
  | some a => return a
  | none => throw .indexOutOfBounds

def lvlChunkForRead (side : Nat) (t : Int) : Run (CowBook lm) Nat := do
  let w ← get
  match nth (w.lane side).table (t.tdiv LEVEL_CHUNK) with
  | some a => return a
  | none => throw .indexOutOfBounds

/-- A chunk is copied if `born < gen`; no chunk was born before generation 1. -/
def orderChunkForWrite (slot : Int) : Run (CowBook lm) Nat := do
  let w ← get
  let ci := slot.tdiv w.chunk
  if ci < 0 then throw .indexOutOfBounds
  match w.orders.pin w.gen.toNat ci.toNat with
  | some (a, orders) =>
    set { w with orders }
    return a
  | none => throw .indexOutOfBounds

def lvlChunkForWrite (side : Nat) (t : Int) : Run (CowBook lm) Nat := do
  let w ← get
  let ci := t.tdiv LEVEL_CHUNK
  if ci < 0 then throw .indexOutOfBounds
  match (w.lane side).pin w.gen.toNat ci.toNat with
  | some (a, levels) =>
    set (w.setLane side levels)
    return a
  | none => throw .indexOutOfBounds

/-- `slot % chunk`. -/
def offset (slot : Int) : Run (CowBook lm) Int := do
  let w ← get
  return slot.tmod w.chunk

/-- The entries of the chunk `oc` at `oo`, read. -/
def cell (oc : Nat) (oo : Int) : Run (CowBook lm) Cell := fun w =>
  match entry w.orders oc oo with
  | some c => .ok c w
  | none => .error .indexOutOfBounds w

def setCell (oc : Nat) (oo : Int) (c : Cell) : Run (CowBook lm) Unit := fun w =>
  match entry w.orders oc oo with
  | some _ => .ok () { w with orders := w.orders.setItem oc oo.toNat c }
  | none => .error .indexOutOfBounds w

/-- The entries of the chunk `lc` of a lane at `lo`, read. -/
def lvl (side lc : Nat) (lo : Int) : Run (CowBook lm) Level := fun w =>
  match entry (w.lane side) lc lo with
  | some l => .ok l w
  | none => .error .indexOutOfBounds w

def setLvl (side lc : Nat) (lo : Int) (l : Level) : Run (CowBook lm) Unit := fun w =>
  match entry (w.lane side) lc lo with
  | some _ => .ok () (w.setLane side ((w.lane side).setItem lc lo.toNat l))
  | none => .error .indexOutOfBounds w

/-- The entries of `orderChunkForRead(slot)`. -/
def order (slot : Int) : Run (CowBook lm) Cell := do
  let oc ← orderChunkForRead slot
  let oo ← offset slot
  cell oc oo

/-- The entries of `lvlChunkForRead(side, t)`. -/
def level (side : Nat) (t : Int) : Run (CowBook lm) Level := do
  let lc ← lvlChunkForRead side t
  lvl side lc (t.tmod LEVEL_CHUNK)

/-- `pc.next[slot % chunk] = next` of `orderChunkForWrite(slot)`. -/
def setNext (slot next : Int) : Run (CowBook lm) Unit := do
  let pc ← orderChunkForWrite slot
  let oo ← offset slot
  let c ← cell pc oo
  setCell pc oo { c with next }

def setPrev (slot prev : Int) : Run (CowBook lm) Unit := do
  let nc ← orderChunkForWrite slot
  let oo ← offset slot
  let c ← cell nc oo
  setCell nc oo { c with prev }

/-- `(int) ids.get(orderId)`. -/
def getId (orderId : Int) : Run (CowBook lm) Int := do
  let w ← get
  return i32 (lm.get w.ids orderId)

/-- `(int) ids.remove(orderId)`. -/
def removeId (orderId : Int) : Run (CowBook lm) Int := do
  let w ← get
  let (slot, ids) := lm.remove w.ids orderId
  set { w with ids }
  return i32 slot

def putId (orderId slot : Int) : Run (CowBook lm) Unit := fun w =>
  match lm.put w.ids orderId slot with
  | .ok ids => .ok () { w with ids }
  | .error text => .error (.message text) w

def allocSlot : Run (CowBook lm) Int := do
  let w ← get
  if w.freeHead ≠ NIL then
    let slot := w.freeHead
    let c ← order slot
    modify fun w => { w with freeHead := c.next }
    return slot
  else
    if w.hwm = w.capacity then
      throw (.message s!"order pool exhausted: SMRC_CAP={w.capacity} reached")
    let slot := w.hwm
    modify fun w => { w with hwm := i32 (w.hwm + 1) }
    return slot

def freeSlot (slot : Int) : Run (CowBook lm) Unit := do
  let head := (← get).freeHead
  let oc ← orderChunkForWrite slot
  let oo ← offset slot
  let c ← cell oc oo
  setCell oc oo { c with orderId := 0, next := head, prev := NIL }
  modify fun w => { w with freeHead := slot }

/-- The end of `insert`: the level just occupied against the cached bests. -/
def noteBest (side : Nat) (t : Int) : Run (CowBook lm) Unit := do
  modify fun w => { w with bestBid :=
    if side = 0 ∧ (w.bestBid < 0 ∨ t > w.bestBid) then t else w.bestBid }
  modify fun w => { w with bestAsk :=
    if side = 1 ∧ (w.bestAsk < 0 ∨ t < w.bestAsk) then t else w.bestAsk }

/-- A new order goes behind the tail of its level, or is the head of an empty one. The
reference to the chunk of the level is older than the write to the tail. -/
def link (side : Nat) (slot prevTail : Int) (lc : Nat) (lo : Int) : Run (CowBook lm) Unit :=
  if prevTail ≠ NIL then setNext prevTail slot
  else do
    let level ← lvl side lc lo
    setLvl side lc lo { level with head := slot }

def insert (orderId price qty : Int) (side : Nat) : Run (CowBook lm) Unit := do
  let t ← tickOf price
  let slot ← allocSlot
  let lc ← lvlChunkForWrite side t
  let lo := t.tmod LEVEL_CHUNK
  let prevTail := (← lvl side lc lo).tail
  let oc ← orderChunkForWrite slot
  let oo ← offset slot
  setCell oc oo { orderId, price, qty, filled := 0, next := NIL, prev := prevTail, side }
  link side slot prevTail lc lo
  let level ← lvl side lc lo
  setLvl side lc lo { level with
    tail := slot
    qtyTotal := i64 (level.qtyTotal + qty)
    count := i32 (level.count + 1) }
  putId orderId slot
  noteBest side t

def update (orderId fillQty : Int) : Run (CowBook lm) Unit := do
  let slot ← getId orderId
  let oc ← orderChunkForWrite slot
  let oo ← offset slot
  let c ← cell oc oo
  let add := min fillQty (i64 (c.qty - c.filled))
  setCell oc oo { c with filled := i64 (c.filled + add) }
  let t ← tickOf c.price
  let lc ← lvlChunkForWrite c.side t
  let level ← lvl c.side lc (t.tmod LEVEL_CHUNK)
  setLvl c.side lc (t.tmod LEVEL_CHUNK) { level with qtyTotal := i64 (level.qtyTotal - add) }

def unlink (slot : Int) (side : Nat) (t rem : Int) : Run (CowBook lm) Unit := do
  let c ← order slot
  if c.prev ≠ NIL then setNext c.prev c.next
  if c.next ≠ NIL then setPrev c.next c.prev
  let lc ← lvlChunkForWrite side t
  let level ← lvl side lc (t.tmod LEVEL_CHUNK)
  setLvl side lc (t.tmod LEVEL_CHUNK)
    { head := if level.head = slot then c.next else level.head
      tail := if level.tail = slot then c.prev else level.tail
      qtyTotal := i64 (level.qtyTotal - rem)
      count := i32 (level.count - 1) }

/-- `for (int i = t; i >= 0; i--)`, of which `n` rounds are left. -/
def scanBids (i : Int) : Nat → Run (CowBook lm) Int
  | 0 => return -1
  | n + 1 => do
    if (← level 0 i).head ≠ NIL then return i
    scanBids (i - 1) n

/-- `for (int i = t; i < nLevels; i++)`, of which `n` rounds are left. -/
def scanAsks (i : Int) : Nat → Run (CowBook lm) Int
  | 0 => return -1
  | n + 1 => do
    if (← level 1 i).head ≠ NIL then return i
    scanAsks (i + 1) n

def repairBest (side : Nat) (t : Int) : Run (CowBook lm) Unit := do
  let w ← get
  if side = 0 then
    if w.bestBid ≠ t then return
    if (← level 0 t).head ≠ NIL then return
    let nb ← scanBids t (t + 1).toNat
    modify fun w => { w with bestBid := nb }
  else
    if w.bestAsk ≠ t then return
    if (← level 1 t).head ≠ NIL then return
    let na ← scanAsks t (w.nLevels - t).toNat
    modify fun w => { w with bestAsk := na }

def cancel (orderId : Int) : Run (CowBook lm) Unit := do
  let slot ← removeId orderId
  let c ← order slot
  let rem := i64 (c.qty - c.filled)
  let t ← tickOf c.price
  unlink slot c.side t rem
  freeSlot slot
  repairBest c.side t

def fill (orderId : Int) : Run (CowBook lm) Unit := do
  let slot ← removeId orderId
  let oc ← orderChunkForWrite slot
  let oo ← offset slot
  let c ← cell oc oo
  let rem := i64 (c.qty - c.filled)
  setCell oc oo { c with filled := c.qty }
  let t ← tickOf c.price
  unlink slot c.side t rem
  freeSlot slot
  repairBest c.side t

/-- The root `capture` returns. -/
def root (w : CowBook lm) : CowRoot where
  priceMin := w.priceMin
  tick := w.tick
  nLevels := w.nLevels
  capacity := w.capacity
  hwm := w.hwm
  bestBid := w.bestBid
  bestAsk := w.bestAsk
  freeHead := w.freeHead
  chunk := w.chunk
  orderChunks := w.orders.table
  bidChunks := w.bids.table
  askChunks := w.asks.table

def capture : Run (CowBook lm) CowRoot := do
  let w ← get
  modify fun w => { w with gen := i64 (w.gen + 1) }
  return w.root

/-- The loop of `rebuildIds` from `slot` on, of which `n` slots are left. -/
def indexSlots (slot : Int) : Nat → Run (CowBook lm) Unit
  | 0 => pure ()
  | n + 1 => do
    let c ← order slot
    if c.orderId ≠ 0 then putId c.orderId slot
    indexSlots (slot + 1) n

def rebuildIds : Run (CowBook lm) Unit := do
  modify fun w => { w with ids := lm.clear w.ids }
  let w ← get
  indexSlots 0 w.hwm.toNat

def apply : Op → Run (CowBook lm) Unit
  | .insert orderId price qty side => insert orderId price qty side
  | .update orderId fillQty => update orderId fillQty
  | .cancel orderId => cancel orderId
  | .fill orderId => fill orderId

/-- The calls of a writer, and the roots it hands out on the way. -/
def serve : List CowCall → Run (CowBook lm) (List CowRoot)
  | [] => return []
  | .op op :: calls => do
    apply op
    serve calls
  | .capture :: calls => do
    let root ← capture
    let roots ← serve calls
    return root :: roots

end CowBook

end HiPerf.Java
