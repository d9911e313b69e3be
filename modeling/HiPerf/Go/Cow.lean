import HiPerf.Cow.Model
import HiPerf.Go.Book
import HiPerf.Lib.Pages

/-!
The copy-on-write book of `go/internal/smrcoll/cowbook.go`. A pointer to an order or to a level
is the address of its chunk and an index in it; it stays what it is when the chunk is copied.
-/

namespace HiPerf.Go

open Machine Epoch

structure CowRoot where
  priceMin : Int
  tick : Int
  nLevels : Nat
  capacity : Nat
  hwm : Nat
  freeHead : Nat
  bestBid : Int
  bestAsk : Int
  chunk : Nat
  orderChunks : Array Nat
  bidChunks : Array Nat
  askChunks : Array Nat

structure CowBook where
  priceMin : Int
  tick : Int
  nLevels : Nat
  chunk : Nat
  capacity : Nat
  gen : Nat
  orders : Pages Order
  bids : Pages PriceLevel
  asks : Pages PriceLevel
  hwm : Nat
  freeHead : Nat
  bestBid : Int
  bestAsk : Int
  ids : IdMap

/-- `*Order` and `*Level`. -/
structure Ptr where
  chunk : Nat
  index : Nat

def newCowBook (cfg : SmrConfig) : Except Panic CowBook :=
  if cfg.chunk = 0 then throw .divideByZero
  else
    match newIDMap cfg.cap with
    | none => throw Book.endless
    | some ids => pure
      { priceMin := cfg.priceMin
        tick := cfg.tick
        nLevels := cfg.levels
        chunk := cfg.chunk
        capacity := cfg.cap
        gen := 1
        orders := Pages.full cfg.chunk cfg.cap zeroOrder
        bids := Pages.full LEVEL_CHUNK cfg.levels ⟨NIL, NIL, 0, 0⟩
        asks := Pages.full LEVEL_CHUNK cfg.levels ⟨NIL, NIL, 0, 0⟩
        hwm := 0
        freeHead := NIL
        bestBid := -1
        bestAsk := -1
        ids }

namespace CowBook

def tickOf (price : Int) : Run CowBook Nat := do
  let w ← get
  if w.tick = 0 then throw .divideByZero
  return u32 ((i64 (price - w.priceMin)).tdiv w.tick)

/-- `laneChunks(side)`. -/
def lane (w : CowBook) (side : Nat) : Pages PriceLevel := if side = 0 then w.bids else w.asks

def setLane (w : CowBook) (side : Nat) (p : Pages PriceLevel) : CowBook :=
  if side = 0 then { w with bids := p } else { w with asks := p }

/-- The pointer to item `i`, whose chunk is at address `a`. -/
def point {α : Type} (p : Pages α) (size i a : Nat) : Run CowBook Ptr :=
  match p.item a (i % size) with
  | some _ => return ⟨a, i % size⟩
  | none => throw .indexOutOfBounds

def orderAt (slot : Nat) : Run CowBook Ptr := do
  let w ← get
  match w.orders.table[slot / w.chunk]? with
  | some a => point w.orders w.chunk slot a
  | none => throw .indexOutOfBounds

def levelAt (side t : Nat) : Run CowBook Ptr := do
  let w ← get
  match (w.lane side).table[t / LEVEL_CHUNK]? with
  | some a => point (w.lane side) LEVEL_CHUNK t a
  | none => throw .indexOutOfBounds

def orderMut (slot : Nat) : Run CowBook Ptr := do
  let w ← get
  match w.orders.pin w.gen (slot / w.chunk) with
  | some (a, orders) =>
    set { w with orders }
    point orders w.chunk slot a
  | none => throw .indexOutOfBounds

def levelMut (side t : Nat) : Run CowBook Ptr := do
  let w ← get
  match (w.lane side).pin w.gen (t / LEVEL_CHUNK) with
  | some (a, levels) =>
    set (w.setLane side levels)
    point levels LEVEL_CHUNK t a
  | none => throw .indexOutOfBounds

/-- The order `o` points to. -/
def load (o : Ptr) : Run CowBook Order := do
  let w ← get
  match w.orders.item o.chunk o.index with
  | some order => return order
  | none => throw .indexOutOfBounds

def store (o : Ptr) (order : Order) : Run CowBook Unit :=
  modify fun w => { w with orders := w.orders.setItem o.chunk o.index order }

/-- The level of a lane `lvl` points to. -/
def loadLevel (side : Nat) (lvl : Ptr) : Run CowBook PriceLevel := do
  let w ← get
  match (w.lane side).item lvl.chunk lvl.index with
  | some level => return level
  | none => throw .indexOutOfBounds

def storeLevel (side : Nat) (lvl : Ptr) (level : PriceLevel) : Run CowBook Unit :=
  modify fun w => w.setLane side ((w.lane side).setItem lvl.chunk lvl.index level)

/-- `*b.OrderAt(slot)`, read. -/
def order (slot : Nat) : Run CowBook Order := do
  let o ← orderAt slot
  load o

/-- `*b.LevelAt(side, t)`, read. -/
def level (side t : Nat) : Run CowBook PriceLevel := do
  let lvl ← levelAt side t
  loadLevel side lvl

/-- `b.orderMut(slot).Next = next`. -/
def setNext (slot next : Nat) : Run CowBook Unit := do
  let o ← orderMut slot
  let order ← load o
  store o { order with next }

def setPrev (slot prev : Nat) : Run CowBook Unit := do
  let o ← orderMut slot
  let order ← load o
  store o { order with prev }

def getSlot (orderId : Int) : Run CowBook Nat := do
  let w ← get
  match w.ids.get orderId with
  | some slot => return slot
  | none => throw Book.endless

def putId (orderId : Int) (slot : Nat) : Run CowBook Unit := do
  let w ← get
  match w.ids.put orderId slot with
  | some ids => set { w with ids }
  | none => throw Book.endless

def delId (orderId : Int) : Run CowBook Unit := do
  let w ← get
  match w.ids.del orderId with
  | some ids => set { w with ids }
  | none => throw Book.endless

def allocSlot : Run CowBook Nat := do
  let w ← get
  if w.freeHead ≠ NIL then
    let slot := w.freeHead
    let o ← order slot
    modify fun w => { w with freeHead := o.next }
    return slot
  else
    if w.hwm = w.capacity then
      throw (.message s!"order pool exhausted: SMRC_CAP={w.capacity} reached")
    let slot := w.hwm
    modify fun w => { w with hwm := u32 (w.hwm + 1) }
    return slot

def freeSlot (slot : Nat) : Run CowBook Unit := do
  let head := (← get).freeHead
  let o ← orderMut slot
  let order ← load o
  store o { order with orderId := 0, next := head, prev := NIL }
  modify fun w => { w with freeHead := slot }

/-- The end of `Insert`: the level just occupied against the cached bests. -/
def noteBest (side t : Nat) : Run CowBook Unit := do
  modify fun w => { w with bestBid :=
    if side = 0 ∧ (w.bestBid < 0 ∨ i32 t > w.bestBid) then i32 t else w.bestBid }
  modify fun w => { w with bestAsk :=
    if side = 1 ∧ (w.bestAsk < 0 ∨ i32 t < w.bestAsk) then i32 t else w.bestAsk }

/-- The new order behind the tail of its level, or at the head of an empty one. The pointer to
the level is older than the write to the tail. -/
def link (side slot prevTail : Nat) (lvl : Ptr) : Run CowBook Unit :=
  if prevTail ≠ NIL then setNext prevTail slot
  else do
    let level ← loadLevel side lvl
    storeLevel side lvl { level with head := slot }

def insert (orderId price qty : Int) (side : Nat) : Run CowBook Unit := do
  let t ← tickOf price
  let slot ← allocSlot
  let prevTail := (← level side t).tail
  let o ← orderMut slot
  store o { orderId, price, qty, filled := 0, next := NIL, prev := prevTail, side }
  let lvl ← levelMut side t
  link side slot prevTail lvl
  let level ← loadLevel side lvl
  storeLevel side lvl { level with
    tail := slot
    qtyTotal := i64 (level.qtyTotal + qty)
    count := u32 (level.count + 1) }
  putId orderId slot
  noteBest side t

def update (orderId fillQty : Int) : Run CowBook Unit := do
  let slot ← getSlot orderId
  let o ← orderMut slot
  let order ← load o
  let rem := i64 (order.qty - order.filled)
  let add := if fillQty > rem then rem else fillQty
  store o { order with filled := i64 (order.filled + add) }
  let t ← tickOf order.price
  let lvl ← levelMut order.side t
  let level ← loadLevel order.side lvl
  storeLevel order.side lvl { level with qtyTotal := i64 (level.qtyTotal - add) }

def unlink (slot side t : Nat) (rem : Int) : Run CowBook Unit := do
  let o ← order slot
  if o.prev ≠ NIL then setNext o.prev o.next
  if o.next ≠ NIL then setPrev o.next o.prev
  let lvl ← levelMut side t
  let level ← loadLevel side lvl
  storeLevel side lvl
    { head := if level.head = slot then o.next else level.head
      tail := if level.tail = slot then o.prev else level.tail
      qtyTotal := i64 (level.qtyTotal - rem)
      count := u32 (level.count - 1) }

/-- `for i := int(t); i >= 0; i--`. -/
def scanBids : Nat → Run CowBook Int
  | 0 => do
    if (← level 0 0).head ≠ NIL then return i32 0
    return -1
  | t + 1 => do
    if (← level 0 (t + 1)).head ≠ NIL then return i32 (t + 1 : Nat)
    scanBids t

/-- `for i := int(t); i < int(b.NLevels); i++`, of which `n` are left. -/
def scanAsks (t : Nat) : Nat → Run CowBook Int
  | 0 => return -1
  | n + 1 => do
    if (← level 1 t).head ≠ NIL then return i32 t
    scanAsks (t + 1) n

def repairBest (side t : Nat) : Run CowBook Unit := do
  let w ← get
  if side = 0 then
    if w.bestBid ≠ i32 t then return
    if (← level 0 t).head ≠ NIL then return
    let nb ← scanBids t
    modify fun w => { w with bestBid := nb }
  else
    if w.bestAsk ≠ i32 t then return
    if (← level 1 t).head ≠ NIL then return
    let na ← scanAsks t (w.nLevels - t)
    modify fun w => { w with bestAsk := na }

def cancel (orderId : Int) : Run CowBook Unit := do
  let slot ← getSlot orderId
  let o ← order slot
  let rem := i64 (o.qty - o.filled)
  let t ← tickOf o.price
  delId orderId
  unlink slot o.side t rem
  freeSlot slot
  repairBest o.side t

def fill (orderId : Int) : Run CowBook Unit := do
  let slot ← getSlot orderId
  let o ← orderMut slot
  let order ← load o
  let rem := i64 (order.qty - order.filled)
  store o { order with filled := order.qty }
  let t ← tickOf order.price
  delId orderId
  unlink slot order.side t rem
  freeSlot slot
  repairBest order.side t

/-- The root `Capture` returns. -/
def root (w : CowBook) : CowRoot where
  priceMin := w.priceMin
  tick := w.tick
  nLevels := w.nLevels
  capacity := u32 w.capacity
  hwm := w.hwm
  freeHead := w.freeHead
  bestBid := w.bestBid
  bestAsk := w.bestAsk
  chunk := w.chunk
  orderChunks := w.orders.table
  bidChunks := w.bids.table
  askChunks := w.asks.table

def capture : Run CowBook CowRoot := do
  let w ← get
  modify fun w => { w with gen := u64 (w.gen + 1) }
  return w.root

/-- The loop of `rebuildIDs` from `slot` on, of which `n` slots are left. -/
def indexSlots (slot : Nat) : Nat → Run CowBook Unit
  | 0 => pure ()
  | n + 1 => do
    let o ← order slot
    if o.orderId ≠ 0 then putId o.orderId slot
    indexSlots (slot + 1) n

def rebuildIDs : Run CowBook Unit := do
  let w ← get
  match newIDMap w.capacity with
  | some ids => set { w with ids }
  | none => throw Book.endless
  indexSlots 0 w.hwm

def apply : Op → Run CowBook Unit
  | .insert orderId price qty side => insert orderId price qty side
  | .update orderId fillQty => update orderId fillQty
  | .cancel orderId => cancel orderId
  | .fill orderId => fill orderId

/-- The calls of a writer, and the roots it hands out on the way. -/
def serve : List CowCall → Run CowBook (List CowRoot)
  | [] => return []
  | .op op :: calls => do
    apply op
    serve calls
  | .capture :: calls => do
    let root ← capture
    let roots ← serve calls
    return root :: roots

end CowBook

end HiPerf.Go
