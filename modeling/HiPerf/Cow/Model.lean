import HiPerf.Book.Model
import HiPerf.Lib.Epoch

/-!
The copy-on-write book of `smr-collections/common/src/cowbook.rs`. The pool and
the ladder live in chunks behind tables of addresses; `capture` copies the
tables, and the writer copies a chunk before its first write after that. The
chunks themselves are in a memory which the writer and every root share.
-/

namespace HiPerf

open Machine

/-- Price levels per ladder chunk. -/
def LEVEL_CHUNK : Nat := 256

/-- Every chunk by address. A chunk that nobody refers to any more just stays. -/
structure Memory where
  orders : Epoch.Heap Order
  levels : Epoch.Heap PriceLevel

/-- A frozen point-in-time view: chunk addresses and scalars. -/
structure Root where
  priceMin : Int
  tick : Int
  nLevels : Nat
  capacity : Nat
  hwm : Nat
  bestBid : Int
  bestAsk : Int
  chunk : Nat
  freeHead : Nat
  orderChunks : Array Nat
  bidChunks : Array Nat
  askChunks : Array Nat

namespace Root

/-- `order(slot)` at a moment when the memory is `m`. -/
def order (r : Root) (m : Memory) (slot : Nat) : Option Order :=
  Epoch.get m.orders r.orderChunks r.chunk slot

/-- `level(side, t)` at a moment when the memory is `m`. -/
def level (r : Root) (m : Memory) (side t : Nat) : Option PriceLevel :=
  Epoch.get m.levels (if side = 0 then r.bidChunks else r.askChunks) LEVEL_CHUNK t

end Root

structure CowBook where
  priceMin : Int
  tick : Int
  nLevels : Nat
  capacity : Nat
  chunk : Nat
  gen : Nat
  orderChunks : Array Nat
  bidChunks : Array Nat
  askChunks : Array Nat
  hwm : Nat
  bestBid : Int
  bestAsk : Int
  freeHead : Nat
  idmap : IdMap
  mem : Memory

namespace CowBook

/-- The ladder chunks of one lane. -/
def mkLane (cfg : SmrConfig) : Epoch.Heap PriceLevel :=
  Epoch.fill LEVEL_CHUNK cfg.levels PriceLevel.EMPTY

/-- A book of no orders; a chunk size of zero divides by zero. -/
def new (cfg : SmrConfig) : Except Panic CowBook :=
  if cfg.chunk = 0 then throw .divideByZero
  else
    let orders := Epoch.fill cfg.chunk cfg.cap Order.zero
    let lane := mkLane cfg
    pure
      { priceMin := cfg.priceMin
        tick := cfg.tick
        nLevels := cfg.levels
        capacity := u32 cfg.cap
        chunk := cfg.chunk
        gen := 1
        orderChunks := Array.range orders.size
        bidChunks := Array.range lane.size
        askChunks := (Array.range lane.size).map (· + lane.size)
        hwm := 0
        bestBid := -1
        bestAsk := -1
        freeHead := NIL
        idmap := IdMap.empty
        mem := ⟨orders, lane ++ lane⟩ }

def tickOf (price : Int) : Run CowBook Nat := do
  let w ← get
  gridTick w.priceMin w.tick price

def lane (w : CowBook) (side : Nat) : Array Nat := if side = 0 then w.bidChunks else w.askChunks

def order? (w : CowBook) (slot : Nat) : Option Order :=
  Epoch.get w.mem.orders w.orderChunks w.chunk slot

def level? (w : CowBook) (side t : Nat) : Option PriceLevel :=
  Epoch.get w.mem.levels (w.lane side) LEVEL_CHUNK t

def order (slot : Nat) : Run CowBook Order := fun w =>
  match w.order? slot with
  | some o => .ok o w
  | none => .error .indexOutOfBounds w

def level (side t : Nat) : Run CowBook PriceLevel := fun w =>
  match w.level? side t with
  | some l => .ok l w
  | none => .error .indexOutOfBounds w

def setOrders (w : CowBook) (heap : Epoch.Heap Order) (table : Array Nat) : CowBook :=
  { w with orderChunks := table, mem := { w.mem with orders := heap } }

def setLevels (w : CowBook) (side : Nat) (heap : Epoch.Heap PriceLevel) (table : Array Nat) :
    CowBook :=
  if side = 0 then { w with bidChunks := table, mem := { w.mem with levels := heap } }
  else { w with askChunks := table, mem := { w.mem with levels := heap } }

/-- `order_mut(slot)`, then `write` through the reference it returns; the
result is what the reference showed. -/
def orderMut (slot : Nat) (write : Order → Order) : Run CowBook Order := fun w =>
  match Epoch.own w.mem.orders w.orderChunks w.gen (slot / w.chunk) with
  | none => .error .indexOutOfBounds w
  | some (heap, table) =>
    match Epoch.get heap table w.chunk slot with
    | none => .error .indexOutOfBounds (w.setOrders heap table)
    | some o => .ok o (w.setOrders (Epoch.put heap table w.chunk slot (write o)) table)

/-- `level_mut(side, t)`, likewise. -/
def levelMut (side t : Nat) (write : PriceLevel → PriceLevel) : Run CowBook PriceLevel := fun w =>
  match Epoch.own w.mem.levels (w.lane side) w.gen (t / LEVEL_CHUNK) with
  | none => .error .indexOutOfBounds w
  | some (heap, table) =>
    match Epoch.get heap table LEVEL_CHUNK t with
    | none => .error .indexOutOfBounds (w.setLevels side heap table)
    | some l => .ok l (w.setLevels side (Epoch.put heap table LEVEL_CHUNK t (write l)) table)

/-- `self.idmap[&order_id]`. -/
def getSlot (orderId : Int) : Run CowBook Nat := fun w =>
  match w.idmap orderId with
  | some slot => .ok slot w
  | none => .error .missingKey w

def allocSlot : Run CowBook Nat := do
  let w ← get
  if w.freeHead ≠ NIL then
    let slot := w.freeHead
    let o ← order slot
    modify fun w => { w with freeHead := o.next }
    return slot
  else
    if w.hwm = w.capacity then
      throw (.message s!"order pool exhausted: SMRC_CAP={w.capacity} reached")
    let slot := w.hwm
    modify fun w => { w with hwm := u32 (w.hwm + 1) }
    return slot

def freeSlot (slot : Nat) : Run CowBook Unit := do
  let head := (← get).freeHead
  let _ ← orderMut slot fun o => { o with orderId := 0, next := head, prev := NIL }
  modify fun w => { w with freeHead := slot }

/-- The end of `insert`: the level just occupied against the cached bests. -/
def noteBest (side t : Nat) : Run CowBook Unit := do
  modify fun w => { w with bestBid :=
    if side = 0 ∧ (w.bestBid < 0 ∨ i32 t > w.bestBid) then i32 t else w.bestBid }
  modify fun w => { w with bestAsk :=
    if side = 1 ∧ (w.bestAsk < 0 ∨ i32 t < w.bestAsk) then i32 t else w.bestAsk }

def insert (orderId price qty : Int) (side : Nat) : Run CowBook Unit := do
  let t ← tickOf price
  let slot ← allocSlot
  let prevTail := (← level side t).tail
  let _ ← orderMut slot fun _ =>
    { orderId, price, qty, filled := 0, next := NIL, prev := prevTail, side }
  let _ ← levelMut side t fun lvl =>
    { head := if lvl.tail = NIL then slot else lvl.head
      tail := slot
      qtyTotal := i64 (lvl.qtyTotal + qty)
      count := u32 (lvl.count + 1) }
  if prevTail ≠ NIL then let _ ← orderMut prevTail fun o => { o with next := slot }
  modify fun w => { w with idmap := w.idmap.insert orderId slot }
  noteBest side t

def update (orderId fillQty : Int) : Run CowBook Unit := do
  let slot ← getSlot orderId
  let o ← orderMut slot fun o =>
    { o with filled := i64 (o.filled + min fillQty (i64 (o.qty - o.filled))) }
  let add := min fillQty (i64 (o.qty - o.filled))
  let t ← tickOf o.price
  let _ ← levelMut o.side t fun lvl => { lvl with qtyTotal := i64 (lvl.qtyTotal - add) }

def unlink (slot side t : Nat) (rem : Int) : Run CowBook Unit := do
  let o ← order slot
  if o.prev ≠ NIL then let _ ← orderMut o.prev fun p => { p with next := o.next }
  if o.next ≠ NIL then let _ ← orderMut o.next fun n => { n with prev := o.prev }
  let _ ← levelMut side t fun lvl =>
    { head := if lvl.head = slot then o.next else lvl.head
      tail := if lvl.tail = slot then o.prev else lvl.tail
      qtyTotal := i64 (lvl.qtyTotal - rem)
      count := u32 (lvl.count - 1) }

/-- `for i in (0..=t).rev()`: the first occupied bid level, or -1. -/
def scanBids : Nat → Run CowBook Int
  | 0 => do
    if (← level 0 0).head ≠ NIL then return i32 0
    return -1
  | t + 1 => do
    if (← level 0 (t + 1)).head ≠ NIL then return i32 (t + 1 : Nat)
    scanBids t

/-- `for i in t..n_levels`, of which `n` are left. -/
def scanAsks (t : Nat) : Nat → Run CowBook Int
  | 0 => return -1
  | n + 1 => do
    if (← level 1 t).head ≠ NIL then return i32 t
    scanAsks (t + 1) n

def repairBest (side t : Nat) : Run CowBook Unit := do
  let w ← get
  if side = 0 then
    if w.bestBid ≠ i32 t then return
    if (← level 0 t).head ≠ NIL then return
    let nb ← scanBids t
    modify fun w => { w with bestBid := nb }
  else
    if w.bestAsk ≠ i32 t then return
    if (← level 1 t).head ≠ NIL then return
    let na ← scanAsks t (w.nLevels - t)
    modify fun w => { w with bestAsk := na }

/-- `self.idmap.remove(&order_id).expect(..)`. -/
def removeId (orderId : Int) (text : String) : Run CowBook Nat := fun w =>
  match w.idmap orderId with
  | some slot => .ok slot { w with idmap := w.idmap.remove orderId }
  | none => .error (.message text) w

def cancel (orderId : Int) : Run CowBook Unit := do
  let slot ← removeId orderId "cancel: unknown order id"
  let o ← order slot
  let rem := i64 (o.qty - o.filled)
  let t ← tickOf o.price
  unlink slot o.side t rem
  freeSlot slot
  repairBest o.side t

def fill (orderId : Int) : Run CowBook Unit := do
  let slot ← removeId orderId "fill: unknown order id"
  let o ← orderMut slot fun o => { o with filled := o.qty }
  let rem := i64 (o.qty - o.filled)
  let t ← tickOf o.price
  unlink slot o.side t rem
  freeSlot slot
  repairBest o.side t

/-- The root `capture` returns. -/
def root (w : CowBook) : Root where
  priceMin := w.priceMin
  tick := w.tick
  nLevels := w.nLevels
  capacity := w.capacity
  hwm := w.hwm
  bestBid := w.bestBid
  bestAsk := w.bestAsk
  chunk := w.chunk
  freeHead := w.freeHead
  orderChunks := w.orderChunks
  bidChunks := w.bidChunks
  askChunks := w.askChunks

/-- Freeze the current state: copy the tables and start a generation. -/
def capture : Run CowBook Root := do
  let w ← get
  modify fun w => { w with gen := u64 (w.gen + 1) }
  return w.root

def apply : Op → Run CowBook Unit
  | .insert orderId price qty side => insert orderId price qty side
  | .update orderId fillQty => update orderId fillQty
  | .cancel orderId => cancel orderId
  | .fill orderId => fill orderId

end CowBook

/-- One call on a copy-on-write book; the caller of `capture` keeps the root. -/
inductive CowCall where
  | op (op : Op)
  | capture
  deriving DecidableEq, Repr

namespace CowCall

/-- The calls a flat book has too. -/
def ops : List CowCall → List Op
  | [] => []
  | .op o :: calls => o :: ops calls
  | .capture :: calls => ops calls

def captures : List CowCall → Nat
  | [] => 0
  | .op _ :: calls => captures calls
  | .capture :: calls => captures calls + 1

end CowCall

namespace CowBook

def call : CowCall → Run CowBook Unit
  | .op op => apply op
  | .capture => do
    let _ ← capture

def run (calls : List CowCall) : Run CowBook Unit := Exec.runAll call calls

end CowBook

end HiPerf
