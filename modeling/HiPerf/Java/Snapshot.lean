import HiPerf.Java.Cow
import HiPerf.Serial.Flyweight
import HiPerf.Snapshot.Restore

/-!
The snapshots of `Snapshotter.java` and `CowSnapshotter.java`, over the generated `booksnap`.
The encoder moves its limit unchecked; an `UnsafeBuffer` checks every access against its bounds,
as it does by default. A limit that would not fit 32 bits is beyond the buffer as well, so no
position wraps.
-/

namespace HiPerf.Java

open Machine Exec Epoch Serial HashMaps

variable {om : Long2ObjectHashMap Int} {lm : Long2LongHashMap}

/-- `buffer.putInt` and `buffer.putLong`. -/
def putInt (i : Nat) (v : Int) : Run Flyweight Unit := Flyweight.put i (Bytes.le 4 (u32 v))

def putLong (i : Nat) (v : Int) : Run Flyweight Unit := Flyweight.put i (Bytes.le 8 (u64 v))

def putSide (i side : Nat) : Run Flyweight Unit := Flyweight.put i (Bytes.le 1 (sideEnum side))

/-- `wrapAndApplyHeader` at offset 0. -/
def applyHeader : Run Flyweight Unit := do
  Flyweight.setHeader HiPerf.SBE_BLOCK_LENGTH HiPerf.SBE_TEMPLATE_ID HiPerf.SBE_SCHEMA_ID
    HiPerf.SBE_SCHEMA_VERSION
  modify fun m => { m with position := 8 + HiPerf.SBE_BLOCK_LENGTH }

/-- `levelsCount` and `ordersCount`. -/
def groupCount (blockLength : Nat) (count : Int) : Run Flyweight Unit := do
  Flyweight.panicIf (count < 0 ∨ count > 65534) "count outside allowed range"
  let limit := (← get).position
  modify fun m => { m with index := 0, count := count.toNat, position := limit + 4 }
  Flyweight.setDimensions limit blockLength count.toNat

/-- `next()` of a group. -/
def next (blockLength : Nat) : Run Flyweight Unit := do
  let m ← get
  Flyweight.panicIf (m.index ≥ m.count) "no such element"
  set { m with offset := m.position, position := m.position + blockLength, index := m.index + 1 }

/-- The scalars of a book or of a root. -/
def setScalars (priceMin tick nLevels capacity hwm bestBid bestAsk freeHead : Int) :
    Run Flyweight Unit := do
  putLong 8 priceMin
  putLong (8 + 8) tick
  putInt (8 + 16) nLevels
  putInt (8 + 20) capacity
  putInt (8 + 24) hwm
  putInt (8 + 28) bestBid
  putInt (8 + 32) bestAsk
  putInt (8 + 36) freeHead

def writeLevel (side t : Nat) (lvl : Level) : Run Flyweight Unit := do
  next LEVELS_BLOCK
  let offset := (← get).offset
  putSide offset side
  putInt (offset + 1) t
  putLong (offset + 5) lvl.qtyTotal
  putInt (offset + 13) lvl.count
  putInt (offset + 17) lvl.head
  putInt (offset + 21) lvl.tail

def writeOrder (slot : Nat) (c : Cell) : Run Flyweight Unit := do
  next ORDERS_BLOCK
  let offset := (← get).offset
  putInt offset slot
  putLong (offset + 4) c.orderId
  putLong (offset + 12) c.price
  putLong (offset + 20) c.qty
  putLong (offset + 28) c.filled
  putSide (offset + 36) c.side
  putInt (offset + 37) c.next
  putInt (offset + 41) c.prev

/-- The checksum behind the message; the result is the length of the image. -/
def sealImage (crc32c : List UInt8 → UInt32) : Run Flyweight Nat := do
  let m ← get
  let sbeLen := m.position
  if sbeLen > m.buffer.length then throw .indexOutOfBounds
  Flyweight.putU32 sbeLen (crc32c (m.buffer.take sbeLen)).toNat
  return sbeLen + 4

namespace Book

/-- The loop that counts the occupied levels of a lane. -/
def countLane (lane : List Level) (levelCount : Nat) : Nat :=
  lane.foldl (fun n lvl => if lvl.head ≠ NIL then n + 1 else n) levelCount

def occupied (b : Book om) : Nat := countLane b.asks.toList (countLane b.bids.toList 0)

/-- The loop over the levels of a lane, from level `t` on. -/
def writeLane (side : Nat) : Nat → List Level → Run Flyweight Unit
  | _, [] => pure ()
  | t, lvl :: lane =>
    if lvl.head = NIL then writeLane side (t + 1) lane
    else do
      writeLevel side t lvl
      writeLane side (t + 1) lane

/-- The loop over the slots from `slot` on, of which `n` are left. -/
def writeOrders (pool : Array Order) (slot : Nat) : Nat → Run Flyweight Unit
  | 0 => pure ()
  | n + 1 => do
    match pool[slot]? with
    | some o => writeOrder slot o.cell
    | none => throw .indexOutOfBounds
    writeOrders pool (slot + 1) n

def write (b : Book om) : Run Flyweight Unit := do
  applyHeader
  setScalars b.priceMin b.tick b.nLevels b.pool.size b.hwm b.bestBid b.bestAsk b.freeHead
  groupCount LEVELS_BLOCK b.occupied
  writeLane 0 0 b.bids.toList
  writeLane 1 0 b.asks.toList
  groupCount ORDERS_BLOCK b.hwm
  writeOrders b.pool 0 b.hwm.toNat

/-- `encode` of a snapshotter whose backing array is `buf`: the array, and how much of it the
image is. -/
def encode (crc32c : List UInt8 → UInt32) (b : Book om) (buf : List UInt8) :
    Except Panic (List UInt8 × Nat) :=
  match (write b >>= fun _ => sealImage crc32c) ⟨buf, 0, 0, 0, 0⟩ with
  | .ok len m => .ok (m.buffer, len)
  | .error p _ => .error p

end Book

namespace CowRoot

/-- `lvl(side, t)` and the entries at `t % LEVEL_CHUNK`, as the chunks of `w` are now. -/
def level (r : CowRoot) (w : CowBook lm) (side t : Nat) : Option Level :=
  Epoch.get (if side = 0 then w.bids.heap else w.asks.heap)
    (if side = 0 then r.bidChunks else r.askChunks) LEVEL_CHUNK t

/-- `ord(slot)` and the entries at `slot % chunk`. -/
def order (r : CowRoot) (w : CowBook lm) (slot : Nat) : Option Cell :=
  Epoch.get w.orders.heap r.orderChunks r.chunk slot

/-- The loop that counts the occupied levels of a lane, from level `t` on, of which `n` are left. -/
def countLane (r : CowRoot) (w : CowBook lm) (side t : Nat) : Nat → Nat → Except Panic Nat
  | 0, levelCount => return levelCount
  | n + 1, levelCount =>
    match r.level w side t with
    | some lvl => countLane r w side (t + 1) n (if lvl.head ≠ NIL then levelCount + 1 else levelCount)
    | none => throw .indexOutOfBounds

def occupied (r : CowRoot) (w : CowBook lm) : Except Panic Nat := do
  let levelCount ← r.countLane w 0 0 r.nLevels.toNat 0
  r.countLane w 1 0 r.nLevels.toNat levelCount

/-- The loop over the levels of a lane, from level `t` on, of which `n` are left. -/
def writeLane (r : CowRoot) (w : CowBook lm) (side t : Nat) : Nat → Run Flyweight Unit
  | 0 => pure ()
  | n + 1 =>
    match r.level w side t with
    | some lvl =>
      if lvl.head = NIL then writeLane r w side (t + 1) n
      else do
        writeLevel side t lvl
        writeLane r w side (t + 1) n
    | none => throw .indexOutOfBounds

/-- The loop over the slots from `slot` on, of which `n` are left. -/
def writeOrders (r : CowRoot) (w : CowBook lm) (slot : Nat) : Nat → Run Flyweight Unit
  | 0 => pure ()
  | n + 1 => do
    match r.order w slot with
    | some c => writeOrder slot c
    | none => throw .indexOutOfBounds
    writeOrders r w (slot + 1) n

def write (r : CowRoot) (w : CowBook lm) : Run Flyweight Unit := do
  applyHeader
  setScalars r.priceMin r.tick r.nLevels r.capacity r.hwm r.bestBid r.bestAsk r.freeHead
  match r.occupied w with
  | .ok levelCount => groupCount LEVELS_BLOCK levelCount
  | .error p => throw p
  r.writeLane w 0 0 r.nLevels.toNat
  r.writeLane w 1 0 r.nLevels.toNat
  groupCount ORDERS_BLOCK r.hwm
  r.writeOrders w 0 r.hwm.toNat

/-- `encodeRoot` of a snapshotter whose backing array is `buf`. -/
def encode (crc32c : List UInt8 → UInt32) (r : CowRoot) (w : CowBook lm) (buf : List UInt8) :
    Except Panic (List UInt8 × Nat) :=
  match (r.write w >>= fun _ => sealImage crc32c) ⟨buf, 0, 0, 0, 0⟩ with
  | .ok len m => .ok (m.buffer, len)
  | .error p _ => .error p

end CowRoot

namespace Snapshot

open Decoder

variable {σ : Type}

/-- `side()` of a block, and `sideByte` of it. -/
def getSide (data : List UInt8) (i : Nat) : Restoring σ Nat := do
  let v ← getU8 data i
  if v = 0 ∨ v = 255 then return 0
  if v = 1 then return 1
  throw (.panic (.message s!"Unknown value: {v}"))

/-- A level of the image, and where it goes. -/
def getLevel (data : List UInt8) (position : Nat) : Restoring σ (Nat × Int × Level) := do
  let side ← getSide data position
  let t ← getI32 data (position + 1)
  let qtyTotal ← getI64 data (position + 5)
  let count ← getI32 data (position + 13)
  let head ← getI32 data (position + 17)
  let tail ← getI32 data (position + 21)
  return (side, t, { head, tail, qtyTotal, count })

/-- An order of the image, and where it goes. -/
def getOrder (data : List UInt8) (position : Nat) : Restoring σ (Int × Cell) := do
  let slot ← getI32 data position
  let orderId ← getI64 data (position + 4)
  let price ← getI64 data (position + 12)
  let qty ← getI64 data (position + 20)
  let filled ← getI64 data (position + 28)
  let side ← getSide data (position + 36)
  let next ← getI32 data (position + 37)
  let prev ← getI32 data (position + 41)
  return (slot, { orderId, price, qty, filled, next, prev, side })

/-- `wrap` of a group at the limit: its block length, its count, and where it starts. -/
def wrapGroup (data : List UInt8) (position : Nat) : Restoring σ (Nat × Nat × Nat) := do
  let blockLength ← getU16 data position
  let count ← getU16 data (position + 2)
  return (blockLength, count, position + 4)

/-- The loop over the levels of an image, of which `n` are left. -/
def readLevels (put : Nat → Int → Level → Run σ Unit) (data : List UInt8) (blockLength : Nat) :
    Nat → Nat → Restoring σ Nat
  | 0, position => pure position
  | n + 1, position => do
    let (side, t, lvl) ← getLevel data position
    lift (put side t lvl)
    readLevels put data blockLength n (position + blockLength)

/-- The loop over the orders of an image, of which `n` are left. -/
def readOrders (put : Int → Cell → Run σ Unit) (data : List UInt8) (blockLength : Nat) :
    Nat → Nat → Restoring σ Nat
  | 0, position => pure position
  | n + 1, position => do
    let (slot, c) ← getOrder data position
    lift (put slot c)
    readOrders put data blockLength n (position + blockLength)

/-- The two loops of a restore, and the map behind them. -/
def groups (putLevel : Nat → Int → Level → Run σ Unit) (putOrder : Int → Cell → Run σ Unit)
    (rebuildIds : Run σ Unit) (data : List UInt8) (position : Nat) : Restoring σ Unit := do
  let (blockLength, count, position) ← wrapGroup data position
  let position ← readLevels putLevel data blockLength count position
  let (blockLength, count, position) ← wrapGroup data position
  let _ ← readOrders putOrder data blockLength count position
  lift rebuildIds

/-- The trailer and the version, which both restores check: where the groups start. -/
def decodeHeader (crc32c : List UInt8 → UInt32) (data : List UInt8) : Except Fault Nat := do
  if data.length < 4 then throw (.err "snapshot too short")
  let sbeLen := data.length - 4
  if (crc32c (data.take sbeLen)).toNat ≠ Bytes.unle (data.drop sbeLen) then
    throw (.err "crc32c mismatch")
  if 8 > data.length then throw (.panic .indexOutOfBounds)
  let version := Bytes.unle (Bytes.get data 6 2)
  if version ≠ HiPerf.SBE_SCHEMA_VERSION then
    throw (.err s!"unsupported snapshot schema version {version} (expected 2)")
  return 8 + Bytes.unle (Bytes.get data 0 2)

/-- An order of the image, in the pool. -/
def putOrder (slot : Int) (c : Cell) : Run (Book om) Unit :=
  Book.setOrder slot ⟨c.orderId, c.price, c.qty, c.filled, c.next, c.prev, slot, c.side⟩

/-- What `restore` reads into a new book. -/
def message (data : List UInt8) (position : Nat) (cfg : SmrConfig) : Restoring (Book om) Unit := do
  let hwm ← getI32 data (8 + 24)
  let bestBid ← getI32 data (8 + 28)
  let bestAsk ← getI32 data (8 + 32)
  modify fun b => { b with hwm, bestBid, bestAsk }
  let capacity ← getI32 data (8 + 20)
  if capacity ≠ cfg.cap then throw (.err s!"snapshot capacity {capacity} != SMRC_CAP {cfg.cap}")
  let nLevels ← getI32 data (8 + 16)
  if nLevels ≠ cfg.levels then
    throw (.err s!"snapshot nLevels {nLevels} != SMRC_LEVELS {cfg.levels}")
  let freeHead ← getI32 data (8 + 36)
  modify fun b => { b with nLevels, freeHead }
  groups Book.setLevel putOrder Book.rebuildIds data position

/-- `restore` of an image of all the bytes of `data`. -/
def restore (om : Long2ObjectHashMap Int) (crc32c : List UInt8 → UInt32) (data : List UInt8)
    (cfg : SmrConfig) : Except Fault (Book om) := do
  let position ← decodeHeader crc32c data
  match newBook om cfg with
  | .error p => throw (.panic p)
  | .ok b =>
    match message data position cfg b with
    | .ok _ b => pure b
    | .error f _ => throw f

end Snapshot

namespace CowSnapshot

open Decoder

/-- A level of the image, written into its chunk, which is new. -/
def putLevel (side : Nat) (t : Int) (lvl : Level) : Run (CowBook lm) Unit := do
  let c ← CowBook.lvlChunkForRead side t
  CowBook.setLvl side c (t.tmod LEVEL_CHUNK) lvl

def putOrder (slot : Int) (o : Cell) : Run (CowBook lm) Unit := do
  let c ← CowBook.orderChunkForRead slot
  let oo ← CowBook.offset slot
  CowBook.setCell c oo o

/-- What `restoreCow` reads into a new book, which keeps its own `nLevels`. -/
def message (data : List UInt8) (position : Nat) (cfg : SmrConfig) : Restoring (CowBook lm) Unit := do
  let hwm ← getI32 data (8 + 24)
  let bestBid ← getI32 data (8 + 28)
  let bestAsk ← getI32 data (8 + 32)
  modify fun w => { w with hwm, bestBid, bestAsk }
  let capacity ← getI32 data (8 + 20)
  if capacity ≠ cfg.cap then throw (.err s!"snapshot capacity {capacity} != SMRC_CAP {cfg.cap}")
  let nLevels ← getI32 data (8 + 16)
  if nLevels ≠ cfg.levels then
    throw (.err s!"snapshot nLevels {nLevels} != SMRC_LEVELS {cfg.levels}")
  let freeHead ← getI32 data (8 + 36)
  modify fun w => { w with freeHead }
  Snapshot.groups putLevel putOrder CowBook.rebuildIds data position

/-- `restoreCow`. -/
def restore (lm : Long2LongHashMap) (crc32c : List UInt8 → UInt32) (data : List UInt8)
    (cfg : SmrConfig) : Except Fault (CowBook lm) := do
  let position ← Snapshot.decodeHeader crc32c data
  match newCowBook lm cfg with
  | .error p => throw (.panic p)
  | .ok w =>
    match message data position cfg w with
    | .ok _ w => pure w
    | .error f _ => throw f

end CowSnapshot

end HiPerf.Java
