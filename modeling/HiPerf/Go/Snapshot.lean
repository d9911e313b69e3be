import HiPerf.Go.Book
import HiPerf.Serial.Flyweight
import HiPerf.Snapshot.Restore

/-!
The snapshots of `go/internal/smrcoll/snapshot.go`, over the generated `booksnap`. The
encoder writes into a buffer it keeps, of which it takes as much as the image needs.
-/

namespace HiPerf.Go

open Machine Exec Serial

/-- The setters of the numbers of a book, which the model keeps as integers. -/
def putInt32 (i : Nat) (v : Int) : Run Flyweight Unit := Flyweight.put i (Bytes.le 4 (u32 v))

def putInt64 (i : Nat) (v : Int) : Run Flyweight Unit := Flyweight.put i (Bytes.le 8 (u64 v))

/-- `sideEnum(side)` as it is written. -/
def putSide (i side : Nat) : Run Flyweight Unit := Flyweight.put i (Bytes.le 1 (sideEnum side))

def encodedLength (nLevels nOrders : Nat) : Nat :=
  8 + HiPerf.SBE_BLOCK_LENGTH + 4 + nLevels * LEVELS_BLOCK + 4 + nOrders * ORDERS_BLOCK + 4

/-- The buffer from which `grow` takes its first `n` bytes. -/
def grow (n : Nat) (buf : List UInt8) : List UInt8 :=
  if buf.length < n then List.replicate n 0 else buf

namespace Book

/-- The loop that counts the occupied levels of a lane. -/
def countLane (lane : List PriceLevel) (nLevels : Nat) : Nat :=
  lane.foldl (fun n lvl => if lvl.head ≠ NIL then n + 1 else n) nLevels

def occupied (b : Book) : Nat := countLane b.asks.toList (countLane b.bids.toList 0)

def setScalars (b : Book) : Run Flyweight Unit := do
  putInt64 8 b.priceMin
  putInt64 (8 + 8) b.tick
  Flyweight.putU32 (8 + 16) b.nLevels
  Flyweight.putU32 (8 + 20) (u32 b.pool.size)
  Flyweight.putU32 (8 + 24) b.hwm
  putInt32 (8 + 28) b.bestBid
  putInt32 (8 + 32) b.bestAsk
  Flyweight.putU32 (8 + 36) b.freeHead

def writeLevel (side t : Nat) (lvl : PriceLevel) : Run Flyweight Unit := do
  Flyweight.next LEVELS_BLOCK
  let offset := (← get).offset
  putSide offset side
  Flyweight.putU32 (offset + 1) (u32 t)
  putInt64 (offset + 5) lvl.qtyTotal
  Flyweight.putU32 (offset + 13) lvl.count
  Flyweight.putU32 (offset + 17) lvl.head
  Flyweight.putU32 (offset + 21) lvl.tail

/-- The loop over the levels of a lane, from level `t` on. -/
def writeLane (side : Nat) : Nat → List PriceLevel → Run Flyweight Unit
  | _, [] => pure ()
  | t, lvl :: lane =>
    if lvl.head = NIL then writeLane side (t + 1) lane
    else do
      writeLevel side t lvl
      writeLane side (t + 1) lane

def writeOrder (slot : Nat) (o : Order) : Run Flyweight Unit := do
  Flyweight.next ORDERS_BLOCK
  let offset := (← get).offset
  Flyweight.putU32 offset slot
  putInt64 (offset + 4) o.orderId
  putInt64 (offset + 12) o.price
  putInt64 (offset + 20) o.qty
  putInt64 (offset + 28) o.filled
  putSide (offset + 36) o.side
  Flyweight.putU32 (offset + 37) o.next
  Flyweight.putU32 (offset + 41) o.prev

/-- The loop over the slots from `slot` on, of which `n` are left. -/
def writeOrders (pool : Array Order) (slot : Nat) : Nat → Run Flyweight Unit
  | 0 => pure ()
  | n + 1 => do
    match pool[slot]? with
    | some o => writeOrder slot o
    | none => throw .indexOutOfBounds
    writeOrders pool (slot + 1) n

def write (b : Book) : Run Flyweight Unit := do
  Flyweight.applyHeader HiPerf.SBE_BLOCK_LENGTH HiPerf.SBE_TEMPLATE_ID HiPerf.SBE_SCHEMA_ID
    HiPerf.SBE_SCHEMA_VERSION
  setScalars b
  Flyweight.groupCount LEVELS_BLOCK (u16 b.occupied)
  writeLane 0 0 b.bids.toList
  writeLane 1 0 b.asks.toList
  Flyweight.groupCount ORDERS_BLOCK (u16 b.hwm)
  writeOrders b.pool 0 b.hwm

/-- `seal`: the checksum behind the message, and how much of the buffer the image is. -/
def sealImage (crc32c : List UInt8 → UInt32) : Run Flyweight Nat := do
  let m ← get
  let bodyLength := m.position - 8
  let e := 8 + bodyLength
  if e > m.buffer.length then throw .indexOutOfBounds
  Flyweight.putU32 e (crc32c (m.buffer.take e)).toNat
  return e + 4

/-- `Encode` of a snapshotter whose buffer is `buf`: the image, and the buffer it is in. -/
def encode (crc32c : List UInt8 → UInt32) (b : Book) (buf : List UInt8) :
    Except Panic (List UInt8 × List UInt8) :=
  let n := encodedLength b.occupied b.hwm
  let grown := grow n buf
  match (write b >>= fun _ => sealImage crc32c) ⟨grown.take n, 0, 0, 0, 0⟩ with
  | .ok len m => .ok (m.buffer.take len, m.buffer ++ grown.drop n)
  | .error p _ => .error p

end Book

namespace Snapshot

open Decoder

def check (position sbeLen : Nat) (text : String) : Restoring Book Unit :=
  if position > sbeLen then throw (.panic (.message text)) else pure ()

/-- `WrapForDecode` of the next group: its block length, its count, and where it starts. -/
def wrapGroup (data : List UInt8) (sbeLen position : Nat) : Restoring Book (Nat × Nat × Nat) := do
  check (position + 4) sbeLen "buffer too short for flyweight [E107]"
  let blockLength ← getU16 data position
  let count ← getU16 data (position + 2)
  return (blockLength, count, position + 4)

/-- The loop over the levels of an image, of which `n` are left. -/
def readLevels (data : List UInt8) (sbeLen blockLength : Nat) : Nat → Nat → Restoring Book Nat
  | 0, position => pure position
  | n + 1, position => do
    check (position + blockLength) sbeLen "buffer too short for next group index [E108]"
    let (side, t, lvl) ← getLevel data position
    lift (Book.setLevel side t lvl)
    readLevels data sbeLen blockLength n (position + blockLength)

/-- The loop over the orders of an image, of which `n` are left. -/
def readOrders (data : List UInt8) (sbeLen blockLength : Nat) : Nat → Nat → Restoring Book Nat
  | 0, position => pure position
  | n + 1, position => do
    check (position + blockLength) sbeLen "buffer too short for next group index [E108]"
    let (slot, o) ← getOrder data position
    lift (Book.setOrder slot o)
    readOrders data sbeLen blockLength n (position + blockLength)

/-- What `Restore` reads into a new book. The groups start at `position`. -/
def message (data : List UInt8) (sbeLen position cap : Nat) : Restoring Book Unit := do
  let priceMin ← getI64 data 8
  let tick ← getI64 data (8 + 8)
  let nLevels ← getU32 data (8 + 16)
  let hwm ← getU32 data (8 + 24)
  let bestBid ← getI32 data (8 + 28)
  let bestAsk ← getI32 data (8 + 32)
  modify fun b => { b with priceMin, tick, nLevels, hwm, bestBid, bestAsk }
  let capacity ← getU32 data (8 + 20)
  if capacity ≠ cap then throw (.err s!"snapshot capacity {capacity} != SMRC_CAP {cap}")
  let freeHead ← getU32 data (8 + 36)
  modify fun b => { b with freeHead }
  let (blockLength, count, position) ← wrapGroup data sbeLen position
  let position ← readLevels data sbeLen blockLength count position
  let (blockLength, count, position) ← wrapGroup data sbeLen position
  let _ ← readOrders data sbeLen blockLength count position
  lift Book.rebuildIDs

/-- `decodeHeader`: where the groups of the image start. -/
def decodeHeader (crc32c : List UInt8 → UInt32) (data : List UInt8) : Except Fault Nat := do
  if data.length < 4 then throw (.err "snapshot too short")
  let sbeLen := data.length - 4
  if (crc32c (data.take sbeLen)).toNat ≠ Bytes.unle (data.drop sbeLen) then
    throw (.err "crc32c mismatch")
  if 8 > sbeLen then throw (.panic (.message "buffer too short for flyweight [E107]"))
  let version := Bytes.unle (Bytes.get data 6 2)
  if version ≠ HiPerf.SBE_SCHEMA_VERSION then
    throw (.err s!"unsupported snapshot schema version {version} (expected 2)")
  let position := 8 + Bytes.unle (Bytes.get data 0 2)
  if position > sbeLen then throw (.panic (.message "buffer too short [E100]"))
  return position

/-- `Restore`. -/
def restore (crc32c : List UInt8 → UInt32) (data : List UInt8) (cfg : SmrConfig) :
    Except Fault Book := do
  let position ← decodeHeader crc32c data
  match newBook cfg with
  | none => throw (.panic Book.endless)
  | some b =>
    match message data (data.length - 4) position cfg.cap b with
    | .ok _ b => pure b
    | .error f _ => throw f

end Snapshot

end HiPerf.Go
