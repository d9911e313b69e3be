import HiPerf.Go.Cow
import HiPerf.Go.Snapshot

/-!
The snapshots of `go/internal/smrcoll/cowsnapshot.go`: a root is encoded while its book goes on
in `w`, whose chunks it shares, and an image is restored through `orderMut` and `levelMut`.
-/

namespace HiPerf.Go

open Machine Exec Epoch Serial

namespace CowRoot

def laneAt (r : CowRoot) (side : Nat) : Array Nat := if side = 1 then r.askChunks else r.bidChunks

/-- `*r.LevelAt(side, t)`. -/
def level (r : CowRoot) (w : CowBook) (side t : Nat) : Option PriceLevel :=
  Epoch.get (if side = 1 then w.asks.heap else w.bids.heap) (r.laneAt side) LEVEL_CHUNK t

/-- `*r.OrderAt(slot)`. -/
def order (r : CowRoot) (w : CowBook) (slot : Nat) : Option Order :=
  Epoch.get w.orders.heap r.orderChunks r.chunk slot

/-- The loop that counts the occupied levels of a lane, from level `t` on, of which `n` are left. -/
def countLane (r : CowRoot) (w : CowBook) (side t : Nat) : Nat → Nat → Except Panic Nat
  | 0, nLevels => return nLevels
  | n + 1, nLevels =>
    match r.level w side t with
    | some lvl => countLane r w side (t + 1) n (if lvl.head ≠ NIL then nLevels + 1 else nLevels)
    | none => throw .indexOutOfBounds

def occupied (r : CowRoot) (w : CowBook) : Except Panic Nat := do
  let nLevels ← r.countLane w 0 0 r.nLevels 0
  r.countLane w 1 0 r.nLevels nLevels

def setScalars (r : CowRoot) : Run Flyweight Unit := do
  putInt64 8 r.priceMin
  putInt64 (8 + 8) r.tick
  Flyweight.putU32 (8 + 16) r.nLevels
  Flyweight.putU32 (8 + 20) r.capacity
  Flyweight.putU32 (8 + 24) r.hwm
  putInt32 (8 + 28) r.bestBid
  putInt32 (8 + 32) r.bestAsk
  Flyweight.putU32 (8 + 36) r.freeHead

/-- The loop over the levels of a lane, from level `t` on, of which `n` are left. -/
def writeLane (r : CowRoot) (w : CowBook) (side t : Nat) : Nat → Run Flyweight Unit
  | 0 => pure ()
  | n + 1 =>
    match r.level w side t with
    | some lvl =>
      if lvl.head = NIL then writeLane r w side (t + 1) n
      else do
        Book.writeLevel side t lvl
        writeLane r w side (t + 1) n
    | none => throw .indexOutOfBounds

/-- The loop over the slots from `slot` on, of which `n` are left. -/
def writeOrders (r : CowRoot) (w : CowBook) (slot : Nat) : Nat → Run Flyweight Unit
  | 0 => pure ()
  | n + 1 => do
    match r.order w slot with
    | some o => Book.writeOrder slot o
    | none => throw .indexOutOfBounds
    writeOrders r w (slot + 1) n

def write (r : CowRoot) (w : CowBook) (nLevels : Nat) : Run Flyweight Unit := do
  Flyweight.applyHeader HiPerf.SBE_BLOCK_LENGTH HiPerf.SBE_TEMPLATE_ID HiPerf.SBE_SCHEMA_ID
    HiPerf.SBE_SCHEMA_VERSION
  r.setScalars
  Flyweight.groupCount LEVELS_BLOCK (u16 nLevels)
  r.writeLane w 0 0 r.nLevels
  r.writeLane w 1 0 r.nLevels
  Flyweight.groupCount ORDERS_BLOCK (u16 r.hwm)
  r.writeOrders w 0 r.hwm

/-- `EncodeRoot` of a snapshotter whose buffer is `buf`. -/
def encode (crc32c : List UInt8 → UInt32) (r : CowRoot) (w : CowBook) (buf : List UInt8) :
    Except Panic (List UInt8 × List UInt8) := do
  let nLevels ← r.occupied w
  let n := encodedLength nLevels r.hwm
  let grown := grow n buf
  match (r.write w nLevels >>= fun _ => Book.sealImage crc32c) ⟨grown.take n, 0, 0, 0, 0⟩ with
  | .ok len m => .ok (m.buffer.take len, m.buffer ++ grown.drop n)
  | .error p _ => .error p

end CowRoot

namespace CowSnapshot

open Decoder

def check (position sbeLen : Nat) (text : String) : Restoring CowBook Unit :=
  if position > sbeLen then throw (.panic (.message text)) else pure ()

def wrapGroup (data : List UInt8) (sbeLen position : Nat) :
    Restoring CowBook (Nat × Nat × Nat) := do
  check (position + 4) sbeLen "buffer too short for flyweight [E107]"
  let blockLength ← getU16 data position
  let count ← getU16 data (position + 2)
  return (blockLength, count, position + 4)

/-- A level of the image, written through the pointer `levelMut` returns. -/
def putLevel (side t : Nat) (level : PriceLevel) : Run CowBook Unit := do
  let lvl ← CowBook.levelMut side t
  CowBook.storeLevel side lvl level

def putOrder (slot : Nat) (order : Order) : Run CowBook Unit := do
  let o ← CowBook.orderMut slot
  CowBook.store o order

def readLevels (data : List UInt8) (sbeLen blockLength : Nat) : Nat → Nat → Restoring CowBook Nat
  | 0, position => pure position
  | n + 1, position => do
    check (position + blockLength) sbeLen "buffer too short for next group index [E108]"
    let (side, t, lvl) ← getLevel data position
    lift (putLevel side t lvl)
    readLevels data sbeLen blockLength n (position + blockLength)

def readOrders (data : List UInt8) (sbeLen blockLength : Nat) : Nat → Nat → Restoring CowBook Nat
  | 0, position => pure position
  | n + 1, position => do
    check (position + blockLength) sbeLen "buffer too short for next group index [E108]"
    let (slot, o) ← getOrder data position
    lift (putOrder slot o)
    readOrders data sbeLen blockLength n (position + blockLength)

/-- What `RestoreCow` reads into a new book. The groups start at `position`. -/
def message (data : List UInt8) (sbeLen position cap : Nat) : Restoring CowBook Unit := do
  let priceMin ← getI64 data 8
  let tick ← getI64 data (8 + 8)
  let nLevels ← getU32 data (8 + 16)
  let hwm ← getU32 data (8 + 24)
  let bestBid ← getI32 data (8 + 28)
  let bestAsk ← getI32 data (8 + 32)
  modify fun w => { w with priceMin, tick, nLevels, hwm, bestBid, bestAsk }
  let capacity ← getU32 data (8 + 20)
  if capacity ≠ cap then throw (.err s!"snapshot capacity {capacity} != SMRC_CAP {cap}")
  let freeHead ← getU32 data (8 + 36)
  modify fun w => { w with freeHead }
  let (blockLength, count, position) ← wrapGroup data sbeLen position
  let position ← readLevels data sbeLen blockLength count position
  let (blockLength, count, position) ← wrapGroup data sbeLen position
  let _ ← readOrders data sbeLen blockLength count position
  lift CowBook.rebuildIDs

/-- `RestoreCow`. -/
def restore (crc32c : List UInt8 → UInt32) (data : List UInt8) (cfg : SmrConfig) :
    Except Fault CowBook := do
  let position ← Snapshot.decodeHeader crc32c data
  match newCowBook cfg with
  | .error p => throw (.panic p)
  | .ok w =>
    match message data (data.length - 4) position cfg.cap w with
    | .ok _ w => pure w
    | .error f _ => throw f

end CowSnapshot

end HiPerf.Go
