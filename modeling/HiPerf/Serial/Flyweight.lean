import HiPerf.Book.Model
import HiPerf.Serial.Frame

/-!
The flyweight codec of `sbe.go` and the generated `journalsbe` under it. The message and
its group share one position; every move of it is checked against the buffer, which is
shorter than 2⁶³ bytes, so that no position wraps.
-/

namespace HiPerf.Serial

open Exec Bytes

/-- A message being written, and the group it is in. -/
structure Flyweight where
  buffer : List UInt8
  position : Nat
  count : Nat
  index : Nat
  offset : Nat

namespace Flyweight

/-- `Put…LittleEndian(m.buffer[i:], …)`. -/
def put (i : Nat) (b : List UInt8) : Run Flyweight Unit := fun m =>
  if i + b.length ≤ m.buffer.length then .ok () { m with buffer := Bytes.put m.buffer i b }
  else .error .indexOutOfBounds m

def putU8 (i : Nat) (v : UInt8) : Run Flyweight Unit := put i (le 1 v.toNat)

def putU16 (i v : Nat) : Run Flyweight Unit := put i (le 2 v)

def putU32 (i v : Nat) : Run Flyweight Unit := put i (le 4 v)

def putI32 (i : Nat) (v : Int32) : Run Flyweight Unit := put i (le 4 v.toUInt32.toNat)

def putI64 (i : Nat) (v : Int64) : Run Flyweight Unit := put i (le 8 v.toUInt64.toNat)

def putF64 (i : Nat) (v : UInt64) : Run Flyweight Unit := put i (le 8 v.toNat)

/-- `copy(m.buffer[i:], src)`, of as much as there is room for. -/
def copy (i : Nat) (src : List UInt8) : Run Flyweight Unit := fun m =>
  if i ≤ m.buffer.length then
    .ok () { m with buffer := Bytes.put m.buffer i (src.take (m.buffer.length - i)) }
  else .error .indexOutOfBounds m

def panicIf (c : Prop) [Decidable c] (text : String) : Run Flyweight Unit :=
  if c then throw (.message text) else pure ()

def setPosition (position : Nat) : Run Flyweight Unit := do
  panicIf (position > (← get).buffer.length) "buffer too short [E100]"
  modify fun m => { m with position }

/-- The bounds check of `Wrap` of a header of `len` bytes. -/
def wrap (offset len : Nat) : Run Flyweight Unit := do
  panicIf (offset + len > (← get).buffer.length) "buffer too short for flyweight [E107]"

/-- The setters of a message header. -/
def setHeader (blockLength templateId schemaId version : Nat) : Run Flyweight Unit := do
  putU16 0 blockLength
  putU16 2 templateId
  putU16 4 schemaId
  putU16 6 version

/-- `WrapAndApplyHeader` of a message of the given schema. -/
def applyHeader (blockLength templateId schemaId version : Nat) : Run Flyweight Unit := do
  wrap 0 HEADER_LEN
  setHeader blockLength templateId schemaId version
  setPosition (HEADER_LEN + blockLength)

def wrapAndApplyHeader : Run Flyweight Unit :=
  applyHeader SBE_BLOCK_LENGTH SBE_TEMPLATE_ID SBE_SCHEMA_ID SBE_SCHEMA_VERSION

/-- The setters of a message. -/
def setBlock (offset : Nat) (r : JournalRecord) : Run Flyweight Unit := do
  putI64 offset r.leadershipTermId
  putI64 (offset + 8) r.logPosition
  putI64 (offset + 16) r.timestamp
  putI64 (offset + 24) r.clusterSessionId
  putI64 (offset + 32) r.correlationId
  putI32 (offset + 40) r.leaderMemberId
  putI32 (offset + 44) r.serviceId
  putU8 (offset + 48) r.eventType
  putU8 (offset + 49) r.flags

/-- The setters of a group header. -/
def setDimensions (pos blockLength count : Nat) : Run Flyweight Unit := do
  putU16 pos blockLength
  putU16 (pos + 2) count

/-- `WrapForEncode` of a group, of a count of 16 bits. -/
def groupCount (blockLength count : Nat) : Run Flyweight Unit := do
  panicIf (count > 65534) "count outside of allowed range [E110]"
  let pos := (← get).position
  wrap pos 4
  setDimensions pos blockLength count
  modify fun m => { m with index := 0, count, position := pos + 4 }

def entriesCount (count : Nat) : Run Flyweight Unit := groupCount ENTRIES_BLOCK count

/-- `Next` of a group. -/
def next (blockLength : Nat) : Run Flyweight Unit := do
  let m ← get
  panicIf (m.index ≥ m.count) "index >= count [E108]"
  panicIf (m.position + blockLength > m.buffer.length)
    "buffer too short for next group index [E108]"
  set { m with offset := m.position, position := m.position + blockLength, index := m.index + 1 }

def setEntry (offset : Nat) (e : Entry) : Run Flyweight Unit := do
  putI64 offset e.entryTermId
  putI64 (offset + 8) e.entryIndex
  putI64 (offset + 16) e.entryTimestamp
  putI32 (offset + 24) e.commandKey
  putI64 (offset + 28) e.cmdQty
  putF64 (offset + 36) e.cmdPrice
  putU8 (offset + 44) (boolU8 e.cmdFlag)

def putCmdText (str : List UInt8) : Run Flyweight Unit := do
  panicIf (str.length > 1073741824) "string too long for length type [E109]"
  let lengthPosition := (← get).position
  setPosition (lengthPosition + 4)
  putU32 lengthPosition str.length
  if str.length ≠ 0 then
    let pos := (← get).position
    setPosition (pos + str.length)
    copy pos str

def putEntry (e : Entry) : Run Flyweight Unit := do
  next ENTRIES_BLOCK
  setEntry (← get).offset e
  putCmdText e.cmdText

/-- What is in front of the entries. -/
def putHead (r : JournalRecord) : Run Flyweight Unit := do
  wrapAndApplyHeader
  setBlock HEADER_LEN r
  entriesCount (r.entries.length % 65536)

def putRecord (r : JournalRecord) : Run Flyweight Nat := do
  putHead r
  runAll putEntry r.entries
  return HEADER_LEN + ((← get).position - HEADER_LEN)

def getBytes (buf : List UInt8) (i k : Nat) : Except Panic (List UInt8) :=
  if i + k ≤ buf.length then pure (Bytes.get buf i k) else throw .indexOutOfBounds

def getNat (buf : List UInt8) (i k : Nat) : Except Panic Nat := unle <$> getBytes buf i k

def getU8 (buf : List UInt8) (i : Nat) : Except Panic UInt8 := UInt8.ofNat <$> getNat buf i 1

def getI32 (buf : List UInt8) (i : Nat) : Except Panic Int32 :=
  (fun n => (UInt32.ofNat n).toInt32) <$> getNat buf i 4

def getI64 (buf : List UInt8) (i : Nat) : Except Panic Int64 :=
  (fun n => (UInt64.ofNat n).toInt64) <$> getNat buf i 8

def getF64 (buf : List UInt8) (i : Nat) : Except Panic UInt64 := UInt64.ofNat <$> getNat buf i 8

def check (buf : List UInt8) (position : Nat) (text : String) : Except Panic Unit :=
  if position > buf.length then throw (.message text) else pure ()

/-- The getters of a message, whose entries are still to be read. -/
def getBlock (buf : List UInt8) (offset : Nat) : Except Panic JournalRecord := do
  let leadershipTermId ← getI64 buf offset
  let logPosition ← getI64 buf (offset + 8)
  let timestamp ← getI64 buf (offset + 16)
  let clusterSessionId ← getI64 buf (offset + 24)
  let correlationId ← getI64 buf (offset + 32)
  let leaderMemberId ← getI32 buf (offset + 40)
  let serviceId ← getI32 buf (offset + 44)
  let eventType ← getU8 buf (offset + 48)
  let flags ← getU8 buf (offset + 49)
  return { leadershipTermId, logPosition, timestamp, clusterSessionId, correlationId,
           leaderMemberId, serviceId, eventType, flags, entries := [] }

/-- The size of `SBECodec.cmd`. -/
def CMD_LEN : Nat := 65536

/-- `GetCmdText` into a buffer of `CMD_LEN` bytes: the text that was copied, and the position
behind it. -/
def getCmdText (buf : List UInt8) (lengthPosition : Nat) : Except Panic (List UInt8 × Nat) := do
  check buf (lengthPosition + 4) "buffer too short [E100]"
  let dataLength ← getNat buf lengthPosition 4
  let bytesToCopy := if CMD_LEN < dataLength then CMD_LEN else dataLength
  let pos := lengthPosition + 4
  check buf (pos + dataLength) "buffer too short [E100]"
  let cmd ← getBytes buf pos bytesToCopy
  return (cmd, pos + dataLength)

/-- The next entry, which starts at `offset`. -/
def getEntry (buf : List UInt8) (blockLength offset : Nat) : Except Panic (Entry × Nat) := do
  check buf (offset + blockLength) "buffer too short for next group index [E108]"
  let entryTermId ← getI64 buf offset
  let entryIndex ← getI64 buf (offset + 8)
  let entryTimestamp ← getI64 buf (offset + 16)
  let commandKey ← getI32 buf (offset + 24)
  let cmdQty ← getI64 buf (offset + 28)
  let cmdPrice ← getF64 buf (offset + 36)
  let cmdFlag ← getU8 buf (offset + 44)
  let (cmdText, position) ← getCmdText buf (offset + blockLength)
  return ({ entryTermId, entryIndex, entryTimestamp, commandKey, cmdQty, cmdPrice,
            cmdFlag := cmdFlag ≠ 0, cmdText }, position)

/-- The loop over the group, of which `n` entries are left. -/
def foldEntries (buf : List UInt8) (blockLength : Nat) :
    Nat → Nat → Checksum → Except Panic Checksum
  | 0, _, ck => pure ck
  | n + 1, position, ck => do
    let (e, position) ← getEntry buf blockLength position
    foldEntries buf blockLength n position (ck.addEntry e)

end Flyweight

namespace SBECodec

open Flyweight

/-- `Encode`: the buffer and the length of the frame in it. -/
def encode (r : JournalRecord) (scratch : List UInt8) : Except Panic (List UInt8 × Nat) :=
  match putRecord r ⟨scratch, 0, 0, 0, 0⟩ with
  | .ok n m => .ok (m.buffer, n)
  | .error p _ => .error p

def decodeChecksum (frame : List UInt8) : Except Panic Checksum := do
  check frame HEADER_LEN "buffer too short for flyweight [E107]"
  let actingBlockLength ← getNat frame 0 2
  let _actingVersion ← getNat frame 6 2
  let position := HEADER_LEN + actingBlockLength
  check frame position "buffer too short [E100]"
  let r ← getBlock frame HEADER_LEN
  check frame (position + 4) "buffer too short for flyweight [E107]"
  let blockLength ← getNat frame position 2
  let count ← getNat frame (position + 2) 2
  foldEntries frame blockLength count (position + 4) (Checksum.new.addBlock r)

/-- No frame is measured that lost something. -/
def Sound (r : JournalRecord) (scratch : List UInt8) : Prop :=
  match encode r scratch with
  | .ok (buf, n) => decodeChecksum (buf.take n) = .ok (checksumRecord r)
  | .error _ => True

end SBECodec

end HiPerf.Serial
