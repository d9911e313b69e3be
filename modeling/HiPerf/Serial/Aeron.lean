import HiPerf.Serial.Flyweight
import HiPerf.Snapshot.Encode

/-!
The codec of `aeron_sbe` and the generated `journal` under it: the group writes to the
buffer of the message that owns it, and the end of what both have claimed is the message's.
-/

namespace HiPerf.Serial

open Exec Bytes Flyweight

inductive EventType where
  | append
  | snapshot
  | nullVal
  deriving DecidableEq, Repr

def EventType.ofU8 : UInt8 → EventType
  | 0 => append
  | 1 => snapshot
  | _ => nullVal

def EventType.toU8 : EventType → UInt8
  | append => 0
  | snapshot => 1
  | nullVal => 255

namespace Aeron

def putU8 (i : Nat) (v : UInt8) : Run Encoder Unit := Encoder.put i (le 1 v.toNat)

def putI32 (i : Nat) (v : Int32) : Run Encoder Unit := Encoder.put i (le 4 v.toUInt32.toNat)

def putI64 (i : Nat) (v : Int64) : Run Encoder Unit := Encoder.put i (le 8 v.toUInt64.toNat)

def putF64 (i : Nat) (v : UInt64) : Run Encoder Unit := Encoder.put i (le 8 v.toNat)

/-- `header(0)`. -/
def header : Run Encoder Unit := do
  Encoder.putU16 0 SBE_BLOCK_LENGTH
  Encoder.putU16 2 SBE_TEMPLATE_ID
  Encoder.putU16 4 SBE_SCHEMA_ID
  Encoder.putU16 6 SBE_SCHEMA_VERSION

/-- The setters of a message. -/
def putBlock (offset : Nat) (r : JournalRecord) : Run Encoder Unit := do
  putI64 offset r.leadershipTermId
  putI64 (offset + 8) r.logPosition
  putI64 (offset + 16) r.timestamp
  putI64 (offset + 24) r.clusterSessionId
  putI64 (offset + 32) r.correlationId
  putI32 (offset + 40) r.leaderMemberId
  putI32 (offset + 44) r.serviceId
  putU8 (offset + 48) (EventType.ofU8 r.eventType).toU8
  putU8 (offset + 49) r.flags

/-- The setters of a group member. -/
def putMember (offset : Nat) (e : Entry) : Run Encoder Unit := do
  putI64 offset e.entryTermId
  putI64 (offset + 8) e.entryIndex
  putI64 (offset + 16) e.entryTimestamp
  putI32 (offset + 24) e.commandKey
  putI64 (offset + 28) e.cmdQty
  putF64 (offset + 36) e.cmdPrice
  putU8 (offset + 44) (boolU8 e.cmdFlag)

def cmdText (value : List UInt8) : Run Encoder Unit := do
  let limit := (← get).limit
  let dataLength := min value.length 4294967294
  Encoder.setLimit (limit + 4 + dataLength)
  Encoder.putU32 limit dataLength
  Encoder.put (limit + 4) (value.take dataLength)

def putEntry (e : Entry) : Run Encoder Unit := do
  Encoder.advance ENTRIES_BLOCK
  putMember (← get).offset e
  cmdText e.cmdText

/-- `encode_fields`, of the message at `offset`. -/
def encodeFields (offset : Nat) (r : JournalRecord) : Run Encoder Nat := do
  putBlock offset r
  Encoder.groupWrap ENTRIES_BLOCK (r.entries.length % 65536)
  runAll putEntry r.entries
  return (← get).limit

def encodeMessage (r : JournalRecord) : Run Encoder Nat := do
  Encoder.setLimit (HEADER_LEN + SBE_BLOCK_LENGTH)
  header
  encodeFields HEADER_LEN r

/-- `encode`: the buffer and the length of the frame in it. -/
def encode (r : JournalRecord) (buf : List UInt8) : Except Panic (List UInt8 × Nat) :=
  match encodeMessage r ⟨buf, 0, 0, 0, 0⟩ with
  | .ok n e => .ok (e.data, n)
  | .error p _ => .error p

/-- `from_utf8(…).unwrap_or("")`. -/
def utf8OrEmpty (b : List UInt8) : List UInt8 := if b.toByteArray.IsValidUTF8 then b else []

/-- `cmd_text_decoder` and `cmd_text_slice`: the text, and the limit behind it. -/
def cmdTextSlice (buf : List UInt8) (limit : Nat) : Except Panic (List UInt8 × Nat) := do
  let dataLength ← getNat buf limit 4
  let text ← getBytes buf (limit + 4) dataLength
  return (text, limit + 4 + dataLength)

/-- What the loop reads of the member at `offset`. -/
def getEntry (buf : List UInt8) (blockLength offset : Nat) : Except Panic (Entry × Nat) := do
  let entryTermId ← getI64 buf offset
  let entryIndex ← getI64 buf (offset + 8)
  let entryTimestamp ← getI64 buf (offset + 16)
  let commandKey ← getI32 buf (offset + 24)
  let cmdQty ← getI64 buf (offset + 28)
  let cmdPrice ← getF64 buf (offset + 36)
  let cmdFlag ← getU8 buf (offset + 44)
  let (text, limit) ← cmdTextSlice buf (offset + blockLength)
  return ({ entryTermId, entryIndex, entryTimestamp, commandKey, cmdQty, cmdPrice,
            cmdFlag := cmdFlag ≠ 0, cmdText := utf8OrEmpty text }, limit)

/-- The loop over the group, of which `n` members are left. -/
def foldEntries (buf : List UInt8) (blockLength : Nat) :
    Nat → Nat → Checksum → Except Panic Checksum
  | 0, _, c => pure c
  | n + 1, limit, c => do
    let (e, limit) ← getEntry buf blockLength limit
    foldEntries buf blockLength n limit (c.addEntry e)

/-- `decode_checksum`. The event type goes through its enumeration. -/
def decodeChecksum (bytes : List UInt8) : Except Panic Checksum := do
  let actingBlockLength ← getNat bytes 0 2
  let _actingVersion ← getNat bytes 6 2
  let r ← getBlock bytes HEADER_LEN
  let c := Checksum.new.addBlock { r with eventType := (EventType.ofU8 r.eventType).toU8 }
  let limit := HEADER_LEN + actingBlockLength
  let blockLength ← getNat bytes limit 2
  let count ← getNat bytes (limit + 2) 2
  foldEntries bytes blockLength count (limit + 4) c

end Aeron

end HiPerf.Serial
