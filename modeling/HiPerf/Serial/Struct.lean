import HiPerf.Lib.Along
import HiPerf.Serial.Frame

/-!
The struct codec of `sbe_struct.go` and the generated `journalsbestruct` under it. It
streams: a write copies what there is room for, a read takes what there is, and an error
ends the message. `Encode` and `DecodeChecksum` drop the errors.
-/

namespace HiPerf.Serial

open Exec Bytes

structure SbeEntry where
  entryTermId : Int64
  entryIndex : Int64
  entryTimestamp : Int64
  commandKey : Int32
  cmdQty : Int64
  cmdPrice : UInt64
  cmdFlag : UInt8
  cmdText : List UInt8

structure SbeRecord where
  leadershipTermId : Int64
  logPosition : Int64
  timestamp : Int64
  clusterSessionId : Int64
  correlationId : Int64
  leaderMemberId : Int32
  serviceId : Int32
  eventType : UInt8
  flags : UInt8
  entries : List SbeEntry

structure MessageHeader where
  blockLength : Nat
  templateId : Nat
  schemaId : Nat
  version : Nat

/-- A struct as `make` and `var` leave it. -/
def SbeEntry.zero : SbeEntry := ⟨0, 0, 0, 0, 0, 0, 0, []⟩

def SbeRecord.zero : SbeRecord := ⟨0, 0, 0, 0, 0, 0, 0, 0, 0, []⟩

def MessageHeader.zero : MessageHeader := ⟨0, 0, 0, 0⟩

def Entry.toSbe (e : Entry) : SbeEntry where
  entryTermId := e.entryTermId
  entryIndex := e.entryIndex
  entryTimestamp := e.entryTimestamp
  commandKey := e.commandKey
  cmdQty := e.cmdQty
  cmdPrice := e.cmdPrice
  cmdFlag := boolU8 e.cmdFlag
  cmdText := e.cmdText

def toSBEStruct (r : JournalRecord) : SbeRecord where
  leadershipTermId := r.leadershipTermId
  logPosition := r.logPosition
  timestamp := r.timestamp
  clusterSessionId := r.clusterSessionId
  correlationId := r.correlationId
  leaderMemberId := r.leaderMemberId
  serviceId := r.serviceId
  eventType := r.eventType
  flags := r.flags
  entries := r.entries.map Entry.toSbe

/-- Why a stream ends: a short write, or too little to read. -/
inductive StreamError where
  | shortWrite
  | eof

structure SliceWriter where
  b : List UInt8
  n : Nat

namespace SliceWriter

abbrev Write := EStateM StreamError SliceWriter Unit

def write (p : List UInt8) : Write := fun w =>
  let c := min (w.b.length - w.n) p.length
  let w' := { b := Bytes.put w.b w.n (p.take c), n := w.n + c : SliceWriter }
  if c < p.length then .error .shortWrite w' else .ok () w'

def writeU8 (v : UInt8) : Write := write (le 1 v.toNat)

def writeU16 (v : Nat) : Write := write (le 2 v)

def writeU32 (v : Nat) : Write := write (le 4 v)

def writeI32 (v : Int32) : Write := write (le 4 v.toUInt32.toNat)

def writeI64 (v : Int64) : Write := write (le 8 v.toUInt64.toNat)

def writeF64 (v : UInt64) : Write := write (le 8 v.toNat)

def header (h : MessageHeader) : Write := do
  writeU16 h.blockLength
  writeU16 h.templateId
  writeU16 h.schemaId
  writeU16 h.version

def entry (e : SbeEntry) : Write := do
  writeI64 e.entryTermId
  writeI64 e.entryIndex
  writeI64 e.entryTimestamp
  writeI32 e.commandKey
  writeI64 e.cmdQty
  writeF64 e.cmdPrice
  writeU8 e.cmdFlag
  writeU32 e.cmdText.length
  write e.cmdText

/-- `Encode` of a record, without the range check. -/
def record (r : SbeRecord) : Write := do
  writeI64 r.leadershipTermId
  writeI64 r.logPosition
  writeI64 r.timestamp
  writeI64 r.clusterSessionId
  writeI64 r.correlationId
  writeI32 r.leaderMemberId
  writeI32 r.serviceId
  writeU8 r.eventType
  writeU8 r.flags
  writeU16 ENTRIES_BLOCK
  writeU16 r.entries.length
  runAll entry r.entries

end SliceWriter

/-- What is left to read, and the struct that is filled. -/
structure Reader (σ : Type) where
  rest : List UInt8
  msg : σ

namespace Reader

variable {σ : Type}

abbrev Read (σ α : Type) := EStateM StreamError (Reader σ) α

/-- `io.ReadFull` of `k` bytes; what is too short is used up. -/
def readFull (k : Nat) : Read σ (List UInt8) := fun s =>
  if k ≤ s.rest.length then .ok (s.rest.take k) { s with rest := s.rest.drop k }
  else .error .eof { s with rest := [] }

/-- Read a number of `w` bytes into a field. -/
def field (w : Nat) (store : Nat → σ → σ) : Read σ Unit := do
  let b ← readFull w
  modify fun s => { s with msg := store (unle b) s.msg }

def readU8 (store : UInt8 → σ → σ) : Read σ Unit := field 1 fun n => store (UInt8.ofNat n)

def readU16 (store : Nat → σ → σ) : Read σ Unit := field 2 store

def readI32 (store : Int32 → σ → σ) : Read σ Unit := field 4 fun n => store (UInt32.ofNat n).toInt32

def readI64 (store : Int64 → σ → σ) : Read σ Unit := field 8 fun n => store (UInt64.ofNat n).toInt64

def readF64 (store : UInt64 → σ → σ) : Read σ Unit := field 8 fun n => store (UInt64.ofNat n)

/-- `ReadBytes` into a slice of `n` zeros, which keeps what there was to read. -/
def readBytes (n : Nat) (store : List UInt8 → σ → σ) : Read σ Unit := fun s =>
  if n ≤ s.rest.length then .ok () ⟨s.rest.drop n, store (s.rest.take n) s.msg⟩
  else .error .eof ⟨[], store (s.rest ++ List.replicate (n - s.rest.length) 0) s.msg⟩

/-- `io.CopyN` to nowhere, for a block of a later version. -/
def discard (actingVersion blockLength known : Nat) : Read σ Unit :=
  if actingVersion > SBE_SCHEMA_VERSION ∧ blockLength > known then
    modify fun s => { s with rest := s.rest.drop (blockLength - known) }
  else pure ()

def header : Read MessageHeader Unit := do
  readU16 fun v h => { h with blockLength := v }
  readU16 fun v h => { h with templateId := v }
  readU16 fun v h => { h with schemaId := v }
  readU16 fun v h => { h with version := v }

/-- The fields of an entry; all are of version 0, so none is left out. -/
def entryBlock : Read SbeEntry Unit := do
  readI64 fun v e => { e with entryTermId := v }
  readI64 fun v e => { e with entryIndex := v }
  readI64 fun v e => { e with entryTimestamp := v }
  readI32 fun v e => { e with commandKey := v }
  readI64 fun v e => { e with cmdQty := v }
  readF64 fun v e => { e with cmdPrice := v }
  readU8 fun v e => { e with cmdFlag := v }

def entry (actingVersion blockLength : Nat) : Read SbeEntry Unit := do
  entryBlock
  discard actingVersion blockLength ENTRIES_BLOCK
  let cmdTextLength := unle (← readFull 4)
  readBytes cmdTextLength fun b e => { e with cmdText := b }

/-- The loop over the entries, of which `n` are left. Behind one that cannot be read they
stay as they were made. -/
def entries (actingVersion blockLength : Nat) : Nat → List UInt8 → List SbeEntry
  | 0, _ => []
  | n + 1, rest =>
    match entry actingVersion blockLength ⟨rest, SbeEntry.zero⟩ with
    | .ok _ s => s.msg :: entries actingVersion blockLength n s.rest
    | .error _ s => s.msg :: List.replicate n SbeEntry.zero

def recordBlock : Read SbeRecord Unit := do
  readI64 fun v r => { r with leadershipTermId := v }
  readI64 fun v r => { r with logPosition := v }
  readI64 fun v r => { r with timestamp := v }
  readI64 fun v r => { r with clusterSessionId := v }
  readI64 fun v r => { r with correlationId := v }
  readI32 fun v r => { r with leaderMemberId := v }
  readI32 fun v r => { r with serviceId := v }
  readU8 fun v r => { r with eventType := v }
  readU8 fun v r => { r with flags := v }

/-- `Decode` of a record, without the range check. -/
def record (actingVersion blockLength : Nat) : Read SbeRecord Unit := do
  recordBlock
  discard actingVersion blockLength SBE_BLOCK_LENGTH
  let entriesBlockLength := unle (← readFull 2)
  let entriesNumInGroup := unle (← readFull 2)
  modify fun s => { s with
    msg := { s.msg with
      entries := entries actingVersion entriesBlockLength entriesNumInGroup s.rest } }

end Reader

namespace SBEStructCodec

/-- `Encode`: the buffer and how much of it was written. -/
def encode (msg : SbeRecord) (scratch : List UInt8) : List UInt8 × Nat :=
  let hdr := ⟨SBE_BLOCK_LENGTH, SBE_TEMPLATE_ID, SBE_SCHEMA_ID, SBE_SCHEMA_VERSION⟩
  let w := last (SliceWriter.header hdr) ⟨scratch, 0⟩
  let w := last (SliceWriter.record msg) w
  (w.b, w.n)

def addEntry (c : Checksum) (e : SbeEntry) : Checksum :=
  let c := c.addI64 e.entryTermId
  let c := c.addI64 e.entryIndex
  let c := c.addI64 e.entryTimestamp
  let c := c.addI32 e.commandKey
  let c := c.addI64 e.cmdQty
  let c := c.addF64 e.cmdPrice
  let c := c.addBool (e.cmdFlag ≠ 0)
  c.addStr e.cmdText

def checksum (r : SbeRecord) : Checksum :=
  let c := Checksum.new
  let c := c.addI64 r.leadershipTermId
  let c := c.addI64 r.logPosition
  let c := c.addI64 r.timestamp
  let c := c.addI64 r.clusterSessionId
  let c := c.addI64 r.correlationId
  let c := c.addI32 r.leaderMemberId
  let c := c.addI32 r.serviceId
  let c := c.addU8 r.eventType
  let c := c.addU8 r.flags
  r.entries.foldl addEntry c

def decodeChecksum (frame : List UInt8) : Checksum :=
  let hdr := last Reader.header ⟨frame, MessageHeader.zero⟩
  let rd := last (Reader.record hdr.msg.version hdr.msg.blockLength) ⟨hdr.rest, SbeRecord.zero⟩
  checksum rd.msg

/-- What was encoded is measured whole. -/
def Sound (r : JournalRecord) (scratch : List UInt8) : Prop :=
  let (buf, n) := encode (toSBEStruct r) scratch
  decodeChecksum (buf.take n) = checksumRecord r

end SBEStructCodec

end HiPerf.Serial
