import HiPerf.Lib.Bytes

/-!
The journal records of `serialization/common` and of `serjournal.go`: their fields, the
two builders that make one from an index, and the checksum that folds every field.
-/

namespace HiPerf.Serial

/-- A group member: the price as the bits of a double, the text as its bytes. -/
structure Entry where
  entryTermId : Int64
  entryIndex : Int64
  entryTimestamp : Int64
  commandKey : Int32
  cmdQty : Int64
  cmdPrice : UInt64
  cmdFlag : Bool
  cmdText : List UInt8
  deriving DecidableEq

structure JournalRecord where
  leadershipTermId : Int64
  logPosition : Int64
  timestamp : Int64
  clusterSessionId : Int64
  correlationId : Int64
  leaderMemberId : Int32
  serviceId : Int32
  eventType : UInt8
  flags : UInt8
  entries : List Entry
  deriving DecidableEq

def mix (x : UInt64) : UInt64 :=
  let z := x + 0x9E3779B97F4A7C15
  let z := (z ^^^ (z >>> 30)) * 0xBF58476D1CE4E5B9
  let z := (z ^^^ (z >>> 27)) * 0x94D049BB133111EB
  z ^^^ (z >>> 31)

namespace Rust

/-- The text is built of characters, each pushed as its UTF-8 bytes. -/
def cmdText (t : UInt64) (textLen : Nat) : List UInt8 :=
  (List.range textLen).flatMap fun i =>
    String.utf8EncodeChar (Char.ofUInt8 (0x20 + (t >>> UInt64.ofNat (i % 8 * 8)).toUInt8 % 95))

def entry (index h : UInt64) (entries textLen : Nat) (k : UInt64) : Entry :=
  let e := mix (h ^^^ (k * 0x100000001B3))
  let cmdQty := (mix e).toInt64
  let cmdPrice := ((mix (e ^^^ 0xF0) >>> 11).toFloat * 3.0517578125e-5).toBits
  let cmdFlag := mix (e ^^^ 0x0F) &&& 1 == 1
  let t := mix (e ^^^ 0xAA)
  { entryTermId := e.toInt64
    entryIndex := (index * UInt64.ofNat entries + k).toInt64
    entryTimestamp := (mix e).toInt64
    commandKey := (e >>> 32).toUInt32.toInt32
    cmdQty, cmdPrice, cmdFlag
    cmdText := cmdText t textLen }

/-- `build_record`. -/
def buildRecord (index : UInt64) (entries textLen : Nat) : JournalRecord :=
  let h := mix index
  let group := (List.range entries).map fun k => entry index h entries textLen (UInt64.ofNat k)
  { leadershipTermId := h.toInt64
    logPosition := index.toInt64 <<< 8
    timestamp := (mix h).toInt64
    clusterSessionId := (h >>> 16).toInt64
    correlationId := (mix (h ^^^ 0xABCD)).toInt64
    leaderMemberId := (h >>> 8).toUInt32.toInt32
    serviceId := (h >>> 24).toUInt32.toInt32
    eventType := (h &&& 1).toUInt8
    flags := (h >>> 1).toUInt8
    entries := group }

end Rust

namespace Go

def cmdText (t : UInt64) (textLen : Nat) : List UInt8 :=
  (List.range textLen).map fun i => 0x20 + (t >>> UInt64.ofNat (i % 8 * 8)).toUInt8 % 95

def entry (index h : UInt64) (entries textLen : Nat) (k : UInt64) : Entry :=
  let e := mix (h ^^^ (k * 0x100000001B3))
  let t := mix (e ^^^ 0xAA)
  { entryTermId := e.toInt64
    entryIndex := (index * UInt64.ofNat entries + k).toInt64
    entryTimestamp := (mix e).toInt64
    commandKey := (e >>> 32).toUInt32.toInt32
    cmdQty := (mix e).toInt64
    cmdPrice := ((mix (e ^^^ 0xF0) >>> 11).toFloat * 3.0517578125e-5).toBits
    cmdFlag := mix (e ^^^ 0x0F) &&& 1 == 1
    cmdText := cmdText t textLen }

/-- `BuildRecord`. -/
def buildRecord (index : UInt64) (entries textLen : Nat) : JournalRecord :=
  let h := mix index
  let group := (List.range entries).map fun k => entry index h entries textLen (UInt64.ofNat k)
  { leadershipTermId := h.toInt64
    logPosition := index.toInt64 <<< 8
    timestamp := (mix h).toInt64
    clusterSessionId := (h >>> 16).toInt64
    correlationId := (mix (h ^^^ 0xABCD)).toInt64
    leaderMemberId := (h >>> 8).toUInt32.toInt32
    serviceId := (h >>> 24).toUInt32.toInt32
    eventType := (h &&& 1).toUInt8
    flags := (h >>> 1).toUInt8
    entries := group }

end Go

abbrev Checksum := UInt64

namespace Checksum

/-- The FNV-1a offset basis. -/
def new : Checksum := 0xcbf29ce484222325

def step (c : Checksum) (v : UInt64) : Checksum := (c ^^^ v) * 0x100000001B3

def addI64 (c : Checksum) (v : Int64) : Checksum := step c v.toUInt64

def addI32 (c : Checksum) (v : Int32) : Checksum := step c v.toUInt32.toUInt64

def addU8 (c : Checksum) (v : UInt8) : Checksum := step c v.toUInt64

/-- `add_f64`, of the bits. -/
def addF64 (c : Checksum) (v : UInt64) : Checksum := step c v

def addBool (c : Checksum) (v : Bool) : Checksum := step c (if v then 1 else 0)

/-- `add_str`, of the bytes. -/
def addStr (c : Checksum) (b : List UInt8) : Checksum :=
  b.foldl (fun c x => step c x.toUInt64) (step c (UInt64.ofNat b.length))

def addEntry (c : Checksum) (e : Entry) : Checksum :=
  let c := addI64 c e.entryTermId
  let c := addI64 c e.entryIndex
  let c := addI64 c e.entryTimestamp
  let c := addI32 c e.commandKey
  let c := addI64 c e.cmdQty
  let c := addF64 c e.cmdPrice
  let c := addBool c e.cmdFlag
  addStr c e.cmdText

/-- The fields before the group. -/
def addBlock (c : Checksum) (r : JournalRecord) : Checksum :=
  let c := addI64 c r.leadershipTermId
  let c := addI64 c r.logPosition
  let c := addI64 c r.timestamp
  let c := addI64 c r.clusterSessionId
  let c := addI64 c r.correlationId
  let c := addI32 c r.leaderMemberId
  let c := addI32 c r.serviceId
  let c := addU8 c r.eventType
  addU8 c r.flags

end Checksum

/-- `checksum_record`, `ChecksumRecord`. -/
def checksumRecord (r : JournalRecord) : Checksum :=
  r.entries.foldl Checksum.addEntry (Checksum.new.addBlock r)

/-- A byte below 128 is its own UTF-8. -/
theorem utf8EncodeChar_ofUInt8 {b : UInt8} (h : b < 128) :
    String.utf8EncodeChar (Char.ofUInt8 b) = [b] := by
  have hval : (Char.ofUInt8 b).val.toNat = b.toNat := UInt8.toNat_toUInt32 b
  have hle : b.toNat ≤ 127 := Nat.le_of_lt_succ h
  rw [String.utf8EncodeChar, hval]
  exact (if_pos hle).trans (by rw [UInt8.ofNat_toNat])

theorem char_lt (x : UInt8) : 0x20 + x % 95 < 128 := by
  have hx : (x % 95).toNat < 95 := by
    rw [UInt8.toNat_mod]
    exact Nat.mod_lt _ (by decide)
  rw [UInt8.lt_iff_toNat_lt, UInt8.toNat_add]
  change (32 + (x % 95).toNat) % 256 < 128
  omega

theorem cmdText_eq (t : UInt64) (textLen : Nat) : Rust.cmdText t textLen = Go.cmdText t textLen := by
  simp only [Rust.cmdText, Go.cmdText, utf8EncodeChar_ofUInt8 (char_lt _), List.map_eq_flatMap]

/-- The two builders make the same record. -/
theorem buildRecord_eq (index : UInt64) (entries textLen : Nat) :
    Rust.buildRecord index entries textLen = Go.buildRecord index entries textLen := by
  simp only [Rust.buildRecord, Go.buildRecord, Rust.entry, Go.entry, cmdText_eq]

end HiPerf.Serial
