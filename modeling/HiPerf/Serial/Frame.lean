import HiPerf.Serial.Record

/-!
The frame of a record: a message header, the fields of fixed width, and a group of the
entries, each a block of fixed width with its text behind it.
-/

namespace HiPerf.Serial

open Bytes

def HEADER_LEN : Nat := 8

def SBE_BLOCK_LENGTH : Nat := 50

def SBE_TEMPLATE_ID : Nat := 1

def SBE_SCHEMA_ID : Nat := 7

def SBE_SCHEMA_VERSION : Nat := 1

/-- `EntriesEncoder::block_length()`. -/
def ENTRIES_BLOCK : Nat := 45

def boolU8 (b : Bool) : UInt8 := if b then 1 else 0

def headerFields : List Field :=
  [(2, SBE_BLOCK_LENGTH), (2, SBE_TEMPLATE_ID), (2, SBE_SCHEMA_ID), (2, SBE_SCHEMA_VERSION)]

def JournalRecord.block (r : JournalRecord) : List Field :=
  [(8, r.leadershipTermId.toUInt64.toNat), (8, r.logPosition.toUInt64.toNat),
    (8, r.timestamp.toUInt64.toNat), (8, r.clusterSessionId.toUInt64.toNat),
    (8, r.correlationId.toUInt64.toNat), (4, r.leaderMemberId.toUInt32.toNat),
    (4, r.serviceId.toUInt32.toNat), (1, r.eventType.toNat), (1, r.flags.toNat)]

def Entry.block (e : Entry) : List Field :=
  [(8, e.entryTermId.toUInt64.toNat), (8, e.entryIndex.toUInt64.toNat),
    (8, e.entryTimestamp.toUInt64.toNat), (4, e.commandKey.toUInt32.toNat),
    (8, e.cmdQty.toUInt64.toNat), (8, e.cmdPrice.toNat), (1, (boolU8 e.cmdFlag).toNat)]

/-- One field for each byte. -/
def textFields (b : List UInt8) : List Field := b.map fun x => (1, x.toNat)

def Entry.fields (e : Entry) : List Field :=
  e.block ++ (4, e.cmdText.length) :: textFields e.cmdText

def groupFields (count : Nat) : List Field := [(2, ENTRIES_BLOCK), (2, count)]

/-- What is in front of the entries. -/
def JournalRecord.headFields (r : JournalRecord) : List Field :=
  headerFields ++ r.block ++ groupFields r.entries.length

def JournalRecord.fields (r : JournalRecord) : List Field :=
  r.headFields ++ r.entries.flatMap Entry.fields

def JournalRecord.frame (r : JournalRecord) : List UInt8 := bytes r.fields

/-- The length of an entry in a frame. -/
def Entry.size (e : Entry) : Nat := 49 + e.cmdText.length

def sizes (es : List Entry) : Nat := (es.map Entry.size).sum

/-- The length of a frame. -/
def JournalRecord.size (r : JournalRecord) : Nat := 62 + sizes r.entries

@[simp] theorem sizes_nil : sizes [] = 0 := rfl

@[simp] theorem sizes_cons (e : Entry) (es : List Entry) : sizes (e :: es) = e.size + sizes es :=
  rfl

@[simp] theorem width_text (b : List UInt8) : width (textFields b) = b.length := by
  induction b with
  | nil => rfl
  | cons x b ih =>
    have hcons : textFields (x :: b) = (1, x.toNat) :: textFields b := rfl
    rw [hcons, width_cons, ih, List.length_cons, Nat.add_comm]

@[simp] theorem bytes_text (b : List UInt8) : bytes (textFields b) = b := by
  induction b with
  | nil => rfl
  | cons x b ih =>
    have hcons : textFields (x :: b) = (1, x.toNat) :: textFields b := rfl
    rw [hcons, bytes_cons, ih, le, le, UInt8.ofNat_toNat]
    rfl

theorem Entry.width_fields (e : Entry) : width e.fields = e.size := by
  rw [Entry.fields, width_append, width_cons, width_text, Entry.size]
  simp only [Entry.block, width_cons, width_nil]
  omega

theorem width_entries (es : List Entry) : width (es.flatMap Entry.fields) = sizes es := by
  induction es with
  | nil => rfl
  | cons e es ih => rw [List.flatMap_cons, width_append, Entry.width_fields, ih, sizes_cons]

theorem JournalRecord.width_head (r : JournalRecord) : width r.headFields = 62 := rfl

theorem JournalRecord.width_fields (r : JournalRecord) : width r.fields = r.size := by
  rw [fields, width_append, width_head, width_entries, size]

theorem JournalRecord.frame_length (r : JournalRecord) : r.frame.length = r.size := by
  rw [frame, bytes_length, width_fields]

/-- A fixed-width value comes back from its bytes. -/
theorem ofNat_u8 (v : UInt8) : UInt8.ofNat (v.toNat % 256 ^ 1) = v := by
  rw [Nat.mod_eq_of_lt (show v.toNat < 256 ^ 1 from v.toNat_lt), UInt8.ofNat_toNat]

theorem ofNat_u32 (v : UInt32) : UInt32.ofNat (v.toNat % 256 ^ 4) = v := by
  rw [Nat.mod_eq_of_lt (show v.toNat < 256 ^ 4 from v.toNat_lt), UInt32.ofNat_toNat]

theorem ofNat_u64 (v : UInt64) : UInt64.ofNat (v.toNat % 256 ^ 8) = v := by
  rw [Nat.mod_eq_of_lt (show v.toNat < 256 ^ 8 from v.toNat_lt), UInt64.ofNat_toNat]

end HiPerf.Serial
