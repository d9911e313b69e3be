import HiPerf.Serial.Intact

/-!
What the flyweight codec reads back of a frame: each text has at most the 64 KiB of the
buffer it is copied to. So a record that was encoded is measured whole unless the
checksum sees that its texts were cut.
-/

namespace HiPerf.Serial

open Bytes

/-- The entry with its text cut to the buffer of the codec. -/
def Entry.clip (e : Entry) : Entry := { e with cmdText := e.cmdText.take Flyweight.CMD_LEN }

def JournalRecord.clip (r : JournalRecord) : JournalRecord :=
  { r with entries := r.entries.map Entry.clip }

/-- Shorter texts are not cut. -/
theorem JournalRecord.clip_eq_self {r : JournalRecord}
    (h : ∀ e ∈ r.entries, e.cmdText.length ≤ 65536) : r.clip = r := by
  have hmap : r.entries.map Entry.clip = r.entries := by
    refine (List.map_congr_left fun e he => ?_).trans (List.map_id _)
    have htake : e.cmdText.take Flyweight.CMD_LEN = e.cmdText := List.take_of_length_le (h e he)
    rw [Entry.clip, htake]
    rfl
  rw [clip, hmap]

namespace Flyweight

variable {buf : List UInt8} {i : Nat} {gs : List Field}

theorem bind_of_ok {α β : Type} {x : Except Panic α} {a : α} (h : x = .ok a)
    (f : α → Except Panic β) : (x >>= f) = f a := by
  rw [h]
  rfl

theorem check_ok {position : Nat} {text : String} (h : position ≤ buf.length) :
    check buf position text = .ok () := if_neg (by omega)

theorem getBytes_ok {w v : Nat} (h : Holds buf i ((w, v) :: gs)) :
    getBytes buf i w = .ok (le w v) := by
  obtain ⟨hlen, hget⟩ := h.get
  rw [getBytes, if_pos hlen, hget]
  rfl

theorem getNat_ok {w v : Nat} (h : Holds buf i ((w, v) :: gs)) :
    getNat buf i w = .ok (v % 256 ^ w) := by
  rw [getNat, getBytes_ok h, ← unle_le]
  rfl

theorem getU8_ok {v : UInt8} (h : Holds buf i ((1, v.toNat) :: gs)) : getU8 buf i = .ok v := by
  rw [getU8, getNat_ok h]
  exact congrArg Except.ok (ofNat_u8 v)

theorem getF64_ok {v : UInt64} (h : Holds buf i ((8, v.toNat) :: gs)) : getF64 buf i = .ok v := by
  rw [getF64, getNat_ok h]
  exact congrArg Except.ok (ofNat_u64 v)

theorem getI64_ok {v : Int64} (h : Holds buf i ((8, v.toUInt64.toNat) :: gs)) :
    getI64 buf i = .ok v := by
  rw [getI64, getNat_ok h]
  exact congrArg (fun n : UInt64 => Except.ok n.toInt64) (ofNat_u64 v.toUInt64)

theorem getI32_ok {v : Int32} (h : Holds buf i ((4, v.toUInt32.toNat) :: gs)) :
    getI32 buf i = .ok v := by
  rw [getI32, getNat_ok h]
  exact congrArg (fun n : UInt32 => Except.ok n.toInt32) (ofNat_u32 v.toUInt32)

/-- The front of a text. -/
theorem getText_ok {b : List UInt8} (h : Holds buf i (textFields b ++ gs)) {k : Nat}
    (hk : k ≤ b.length) : getBytes buf i k = .ok (b.take k) := by
  obtain ⟨pre, post, rfl, rfl⟩ := h
  have hget : Bytes.get (pre ++ bytes (textFields b ++ gs) ++ post) pre.length k = b.take k := by
    rw [Bytes.get, List.append_assoc, List.drop_left, bytes_append, bytes_text, List.append_assoc,
      List.take_append_of_le_length hk]
  rw [getBytes, if_pos, hget]
  · rfl
  · rw [List.length_append, List.length_append, bytes_append, bytes_text, List.length_append]
    omega

theorem getBlock_ok {r : JournalRecord} (h : Holds buf i (r.block ++ gs)) :
    getBlock buf i = .ok { r with entries := [] } := by
  have h₈ : Holds buf (i + 8) _ := h.tail
  have h₁₆ : Holds buf (i + 16) _ := h₈.tail
  have h₂₄ : Holds buf (i + 24) _ := h₁₆.tail
  have h₃₂ : Holds buf (i + 32) _ := h₂₄.tail
  have h₄₀ : Holds buf (i + 40) _ := h₃₂.tail
  have h₄₄ : Holds buf (i + 44) _ := h₄₀.tail
  have h₄₈ : Holds buf (i + 48) _ := h₄₄.tail
  have h₄₉ : Holds buf (i + 49) _ := h₄₈.tail
  rw [getBlock, bind_of_ok (getI64_ok h), bind_of_ok (getI64_ok h₈), bind_of_ok (getI64_ok h₁₆),
    bind_of_ok (getI64_ok h₂₄), bind_of_ok (getI64_ok h₃₂), bind_of_ok (getI32_ok h₄₀),
    bind_of_ok (getI32_ok h₄₄), bind_of_ok (getU8_ok h₄₈), bind_of_ok (getU8_ok h₄₉)]
  rfl

theorem getCmdText_ok {b : List UInt8} (hlen : b.length < 4294967296)
    (h : Holds buf i ((4, b.length) :: textFields b ++ gs)) :
    getCmdText buf i = .ok (b.take CMD_LEN, i + 4 + b.length) := by
  have htext : Holds buf (i + 4) (textFields b ++ gs) := h.tail
  have hroom := htext.length
  rw [width_append, width_text] at hroom
  have hmod : b.length % 256 ^ 4 = b.length := Nat.mod_eq_of_lt hlen
  rw [getCmdText, bind_of_ok (check_ok (by omega)), bind_of_ok (getNat_ok h), hmod]
  rw [bind_of_ok (check_ok (by omega))]
  split
  · next hlong =>
    rw [bind_of_ok (getText_ok htext (Nat.le_of_lt hlong))]
    rfl
  · next hshort =>
    rw [bind_of_ok (getText_ok htext (Nat.le_refl _)), List.take_length,
      List.take_of_length_le (by omega)]
    rfl

theorem flag_boolU8 (b : Bool) : decide (boolU8 b ≠ 0) = b := by
  cases b <;> rfl

theorem getEntry_ok {e : Entry} (hlen : e.cmdText.length < 4294967296)
    (h : Holds buf i (e.fields ++ gs)) :
    getEntry buf ENTRIES_BLOCK i = .ok (e.clip, i + e.size) := by
  have h₈ : Holds buf (i + 8) _ := h.tail
  have h₁₆ : Holds buf (i + 16) _ := h₈.tail
  have h₂₄ : Holds buf (i + 24) _ := h₁₆.tail
  have h₂₈ : Holds buf (i + 28) _ := h₂₄.tail
  have h₃₆ : Holds buf (i + 36) _ := h₂₈.tail
  have h₄₄ : Holds buf (i + 44) _ := h₃₆.tail
  have h₄₅ : Holds buf (i + ENTRIES_BLOCK) _ := h₄₄.tail
  have hroom := h₄₅.length
  rw [getEntry, bind_of_ok (check_ok (by omega)), bind_of_ok (getI64_ok h), bind_of_ok (getI64_ok h₈),
    bind_of_ok (getI64_ok h₁₆), bind_of_ok (getI32_ok h₂₄), bind_of_ok (getI64_ok h₂₈),
    bind_of_ok (getF64_ok h₃₆), bind_of_ok (getU8_ok h₄₄), bind_of_ok (getCmdText_ok hlen h₄₅),
    flag_boolU8]
  have hend : i + ENTRIES_BLOCK + 4 + e.cmdText.length = i + e.size := by
    rw [ENTRIES_BLOCK, Entry.size]
    omega
  rw [hend]
  rfl

theorem foldEntries_ok (es : List Entry) (hlen : ∀ e ∈ es, e.cmdText.length < 4294967296)
    (h : Holds buf i (es.flatMap Entry.fields ++ gs)) (ck : Checksum) :
    foldEntries buf ENTRIES_BLOCK es.length i ck =
      .ok ((es.map Entry.clip).foldl Checksum.addEntry ck) := by
  induction es generalizing i ck with
  | nil => rfl
  | cons e es ih =>
    rw [List.flatMap_cons, List.append_assoc] at h
    have hrest := h.append_right
    rw [Entry.width_fields] at hrest
    rw [List.length_cons, foldEntries, bind_of_ok (getEntry_ok (hlen e List.mem_cons_self) h)]
    exact ih (fun e he => hlen e (List.mem_cons_of_mem _ he)) hrest _

end Flyweight

namespace SBECodec

open Flyweight

variable {r : JournalRecord} {scratch : List UInt8}

theorem decodeChecksum_frame (hcount : r.entries.length < 65536)
    (hlen : ∀ e ∈ r.entries, e.cmdText.length < 4294967296) :
    decodeChecksum r.frame = .ok (checksumRecord r.clip) := by
  have hframe : Holds r.frame 0 (headerFields ++ (r.block ++ (groupFields r.entries.length ++
      (r.entries.flatMap Entry.fields ++ [])))) :=
    ⟨[], [], by simp [JournalRecord.frame, JournalRecord.fields, JournalRecord.headFields], rfl⟩
  have h₂ : Holds r.frame 2 _ := hframe.tail
  have h₄ : Holds r.frame 4 _ := h₂.tail
  have h₆ : Holds r.frame 6 _ := h₄.tail
  have hblock : Holds r.frame HEADER_LEN (r.block ++ (groupFields r.entries.length ++
      (r.entries.flatMap Entry.fields ++ []))) := h₆.tail
  have hgroup : Holds r.frame (HEADER_LEN + SBE_BLOCK_LENGTH) _ := hblock.append_right
  have hnum : Holds r.frame (HEADER_LEN + SBE_BLOCK_LENGTH + 2) _ := hgroup.tail
  have hentries : Holds r.frame (HEADER_LEN + SBE_BLOCK_LENGTH + 4) _ := hnum.tail
  have hroom := hentries.length
  have hnumber : r.entries.length % 256 ^ 2 = r.entries.length := Nat.mod_eq_of_lt hcount
  have hfour : HEADER_LEN + SBE_BLOCK_LENGTH + 4 ≤ r.frame.length := by omega
  rw [decodeChecksum, bind_of_ok (check_ok (by omega)), bind_of_ok (getNat_ok hframe),
    bind_of_ok (getNat_ok h₆)]
  change (check r.frame (HEADER_LEN + SBE_BLOCK_LENGTH) _ >>= _) = _
  rw [bind_of_ok (check_ok (by omega)), bind_of_ok (getBlock_ok hblock)]
  change (check r.frame (HEADER_LEN + SBE_BLOCK_LENGTH + 4) _ >>= _) = _
  rw [bind_of_ok (check_ok hfour)]
  change (getNat r.frame (HEADER_LEN + SBE_BLOCK_LENGTH) 2 >>= _) = _
  rw [bind_of_ok (getNat_ok hgroup)]
  change (getNat r.frame (HEADER_LEN + SBE_BLOCK_LENGTH + 2) 2 >>= _) = _
  rw [bind_of_ok (getNat_ok hnum), hnumber]
  exact foldEntries_ok r.entries hlen hentries _

/-- The flyweight codec stops or measures the record, unless the checksum sees that a
text was cut. -/
theorem sound_iff : Sound r scratch ↔
    (Accepts r scratch.length → checksumRecord r.clip = checksumRecord r) := by
  rw [Sound]
  cases e : encode r scratch with
  | error p =>
    refine ⟨fun _ haccepts => ?_, fun _ => trivial⟩
    obtain ⟨buf, eok, -⟩ := encode_ok haccepts
    rw [e] at eok
    cases eok
  | ok out =>
    have haccepts := accepts_of_encode e
    obtain ⟨buf, eok, htake⟩ := encode_ok haccepts
    rw [e] at eok
    cases eok
    have hdecode := @decodeChecksum_frame r (Nat.lt_of_le_of_lt haccepts.count (by decide))
      fun e he => Nat.lt_of_le_of_lt (haccepts.text e he) (by decide)
    dsimp only
    rw [htake, hdecode]
    exact ⟨fun hsame _ => Except.ok.inj hsame, fun hsame => congrArg Except.ok (hsame haccepts)⟩

end SBECodec

end HiPerf.Serial
