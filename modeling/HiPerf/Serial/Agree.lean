import HiPerf.Serial.Aeron
import HiPerf.Serial.Loss
import HiPerf.Snapshot.Image

/-!
The three codecs write one frame, and each reads it back whole.
-/

namespace HiPerf.Serial

open Machine Exec Bytes

/-- The record with its event type as the enumeration has it. -/
def JournalRecord.known (r : JournalRecord) : JournalRecord :=
  { r with eventType := (EventType.ofU8 r.eventType).toU8 }

theorem JournalRecord.known_eq_self {r : JournalRecord} (h : r.eventType = 0 ∨ r.eventType = 1) :
    r.known = r := by
  obtain h | h := h
  · rw [known, h]
    cases r
    cases h
    rfl
  · rw [known, h]
    cases r
    cases h
    rfl

namespace Aeron

open Encoder (Wrote)

variable {room : Nat} {t : Written} {r : JournalRecord} {e : Entry}

/-- Bytes go behind the fields that are written. -/
theorem put_runs {i : Nat} (fs : List Field) (hi : i = width t.fields) (h : i + width fs ≤ room) :
    Runs (Wrote room) (Encoder.put i (bytes fs)) t () { t with fields := t.fields ++ fs } := by
  intro s hs
  have hlen := hs.room_le
  have hfits := hs.room_fits
  have hroom : i + (bytes fs).length ≤ s.data.length := by rw [bytes_length]; omega
  have hend : i + (bytes fs).length ≤ USIZE_MAX := by rw [bytes_length]; omega
  have hput := put_prefix (bytes fs) hs.written
  rw [bytes_length, ← hi, ← bytes_append] at hput
  exact ⟨{ s with data := Bytes.put s.data i (bytes fs) }, if_pos ⟨hend, hroom⟩, { hs with
    written := hput
    room_le := by rw [put_length hroom]; exact hlen }⟩

theorem header_eq : header = Encoder.putAll 0 headerFields := by
  simp only [header, headerFields, Encoder.putAll, Encoder.putU16, bind_pure_unit, Nat.zero_add]

theorem putBlock_eq (offset : Nat) (r : JournalRecord) :
    putBlock offset r = Encoder.putAll offset r.known.block := by
  simp only [putBlock, JournalRecord.known, JournalRecord.block, Encoder.putAll, putI64, putI32, putU8,
    bind_pure_unit, Nat.add_assoc, Nat.reduceAdd]

theorem putMember_eq (offset : Nat) (e : Entry) :
    putMember offset e = Encoder.putAll offset e.block := by
  simp only [putMember, Entry.block, Encoder.putAll, putI64, putI32, putF64, putU8, bind_pure_unit,
    Nat.add_assoc, Nat.reduceAdd]

theorem cmdText_runs {b : List UInt8} (hb : b.length ≤ 4294967294) (hlimit : t.limit = width t.fields)
    (hroom : t.limit + 4 + b.length ≤ room) :
    Runs (Wrote room) (cmdText b) t ()
      { t with fields := t.fields ++ (4, b.length) :: textFields b
               limit := t.limit + 4 + b.length } := by
  refine Runs.get_bind fun s hs => ?_
  rw [hs.limit, Nat.min_eq_left hb]
  dsimp only
  rw [List.take_length]
  have hlength := @Encoder.put_runs room { t with limit := t.limit + 4 + b.length } t.limit 4 b.length
    hlimit (by omega)
  have htext := @put_runs room
    { t with fields := t.fields ++ [(4, b.length)], limit := t.limit + 4 + b.length } (t.limit + 4)
    (textFields b) (by rw [width_append, hlimit]; rfl) (by rwa [width_text])
  rw [bytes_text, List.append_assoc] at htext
  exact (Encoder.setLimit_runs _).bind (hlength.bind htext)

theorem advance_runs {size : Nat} (h : u64 (t.index + 1) < t.count) :
    Runs (Wrote room) (Encoder.advance size) t ()
      { t with offset := t.limit, limit := t.limit + size, index := u64 (t.index + 1) } := by
  refine Runs.get_bind fun s hs => ?_
  rw [hs.index, hs.count]
  refine Runs.ite (fun hge => absurd h (by omega)) fun _ => Runs.modify fun s hs => ?_
  exact { hs with
    offset := hs.limit
    limit := by rw [hs.limit]
    index := rfl }

/-- What a group shows after one more member. -/
def added (e : Entry) (t : Written) : Written where
  fields := t.fields ++ e.fields
  limit := t.limit + e.size
  count := t.count
  index := u64 (t.index + 1)
  offset := t.limit

theorem putEntry_runs (htext : e.cmdText.length ≤ 4294967294) (hlimit : t.limit = width t.fields)
    (hindex : u64 (t.index + 1) < t.count) (hroom : t.limit + e.size ≤ room) :
    Runs (Wrote room) (putEntry e) t () (added e t) := by
  rw [Entry.size] at hroom
  have hwidth : width e.block = 45 := rfl
  have hblock := @Encoder.putAll_runs room
    { t with offset := t.limit, limit := t.limit + ENTRIES_BLOCK, index := u64 (t.index + 1) } t.limit
    e.block hlimit (by omega)
  have hcmd := @cmdText_runs room
    { t with fields := t.fields ++ e.block, offset := t.limit, limit := t.limit + ENTRIES_BLOCK,
             index := u64 (t.index + 1) } e.cmdText htext
    (by rw [width_append, hwidth, hlimit]; rfl) (by rw [ENTRIES_BLOCK]; dsimp only; omega)
  have hadded : added e t = { t with
      fields := t.fields ++ e.block ++ (4, e.cmdText.length) :: textFields e.cmdText
      offset := t.limit
      limit := t.limit + ENTRIES_BLOCK + 4 + e.cmdText.length
      index := u64 (t.index + 1) } := by
    rw [added, Entry.fields, Entry.size, ENTRIES_BLOCK, List.append_assoc, Nat.add_assoc,
      Nat.add_assoc, ← Nat.add_assoc 45]
  rw [hadded]
  refine (advance_runs hindex).bind (Runs.get_bind fun s hs => ?_)
  rw [hs.offset, putMember_eq]
  exact hblock.bind hcmd

theorem putEntries_runs (es : List Entry) (htext : ∀ e ∈ es, e.cmdText.length ≤ 4294967294)
    (hlimit : t.limit = width t.fields) (hindex : u64 (t.index + 1) + es.length ≤ t.count)
    (hcount : t.count < 65536) (hroom : t.limit + sizes es ≤ room) :
    ∃ t', Runs (Wrote room) (runAll putEntry es) t () t' ∧
      t'.fields = t.fields ++ es.flatMap Entry.fields ∧ t'.limit = t.limit + sizes es := by
  induction es generalizing t with
  | nil => exact ⟨t, Runs.pure _, (List.append_nil _).symm, rfl⟩
  | cons e es ih =>
    rw [List.length_cons] at hindex
    rw [sizes_cons] at hroom
    have hnext : u64 ((u64 ((t.index : Int) + 1) : Nat) + 1) = u64 (t.index + 1) + 1 := by
      unfold u64 at *
      omega
    have hput := putEntry_runs (htext e List.mem_cons_self) hlimit (by omega)
      (show t.limit + e.size ≤ room by omega)
    obtain ⟨t', hrest, hfields, hlimit'⟩ := @ih (added e t)
      (fun e he => htext e (List.mem_cons_of_mem _ he))
      (by rw [added, width_append, Entry.width_fields, hlimit])
      (by rw [added]; dsimp only; omega) hcount (by rw [added]; dsimp only; omega)
    refine ⟨t', hput.bind hrest, ?_, ?_⟩
    · rw [hfields, added, List.flatMap_cons, List.append_assoc]
    · rw [hlimit', added, sizes_cons, Nat.add_assoc]

/-- The buffers a record fits, each count and each length in the field that holds it. -/
structure Fits (r : JournalRecord) (len : Nat) : Prop where
  room : r.size ≤ len
  len_le : len ≤ USIZE_MAX
  count : r.entries.length < 65536
  text : ∀ e ∈ r.entries, e.cmdText.length ≤ 4294967294

theorem groupWrap_runs {fs : List Field} {count : Nat} (h : width fs + 4 ≤ room) :
    Runs (Wrote room) (Encoder.groupWrap ENTRIES_BLOCK count) ⟨fs, width fs, 0, 0, 0⟩ ()
      ⟨fs ++ groupFields count, width (fs ++ groupFields count), count, USIZE_MAX, USIZE_MAX⟩ := by
  have hwrap := @Encoder.groupWrap_runs room ⟨fs, width fs, 0, 0, 0⟩ ENTRIES_BLOCK count rfl h
  rw [Encoder.inGroup, List.flatten_nil, List.append_nil] at hwrap
  exact hwrap

theorem encodeFields_runs (h : Fits r room) :
    ∃ t', Runs (Wrote room) (encodeFields HEADER_LEN r) ⟨headerFields, 58, 0, 0, 0⟩ r.size t' ∧
      t'.fields = r.known.fields := by
  have hroom := h.room
  have hcount := h.count
  rw [JournalRecord.size] at hroom
  have hwidth : width (headerFields ++ r.known.block) = 58 := rfl
  have hhead : width r.known.headFields = 62 := r.known.width_head
  have hblock := @Encoder.putAll_runs room ⟨headerFields, 58, 0, 0, 0⟩ HEADER_LEN r.known.block rfl
    (show 8 + 50 ≤ room by omega)
  have hgroup := @groupWrap_runs room (headerFields ++ r.known.block) r.entries.length
    (by omega)
  have hindex : u64 ((USIZE_MAX : Nat) + 1) = 0 := rfl
  obtain ⟨t', hentries, hfields, hlimit⟩ := @putEntries_runs room
    ⟨r.known.headFields, width r.known.headFields, r.entries.length, USIZE_MAX, USIZE_MAX⟩
    r.entries h.text rfl (by rw [hindex, Nat.zero_add]) hcount (by rw [hhead]; exact hroom)
  rw [hhead] at hlimit
  refine ⟨t', ?_, hfields⟩
  rw [encodeFields, putBlock_eq, Nat.mod_eq_of_lt hcount]
  refine hblock.bind (hgroup.bind (hentries.bind (Runs.get_bind fun s hs => ?_)))
  rw [hs.limit, hlimit]
  exact Runs.pure _

/-- `encode` writes the frame. -/
theorem encode_ok {buf : List UInt8} (h : Fits r buf.length) :
    ∃ out, encode r buf = .ok (out, r.size) ∧ out.take r.size = r.known.frame := by
  have hroom := h.room
  rw [JournalRecord.size] at hroom
  have hstart : Wrote buf.length ⟨buf, 0, 0, 0, 0⟩ ⟨[], 0, 0, 0, 0⟩ :=
    ⟨List.nil_prefix, Nat.le_refl _, h.len_le, rfl, rfl, rfl, rfl⟩
  have hheader := @Encoder.putAll_runs buf.length ⟨[], 58, 0, 0, 0⟩ 0 headerFields rfl
    (show 0 + 8 ≤ buf.length by omega)
  obtain ⟨t', hfields, hwritten⟩ := encodeFields_runs h
  have hmessage : Runs (Wrote buf.length) (encodeMessage r) ⟨[], 0, 0, 0, 0⟩ r.size t' := by
    rw [encodeMessage, header_eq]
    exact (Encoder.setLimit_runs _).bind (hheader.bind hfields)
  obtain ⟨s, erun, hs⟩ := hmessage _ hstart
  have htake := List.prefix_iff_eq_take.mp hs.written
  rw [hwritten, bytes_length, JournalRecord.width_fields] at htake
  exact ⟨s.data, by rw [encode, erun], htake.symm⟩

open Flyweight

variable {buf : List UInt8} {i : Nat} {gs : List Field}

theorem cmdTextSlice_ok {b : List UInt8} (hlen : b.length < 4294967296)
    (h : Holds buf i ((4, b.length) :: textFields b ++ gs)) :
    cmdTextSlice buf i = .ok (b, i + 4 + b.length) := by
  have hmod : b.length % 256 ^ 4 = b.length := Nat.mod_eq_of_lt hlen
  rw [cmdTextSlice, bind_of_ok (getNat_ok h), hmod,
    bind_of_ok (getText_ok (show Holds buf (i + 4) _ from h.tail) (Nat.le_refl _)), List.take_length]
  rfl

theorem getEntry_ok (hlen : e.cmdText.length < 4294967296)
    (hutf : e.cmdText.toByteArray.IsValidUTF8) (h : Holds buf i (e.fields ++ gs)) :
    getEntry buf ENTRIES_BLOCK i = .ok (e, i + e.size) := by
  have h₈ : Holds buf (i + 8) _ := h.tail
  have h₁₆ : Holds buf (i + 16) _ := h₈.tail
  have h₂₄ : Holds buf (i + 24) _ := h₁₆.tail
  have h₂₈ : Holds buf (i + 28) _ := h₂₄.tail
  have h₃₆ : Holds buf (i + 36) _ := h₂₈.tail
  have h₄₄ : Holds buf (i + 44) _ := h₃₆.tail
  have h₄₅ : Holds buf (i + ENTRIES_BLOCK) _ := h₄₄.tail
  have hend : i + ENTRIES_BLOCK + 4 + e.cmdText.length = i + e.size := by
    rw [ENTRIES_BLOCK, Entry.size]
    omega
  rw [getEntry, bind_of_ok (getI64_ok h), bind_of_ok (getI64_ok h₈), bind_of_ok (getI64_ok h₁₆),
    bind_of_ok (getI32_ok h₂₄), bind_of_ok (getI64_ok h₂₈), bind_of_ok (getF64_ok h₃₆),
    bind_of_ok (getU8_ok h₄₄), bind_of_ok (cmdTextSlice_ok hlen h₄₅), flag_boolU8, hend]
  dsimp only
  rw [utf8OrEmpty, if_pos hutf]
  rfl

theorem foldEntries_ok (es : List Entry) (hlen : ∀ e ∈ es, e.cmdText.length < 4294967296)
    (hutf : ∀ e ∈ es, e.cmdText.toByteArray.IsValidUTF8)
    (h : Holds buf i (es.flatMap Entry.fields ++ gs)) (c : Checksum) :
    foldEntries buf ENTRIES_BLOCK es.length i c = .ok (es.foldl Checksum.addEntry c) := by
  induction es generalizing i c with
  | nil => rfl
  | cons e es ih =>
    rw [List.flatMap_cons, List.append_assoc] at h
    have hrest := h.append_right
    rw [Entry.width_fields] at hrest
    rw [List.length_cons, foldEntries,
      bind_of_ok (getEntry_ok (hlen e List.mem_cons_self) (hutf e List.mem_cons_self) h)]
    exact ih (fun e he => hlen e (List.mem_cons_of_mem _ he))
      (fun e he => hutf e (List.mem_cons_of_mem _ he)) hrest _

/-- `decode_checksum` of a frame whose texts are UTF-8. -/
theorem decodeChecksum_frame (hcount : r.entries.length < 65536)
    (hlen : ∀ e ∈ r.entries, e.cmdText.length < 4294967296)
    (hutf : ∀ e ∈ r.entries, e.cmdText.toByteArray.IsValidUTF8) :
    decodeChecksum r.frame = .ok (checksumRecord r.known) := by
  have hframe : Holds r.frame 0 (headerFields ++ (r.block ++ (groupFields r.entries.length ++
      (r.entries.flatMap Entry.fields ++ [])))) :=
    ⟨[], [], by simp [JournalRecord.frame, JournalRecord.fields, JournalRecord.headFields], rfl⟩
  have h₂ : Holds r.frame 2 _ := hframe.tail
  have h₄ : Holds r.frame 4 _ := h₂.tail
  have h₆ : Holds r.frame 6 _ := h₄.tail
  have hblock : Holds r.frame HEADER_LEN (r.block ++ (groupFields r.entries.length ++
      (r.entries.flatMap Entry.fields ++ []))) := h₆.tail
  have hgroup : Holds r.frame (HEADER_LEN + SBE_BLOCK_LENGTH) _ := hblock.append_right
  have hnum : Holds r.frame (HEADER_LEN + SBE_BLOCK_LENGTH + 2) _ := hgroup.tail
  have hentries : Holds r.frame (HEADER_LEN + SBE_BLOCK_LENGTH + 4) _ := hnum.tail
  have hnumber : r.entries.length % 256 ^ 2 = r.entries.length := Nat.mod_eq_of_lt hcount
  rw [decodeChecksum, bind_of_ok (getNat_ok hframe), bind_of_ok (getNat_ok h₆),
    bind_of_ok (getBlock_ok hblock)]
  change (getNat r.frame (HEADER_LEN + SBE_BLOCK_LENGTH) 2 >>= _) = _
  rw [bind_of_ok (getNat_ok hgroup)]
  change (getNat r.frame (HEADER_LEN + SBE_BLOCK_LENGTH + 2) 2 >>= _) = _
  rw [bind_of_ok (getNat_ok hnum), hnumber]
  exact foldEntries_ok r.entries hlen hutf hentries _

end Aeron

/-- A codec with the record and its buffer in hand writes `frame`, and reads `sum` back. -/
def Carries (frame : List UInt8) (sum : Checksum) (encoded : Except Panic (List UInt8 × Nat))
    (decode : List UInt8 → Except Panic Checksum) : Prop :=
  ∃ buf, encoded = .ok (buf, frame.length) ∧ buf.take frame.length = frame ∧
    decode (buf.take frame.length) = .ok sum

/-- The records all three codecs take: the enumeration has the event type, the texts are
UTF-8, and the frame fits the 64 KiB of the harness. -/
structure Common (r : JournalRecord) : Prop where
  eventType : r.eventType = 0 ∨ r.eventType = 1
  utf8 : ∀ e ∈ r.entries, e.cmdText.toByteArray.IsValidUTF8
  room : r.size ≤ 65536

theorem sizes_bounds (es : List Entry) :
    49 * es.length ≤ sizes es ∧ ∀ e ∈ es, e.cmdText.length ≤ sizes es := by
  induction es with
  | nil => exact ⟨Nat.le_refl _, nofun⟩
  | cons e es ih =>
    obtain ⟨hcount, htext⟩ := ih
    rw [List.length_cons, sizes_cons, Entry.size]
    refine ⟨by omega, fun e' he' => ?_⟩
    cases he' with
    | head => omega
    | tail _ he' => exact (htext e' he').trans (Nat.le_add_left _ _)

/-- Each codec writes the frame of such a record, and measures it whole. -/
theorem Common.carries {r : JournalRecord} (h : Common r) {rust flyweight struct : List UInt8}
    (hrust : rust.length = 65536) (hflyweight : flyweight.length = 65536)
    (hstruct : struct.length = 65536) :
    Carries r.frame (checksumRecord r) (Aeron.encode r rust) Aeron.decodeChecksum ∧
      Carries r.frame (checksumRecord r) (SBECodec.encode r flyweight) SBECodec.decodeChecksum ∧
      Carries r.frame (checksumRecord r) (.ok (SBEStructCodec.encode (toSBEStruct r) struct))
        (fun bytes => .ok (SBEStructCodec.decodeChecksum bytes)) := by
  have hroom := h.room
  rw [JournalRecord.size] at hroom
  obtain ⟨hcount, htext⟩ := sizes_bounds r.entries
  have hlen : ∀ e ∈ r.entries, e.cmdText.length ≤ 65536 := fun e he => by
    have := htext e he
    omega
  have hlen' : ∀ e ∈ r.entries, e.cmdText.length < 4294967296 := fun e he =>
    Nat.lt_of_le_of_lt (hlen e he) (by decide)
  have hknown := JournalRecord.known_eq_self h.eventType
  have hframe := r.frame_length
  have hfits : Aeron.Fits r rust.length :=
    ⟨hrust ▸ h.room, by rw [hrust]; decide, by omega, fun e he => (hlen e he).trans (by decide)⟩
  have haccepts : SBECodec.Accepts r flyweight.length :=
    ⟨hflyweight ▸ h.room, by omega, fun e he => (hlen e he).trans (by decide)⟩
  obtain ⟨out, erust, etake⟩ := Aeron.encode_ok hfits
  obtain ⟨out', eflyweight, etake'⟩ := SBECodec.encode_ok haccepts
  obtain ⟨out'', estruct, etake''⟩ := SBEStructCodec.encode_front r struct
  rw [hknown] at etake
  rw [hstruct, Nat.min_eq_left h.room, List.take_of_length_le (hframe.trans_le h.room)] at etake''
  rw [hstruct, Nat.min_eq_left h.room] at estruct
  refine ⟨⟨out, ?_, ?_, ?_⟩, ⟨out', ?_, ?_, ?_⟩, ⟨out'', ?_, ?_, ?_⟩⟩
  · rw [hframe, erust]
  · rw [hframe, etake]
  · rw [hframe, etake, Aeron.decodeChecksum_frame (by omega) hlen' h.utf8, hknown]
  · rw [hframe, eflyweight]
  · rw [hframe, etake']
  · rw [hframe, etake', SBECodec.decodeChecksum_frame (by omega) hlen', r.clip_eq_self hlen]
  · rw [hframe, estruct]
  · rw [hframe, etake'']
  · have hdecode := SBEStructCodec.decodeChecksum_take 65536 hlen'
    rw [List.take_of_length_le (hframe.trans_le h.room), r.kept_eq_self h.room (by omega)] at hdecode
    rw [hframe, etake'']
    exact congrArg Except.ok hdecode

theorem Rust.cmdText_length (t : UInt64) (textLen : Nat) :
    (Rust.cmdText t textLen).length = textLen := by
  rw [cmdText_eq, Go.cmdText, List.length_map, List.length_range]

theorem Rust.cmdText_valid (t : UInt64) (textLen : Nat) :
    (Rust.cmdText t textLen).toByteArray.IsValidUTF8 := by
  have hencode : Rust.cmdText t textLen = ((List.range textLen).map fun i =>
      Char.ofUInt8 (0x20 + (t >>> UInt64.ofNat (i % 8 * 8)).toUInt8 % 95)).flatMap
        String.utf8EncodeChar := by
    rw [Rust.cmdText, List.flatMap_map]
  rw [hencode]
  exact ⟨_, rfl⟩

theorem Rust.buildRecord_size (index : UInt64) (entries textLen : Nat) :
    (Rust.buildRecord index entries textLen).size = 62 + entries * (49 + textLen) := by
  have hsizes : ∀ ks : List Nat, sizes (ks.map fun k => Rust.entry index (mix index) entries textLen
      (UInt64.ofNat k)) = ks.length * (49 + textLen) := by
    intro ks
    induction ks with
    | nil => exact (Nat.zero_mul _).symm
    | cons k ks ih =>
      rw [List.map_cons, sizes_cons, ih, Entry.size, Rust.entry, Rust.cmdText_length, List.length_cons,
        Nat.succ_mul, Nat.add_comm]
  rw [JournalRecord.size, Rust.buildRecord, hsizes, List.length_range]

theorem and_one (x : UInt64) : (x &&& 1).toUInt8 = 0 ∨ (x &&& 1).toUInt8 = 1 := by
  have hmod : (x &&& 1).toNat = x.toNat % 2 := by
    rw [UInt64.toNat_and]
    exact Nat.and_one_is_mod _
  obtain h | h : x.toNat % 2 = 0 ∨ x.toNat % 2 = 1 := by omega
  · exact .inl (UInt8.toNat_inj.mp (by rw [UInt64.toNat_toUInt8, hmod, h]; rfl))
  · exact .inr (UInt8.toNat_inj.mp (by rw [UInt64.toNat_toUInt8, hmod, h]; rfl))

theorem Rust.buildRecord_common {index : UInt64} {entries textLen : Nat}
    (h : 62 + entries * (49 + textLen) ≤ 65536) : Common (Rust.buildRecord index entries textLen) where
  eventType := and_one _
  utf8 e he := by
    obtain ⟨k, -, rfl⟩ := List.mem_map.mp he
    exact Rust.cmdText_valid _ _
  room := (Rust.buildRecord_size index entries textLen).trans_le h

/-- The builders agree, the encoders write the same bytes, and each decoder measures them
whole. -/
theorem codecs_agree (index : UInt64) (entries textLen : Nat)
    (h : 62 + entries * (49 + textLen) ≤ 65536) (rust flyweight struct : List UInt8)
    (hrust : rust.length = 65536) (hflyweight : flyweight.length = 65536)
    (hstruct : struct.length = 65536) :
    let r := Rust.buildRecord index entries textLen
    let g := Go.buildRecord index entries textLen
    r = g ∧ r.frame.length = 62 + entries * (49 + textLen) ∧
      Carries r.frame (checksumRecord r) (Aeron.encode r rust) Aeron.decodeChecksum ∧
      Carries r.frame (checksumRecord r) (SBECodec.encode g flyweight) SBECodec.decodeChecksum ∧
      Carries r.frame (checksumRecord r) (.ok (SBEStructCodec.encode (toSBEStruct g) struct))
        (fun bytes => .ok (SBEStructCodec.decodeChecksum bytes)) := by
  have hcarries := (@Rust.buildRecord_common index entries textLen h).carries hrust hflyweight hstruct
  dsimp only
  rw [← buildRecord_eq]
  exact ⟨rfl, (JournalRecord.frame_length _).trans (Rust.buildRecord_size index entries textLen),
    hcarries⟩

/-- The scratch buffer of the harness. -/
def scratch : List UInt8 := List.replicate 65536 0

theorem scratch_length : scratch.length = 65536 := List.length_replicate

theorem codecs_agree_two :
    let r := Rust.buildRecord 7 2 8
    let g := Go.buildRecord 7 2 8
    r = g ∧ r.frame.length = 62 + 2 * (49 + 8) ∧
      Carries r.frame (checksumRecord r) (Aeron.encode r scratch) Aeron.decodeChecksum ∧
      Carries r.frame (checksumRecord r) (SBECodec.encode g scratch) SBECodec.decodeChecksum ∧
      Carries r.frame (checksumRecord r) (.ok (SBEStructCodec.encode (toSBEStruct g) scratch))
        (fun bytes => .ok (SBEStructCodec.decodeChecksum bytes)) :=
  codecs_agree 7 2 8 (by decide) scratch scratch scratch scratch_length scratch_length scratch_length

end HiPerf.Serial
