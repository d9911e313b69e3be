import HiPerf.Serial.Flyweight

/-!
The flyweight codec writes the frame of a record or stops, and reads a frame back but for
what its texts have beyond 64 KiB.
-/

namespace HiPerf.Serial

open Exec Bytes

namespace Flyweight

variable {m m' : Flyweight} {fs : List Field} {i : Nat} {e : Entry} {r : JournalRecord}

/-- The buffer begins with `fs`. -/
def Wrote (m : Flyweight) (fs : List Field) : Prop := bytes fs <+: m.buffer

/-- Write fields one behind the other. -/
def putFields (i : Nat) : List Field → Run Flyweight Unit
  | [] => pure ()
  | f :: fs => do
    put i (le f.1 f.2)
    putFields (i + f.1) fs

theorem put_ok {b : List UInt8} (h : i + b.length ≤ m.buffer.length) :
    put i b m = .ok () { m with buffer := Bytes.put m.buffer i b } := if_pos h

/-- With room for them the fields go behind those that are written, and nothing else
changes. -/
theorem putFields_ok (gs : List Field) (hw : m.Wrote fs) (hi : i = width fs)
    (hroom : i + width gs ≤ m.buffer.length) :
    ∃ b, putFields i gs m = .ok () { m with buffer := b } ∧ bytes (fs ++ gs) <+: b ∧
      b.length = m.buffer.length := by
  induction gs generalizing m fs i with
  | nil => exact ⟨m.buffer, rfl, by rwa [List.append_nil], rfl⟩
  | cons g gs ih =>
    rw [width_cons] at hroom
    have hlen : (le g.1 g.2).length = g.1 := le_length _ _
    have hfit : i + (le g.1 g.2).length ≤ m.buffer.length := by omega
    have hput : { m with buffer := Bytes.put m.buffer i (le g.1 g.2) }.Wrote (fs ++ [g]) := by
      have hpre := put_prefix (le g.1 g.2) hw
      rw [bytes_length, ← hi] at hpre
      rw [Wrote, bytes_append, bytes_cons, bytes_nil, List.append_nil]
      exact hpre
    have hnext : i + g.1 = width (fs ++ [g]) := by rw [width_append, hi]; rfl
    have hrest : i + g.1 + width gs ≤ (Bytes.put m.buffer i (le g.1 g.2)).length := by
      rw [put_length hfit]
      omega
    obtain ⟨b, erun, hb, hblen⟩ := ih hput hnext hrest
    refine ⟨b, (bind_ok (put_ok hfit) _).trans erun, ?_, hblen.trans (put_length hfit)⟩
    rwa [List.append_assoc] at hb

theorem setBlock_eq (offset : Nat) (r : JournalRecord) :
    setBlock offset r = putFields offset r.block := by
  simp only [setBlock, JournalRecord.block, putFields, putI64, putI32, putU8, bind_pure_unit,
    Nat.add_assoc, Nat.reduceAdd]

theorem setEntry_eq (offset : Nat) (e : Entry) : setEntry offset e = putFields offset e.block := by
  simp only [setEntry, Entry.block, putFields, putI64, putI32, putF64, putU8, bind_pure_unit,
    Nat.add_assoc, Nat.reduceAdd]

theorem panicIf_ok {c : Prop} [Decidable c] {text : String} (h : ¬ c) :
    panicIf c text m = .ok () m := by rw [panicIf, if_neg h, pure_run]

theorem panicIf_stops {c : Prop} [Decidable c] {text : String} (h : c) :
    panicIf c text m = .error (.message text) m := by rw [panicIf, if_pos h, throw_run]

theorem setPosition_ok {position : Nat} (h : position ≤ m.buffer.length) :
    setPosition position m = .ok () { m with position } := by
  rw [setPosition, get_bind, bind_ok (panicIf_ok (by omega)), modify_run]

theorem setPosition_stops {position : Nat} (h : m.buffer.length < position) :
    ∃ p, setPosition position m = .error p m :=
  ⟨_, bind_error (panicIf_stops h) _⟩

theorem next_ok {blockLength : Nat} (hindex : m.index < m.count)
    (hroom : m.position + blockLength ≤ m.buffer.length) : next blockLength m = .ok ()
      { m with offset := m.position, position := m.position + blockLength,
               index := m.index + 1 } := by
  rw [next, get_bind, bind_ok (panicIf_ok (by omega)), bind_ok (panicIf_ok (by omega)), set_run]

theorem next_stops {blockLength : Nat}
    (h : ¬ (m.index < m.count ∧ m.position + blockLength ≤ m.buffer.length)) :
    ∃ p, next blockLength m = .error p m := by
  rw [next, get_bind]
  by_cases hindex : m.index ≥ m.count
  · exact ⟨_, bind_error (panicIf_stops hindex) _⟩
  · rw [bind_ok (panicIf_ok hindex)]
    exact ⟨_, bind_error (panicIf_stops (by omega)) _⟩

theorem putU32_ok {v : Nat} (h : i + 4 ≤ m.buffer.length) :
    putU32 i v m = .ok () { m with buffer := Bytes.put m.buffer i (le 4 v) } :=
  put_ok (by rwa [le_length])

theorem copy_ok {src : List UInt8} (h : i + src.length ≤ m.buffer.length) :
    copy i src m = .ok () { m with buffer := Bytes.put m.buffer i src } := by
  have htake : src.take (m.buffer.length - i) = src := List.take_of_length_le (by omega)
  rw [copy, if_pos (by omega), htake]

/-- Bytes put behind the fields that are written. -/
theorem Wrote.put (hw : m.Wrote fs) (b : List UInt8) :
    bytes fs ++ b <+: Bytes.put m.buffer (width fs) b := by
  have hpre := put_prefix b hw
  rwa [bytes_length] at hpre

/-- The text goes behind what is written, its length in front of it. -/
theorem putCmdText_ok {str : List UInt8} (hstr : str.length ≤ 1073741824) (hw : m.Wrote fs)
    (hpos : m.position = width fs) (hroom : m.position + 4 + str.length ≤ m.buffer.length) :
    ∃ b, putCmdText str m = .ok () { m with buffer := b, position := m.position + 4 + str.length } ∧
      bytes (fs ++ (4, str.length) :: textFields str) <+: b ∧ b.length = m.buffer.length := by
  have hsize : (Bytes.put m.buffer m.position (le 4 str.length)).length = m.buffer.length :=
    put_length (by rw [le_length]; omega)
  have hput : bytes (fs ++ [(4, str.length)]) <+:
      Bytes.put m.buffer m.position (le 4 str.length) := by
    rw [bytes_append, bytes_cons, bytes_nil, List.append_nil, hpos]
    exact hw.put _
  rw [putCmdText, bind_ok (panicIf_ok (by omega)), get_bind, bind_ok (setPosition_ok (by omega)),
    bind_ok (putU32_ok (by dsimp only; omega))]
  by_cases hempty : str.length = 0
  · rw [if_neg (not_not.mpr hempty)]
    refine ⟨_, by rw [hempty]; rfl, ?_, hsize⟩
    rwa [List.length_eq_zero_iff.mp hempty] at hput ⊢
  · rw [if_pos hempty, get_bind, bind_ok (setPosition_ok (hsize ▸ hroom)),
      copy_ok (hsize ▸ hroom)]
    refine ⟨_, rfl, ?_, (put_length (hsize ▸ hroom)).trans hsize⟩
    have hpre := @Wrote.put { m with buffer := Bytes.put m.buffer m.position (le 4 str.length) }
      _ hput str
    have hwidth : width (fs ++ [(4, str.length)]) = m.position + 4 := by
      rw [width_append, hpos]
      rfl
    have hbytes : bytes (fs ++ (4, str.length) :: textFields str) =
        bytes (fs ++ [(4, str.length)]) ++ str := by
      rw [bytes_append, bytes_cons, bytes_text, bytes_append, bytes_cons, bytes_nil,
        List.append_nil, List.append_assoc]
    rwa [hbytes, ← hwidth]

theorem putCmdText_stops {str : List UInt8}
    (h : ¬ (str.length ≤ 1073741824 ∧ m.position + 4 + str.length ≤ m.buffer.length)) :
    ∃ p m', putCmdText str m = .error p m' := by
  rw [putCmdText]
  by_cases hlong : str.length > 1073741824
  · exact ⟨_, _, bind_error (panicIf_stops hlong) _⟩
  · rw [bind_ok (panicIf_ok hlong), get_bind]
    by_cases hfour : m.position + 4 ≤ m.buffer.length
    · have hsize : (Bytes.put m.buffer m.position (le 4 str.length)).length = m.buffer.length :=
        put_length (by rw [le_length]; omega)
      have hlen : putU32 m.position str.length { m with position := m.position + 4 } = .ok ()
          { m with buffer := Bytes.put m.buffer m.position (le 4 str.length),
                   position := m.position + 4 } := putU32_ok hfour
      rw [bind_ok (setPosition_ok hfour), bind_ok hlen, if_pos (by omega), get_bind]
      obtain ⟨p, e⟩ := @setPosition_stops
        { m with buffer := Bytes.put m.buffer m.position (le 4 str.length), position := m.position + 4 }
        (m.position + 4 + str.length) (by dsimp only; omega)
      exact ⟨p, _, bind_error e _⟩
    · obtain ⟨p, e⟩ := @setPosition_stops m (m.position + 4) (by omega)
      exact ⟨p, m, bind_error e _⟩

/-- An entry for which there is room. -/
theorem putEntry_ok (hindex : m.index < m.count) (hstr : e.cmdText.length ≤ 1073741824)
    (hw : m.Wrote fs) (hpos : m.position = width fs)
    (hroom : m.position + e.size ≤ m.buffer.length) :
    ∃ m', putEntry e m = .ok () m' ∧ m'.Wrote (fs ++ e.fields) ∧
      m'.buffer.length = m.buffer.length ∧ m'.position = m.position + e.size ∧
      m'.count = m.count ∧ m'.index = m.index + 1 := by
  rw [Entry.size] at hroom
  have hwidth : width e.block = ENTRIES_BLOCK := rfl
  obtain ⟨b, eblock, hblock, hlen⟩ := @putFields_ok
    { m with offset := m.position, position := m.position + ENTRIES_BLOCK, index := m.index + 1 }
    fs m.position e.block hw hpos (by rw [hwidth, ENTRIES_BLOCK]; dsimp only; omega)
  obtain ⟨b', etext, htext, hlen'⟩ := @putCmdText_ok
    { m with buffer := b, offset := m.position, position := m.position + ENTRIES_BLOCK,
             index := m.index + 1 }
    (fs ++ e.block) e.cmdText hstr hblock (by rw [width_append, ← hpos, hwidth])
    (by rw [ENTRIES_BLOCK]; dsimp only at hlen ⊢; omega)
  rw [putEntry, bind_ok (next_ok hindex (by rw [ENTRIES_BLOCK]; omega)), get_bind, setEntry_eq,
    bind_ok eblock, etext]
  refine ⟨_, rfl, ?_, hlen'.trans hlen, ?_, rfl, rfl⟩
  · rw [List.append_assoc] at htext
    exact htext
  · rw [Entry.size, ENTRIES_BLOCK]
    dsimp only
    omega

theorem putEntry_stops (h : ¬ (m.index < m.count ∧ e.cmdText.length ≤ 1073741824 ∧
      m.position + e.size ≤ m.buffer.length)) (hw : m.Wrote fs) (hpos : m.position = width fs) :
    ∃ p m', putEntry e m = .error p m' := by
  rw [Entry.size] at h
  rw [putEntry]
  by_cases hnext : m.index < m.count ∧ m.position + ENTRIES_BLOCK ≤ m.buffer.length
  · have hwidth : width e.block = ENTRIES_BLOCK := rfl
    obtain ⟨b, eblock, -, hlen⟩ := @putFields_ok
      { m with offset := m.position, position := m.position + ENTRIES_BLOCK, index := m.index + 1 }
      fs m.position e.block hw hpos (by rw [hwidth]; exact hnext.2)
    rw [bind_ok (next_ok hnext.1 hnext.2), get_bind, setEntry_eq, bind_ok eblock]
    refine putCmdText_stops ?_
    rw [ENTRIES_BLOCK] at *
    dsimp only at hlen ⊢
    omega
  · obtain ⟨p, e⟩ := next_stops hnext
    exact ⟨p, m, bind_error e _⟩

theorem putEntries_ok (es : List Entry) (hcount : m.index + es.length ≤ m.count)
    (hstr : ∀ e ∈ es, e.cmdText.length ≤ 1073741824) (hw : m.Wrote fs)
    (hpos : m.position = width fs) (hroom : m.position + sizes es ≤ m.buffer.length) :
    ∃ m', runAll putEntry es m = .ok () m' ∧ m'.Wrote (fs ++ es.flatMap Entry.fields) ∧
      m'.position = m.position + sizes es := by
  induction es generalizing m fs with
  | nil => exact ⟨m, rfl, by rwa [List.flatMap_nil, List.append_nil], rfl⟩
  | cons e es ih =>
    rw [List.length_cons] at hcount
    rw [sizes_cons] at hroom
    obtain ⟨m₁, e₁, hw₁, hlen₁, hpos₁, hcount₁, hindex₁⟩ :=
      putEntry_ok (by omega) (hstr e List.mem_cons_self) hw hpos (by omega)
    obtain ⟨m₂, e₂, hw₂, hpos₂⟩ := ih (by omega) (fun e he => hstr e (List.mem_cons_of_mem _ he)) hw₁
      (by rw [width_append, Entry.width_fields, ← hpos, hpos₁]) (by omega)
    refine ⟨m₂, runAll_cons_eq_ok.mpr ⟨m₁, e₁, e₂⟩, ?_, ?_⟩
    · rwa [List.flatMap_cons, ← List.append_assoc]
    · rw [sizes_cons]
      omega

/-- Entries that went through had room. -/
theorem putEntries_room (es : List Entry) (hw : m.Wrote fs) (hpos : m.position = width fs)
    (h : runAll putEntry es m = .ok () m') (hindex : m.index ≤ m.count)
    (hfits : m.position ≤ m.buffer.length) : m.index + es.length ≤ m.count ∧
      (∀ e ∈ es, e.cmdText.length ≤ 1073741824) ∧ m.position + sizes es ≤ m.buffer.length := by
  induction es generalizing m fs with
  | nil => exact ⟨hindex, nofun, hfits⟩
  | cons e es ih =>
    obtain ⟨m₁, e₁, erest⟩ := runAll_cons_eq_ok.mp h
    have hroom : m.index < m.count ∧ e.cmdText.length ≤ 1073741824 ∧
        m.position + e.size ≤ m.buffer.length := by
      by_contra hno
      obtain ⟨p, m'', estop⟩ := putEntry_stops hno hw hpos
      rw [estop] at e₁
      cases e₁
    obtain ⟨hlt, hstr, hsize⟩ := hroom
    obtain ⟨m₂, e₂, hw₂, hlen₂, hpos₂, hcount₂, hindex₂⟩ := putEntry_ok hlt hstr hw hpos hsize
    obtain rfl : m₁ = m₂ := by
      rw [e₁] at e₂
      cases e₂
      rfl
    obtain ⟨hcount, hall, hsizes⟩ := ih hw₂
      (by rw [width_append, Entry.width_fields, ← hpos, hpos₂]) erest (by omega) (by omega)
    rw [List.length_cons, sizes_cons]
    refine ⟨by omega, fun e' he' => ?_, by omega⟩
    cases he' with
    | head => exact hstr
    | tail _ he' => exact hall e' he'

theorem setHeader_eq (blockLength templateId schemaId version : Nat) :
    setHeader blockLength templateId schemaId version =
      putFields 0 [(2, blockLength), (2, templateId), (2, schemaId), (2, version)] := by
  simp only [setHeader, putFields, putU16, bind_pure_unit, Nat.zero_add]

theorem wrap_ok {offset len : Nat} (h : offset + len ≤ m.buffer.length) :
    wrap offset len m = .ok () m := by
  rw [wrap, get_bind, panicIf_ok (by omega)]

theorem wrap_stops {offset len : Nat} (h : m.buffer.length < offset + len) :
    ∃ p, wrap offset len m = .error p m := ⟨_, panicIf_stops h⟩

theorem setDimensions_eq (pos blockLength count : Nat) :
    setDimensions pos blockLength count = putFields pos [(2, blockLength), (2, count)] := by
  simp only [setDimensions, putFields, putU16, bind_pure_unit]

theorem applyHeader_ok {blockLength : Nat} (templateId schemaId version : Nat)
    (h : HEADER_LEN + blockLength ≤ m.buffer.length) :
    ∃ b, applyHeader blockLength templateId schemaId version m =
        .ok () { m with buffer := b, position := HEADER_LEN + blockLength } ∧
      bytes [(2, blockLength), (2, templateId), (2, schemaId), (2, version)] <+: b ∧
      b.length = m.buffer.length := by
  have hheader : 0 + HEADER_LEN ≤ m.buffer.length := by omega
  obtain ⟨b, e, hb, hlen⟩ := @putFields_ok m [] 0
    [(2, blockLength), (2, templateId), (2, schemaId), (2, version)] List.nil_prefix rfl hheader
  refine ⟨b, ?_, hb, hlen⟩
  rw [applyHeader, bind_ok (wrap_ok hheader), setHeader_eq, bind_ok e]
  exact setPosition_ok (hlen ▸ h)

theorem applyHeader_stops {blockLength : Nat} (templateId schemaId version : Nat)
    (h : m.buffer.length < HEADER_LEN + blockLength) :
    ∃ p m', applyHeader blockLength templateId schemaId version m = .error p m' := by
  rw [applyHeader]
  by_cases hheader : 0 + HEADER_LEN ≤ m.buffer.length
  · obtain ⟨b, e, -, hlen⟩ := @putFields_ok m [] 0
      [(2, blockLength), (2, templateId), (2, schemaId), (2, version)] List.nil_prefix rfl hheader
    obtain ⟨p, estop⟩ := @setPosition_stops { m with buffer := b } (HEADER_LEN + blockLength)
      (hlen ▸ h)
    rw [bind_ok (wrap_ok hheader), setHeader_eq, bind_ok e]
    exact ⟨p, _, estop⟩
  · obtain ⟨p, e⟩ := @wrap_stops m 0 HEADER_LEN (Nat.lt_of_not_le hheader)
    exact ⟨p, _, bind_error e _⟩

theorem wrapAndApplyHeader_ok (h : 58 ≤ m.buffer.length) :
    ∃ b, wrapAndApplyHeader m = .ok () { m with buffer := b, position := 58 } ∧
      bytes headerFields <+: b ∧ b.length = m.buffer.length := applyHeader_ok _ _ _ h

theorem wrapAndApplyHeader_stops (h : m.buffer.length < 58) :
    ∃ p m', wrapAndApplyHeader m = .error p m' := applyHeader_stops _ _ _ h

theorem groupCount_ok {blockLength count : Nat} (hcount : count ≤ 65534) (hw : m.Wrote fs)
    (hpos : m.position = width fs) (hroom : m.position + 4 ≤ m.buffer.length) :
    ∃ b, groupCount blockLength count m = .ok ()
        { m with buffer := b, index := 0, count, position := m.position + 4 } ∧
      bytes (fs ++ [(2, blockLength), (2, count)]) <+: b ∧ b.length = m.buffer.length := by
  obtain ⟨b, e, hb, hlen⟩ := putFields_ok [(2, blockLength), (2, count)] hw hpos hroom
  refine ⟨b, ?_, hb, hlen⟩
  rw [groupCount, bind_ok (panicIf_ok (by omega)), get_bind, bind_ok (wrap_ok hroom),
    setDimensions_eq, bind_ok e, modify_run]

theorem groupCount_stops {blockLength count : Nat}
    (h : ¬ (count ≤ 65534 ∧ m.position + 4 ≤ m.buffer.length)) :
    ∃ p m', groupCount blockLength count m = .error p m' := by
  rw [groupCount]
  by_cases hcount : count > 65534
  · exact ⟨_, _, bind_error (panicIf_stops hcount) _⟩
  · obtain ⟨p, e⟩ := @wrap_stops m m.position 4 (by omega)
    rw [bind_ok (panicIf_ok hcount), get_bind]
    exact ⟨p, _, bind_error e _⟩

theorem entriesCount_ok {count : Nat} (hcount : count ≤ 65534) (hw : m.Wrote fs)
    (hpos : m.position = width fs) (hroom : m.position + 4 ≤ m.buffer.length) :
    ∃ b, entriesCount count m = .ok ()
        { m with buffer := b, index := 0, count, position := m.position + 4 } ∧
      bytes (fs ++ groupFields count) <+: b ∧ b.length = m.buffer.length :=
  groupCount_ok hcount hw hpos hroom

theorem entriesCount_stops {count : Nat}
    (h : ¬ (count ≤ 65534 ∧ m.position + 4 ≤ m.buffer.length)) :
    ∃ p m', entriesCount count m = .error p m' := groupCount_stops h

/-- The header and the block of a message, in a buffer with room for them. -/
theorem putBlock_ok (r : JournalRecord) (h : 58 ≤ m.buffer.length) :
    ∃ b, (wrapAndApplyHeader >>= fun _ => setBlock HEADER_LEN r) m =
        .ok () { m with buffer := b, position := 58 } ∧
      bytes (headerFields ++ r.block) <+: b ∧ b.length = m.buffer.length := by
  obtain ⟨b, e, hb, hlen⟩ := wrapAndApplyHeader_ok h
  obtain ⟨b', e', hb', hlen'⟩ := @putFields_ok { m with buffer := b, position := 58 } headerFields
    HEADER_LEN r.block hb rfl (show 58 ≤ b.length by omega)
  refine ⟨b', ?_, hb', hlen'.trans hlen⟩
  rw [bind_ok e, setBlock_eq, e']

theorem putHead_eq (r : JournalRecord) : putHead r =
    (wrapAndApplyHeader >>= fun _ => setBlock HEADER_LEN r) >>= fun _ =>
      entriesCount (r.entries.length % 65536) := by
  rw [putHead, bind_assoc]

theorem putHead_ok (hroom : 62 ≤ m.buffer.length) (hcount : r.entries.length % 65536 ≤ 65534) :
    ∃ m', putHead r m = .ok () m' ∧
      m'.Wrote (headerFields ++ r.block ++ groupFields (r.entries.length % 65536)) ∧
      m'.buffer.length = m.buffer.length ∧ m'.position = 62 ∧
      m'.count = r.entries.length % 65536 ∧ m'.index = 0 := by
  obtain ⟨b, e, hb, hlen⟩ := putBlock_ok r (show 58 ≤ m.buffer.length by omega)
  obtain ⟨b', e', hb', hlen'⟩ := @entriesCount_ok { m with buffer := b, position := 58 }
    (headerFields ++ r.block) _ hcount hb rfl (show 62 ≤ b.length by omega)
  refine ⟨⟨b', 62, r.entries.length % 65536, 0, m.offset⟩, ?_, hb', hlen'.trans hlen, rfl, rfl, rfl⟩
  rw [putHead_eq, bind_ok e]
  exact e'

theorem putHead_room (h : putHead r m = .ok () m') :
    62 ≤ m.buffer.length ∧ r.entries.length % 65536 ≤ 65534 := by
  rw [putHead_eq] at h
  by_cases hblock : 58 ≤ m.buffer.length
  · obtain ⟨b, e, -, hlen⟩ := putBlock_ok r hblock
    rw [bind_ok e] at h
    by_contra hno
    obtain ⟨p, m'', estop⟩ := @entriesCount_stops { m with buffer := b, position := 58 }
      (r.entries.length % 65536) (by dsimp only; omega)
    rw [estop] at h
    cases h
  · obtain ⟨p, m'', estop⟩ := @wrapAndApplyHeader_stops m (by omega)
    rw [bind_assoc, bind_error estop] at h
    cases h

end Flyweight

namespace SBECodec

/-- The records that go into a buffer of `len` bytes. -/
structure Accepts (r : JournalRecord) (len : Nat) : Prop where
  room : r.size ≤ len
  count : r.entries.length ≤ 65534
  text : ∀ e ∈ r.entries, e.cmdText.length ≤ 1073741824

variable {r : JournalRecord} {scratch : List UInt8}

/-- `Encode` writes the frame. -/
theorem encode_ok (h : Accepts r scratch.length) :
    ∃ buf, encode r scratch = .ok (buf, r.size) ∧ buf.take r.size = r.frame := by
  have hroom := h.room
  have hsmall := h.count
  have hmod : r.entries.length % 65536 = r.entries.length := Nat.mod_eq_of_lt (by omega)
  rw [JournalRecord.size] at hroom
  obtain ⟨m, e, hw, hlen, hpos, hcount, hindex⟩ := @Flyweight.putHead_ok ⟨scratch, 0, 0, 0, 0⟩ r
    (show 62 ≤ scratch.length by omega) (by omega)
  rw [hmod] at hw
  obtain ⟨m', e', hw', hpos'⟩ := Flyweight.putEntries_ok r.entries (by omega) h.text hw
    (by rw [hpos]; rfl) (show m.position + _ ≤ m.buffer.length by rw [hlen, hpos]; exact hroom)
  have hsize : HEADER_LEN + (m'.position - HEADER_LEN) = r.size := by
    rw [HEADER_LEN, JournalRecord.size]
    omega
  refine ⟨m'.buffer, ?_, ?_⟩
  · rw [encode, Flyweight.putRecord, bind_ok e, bind_ok e', get_bind, pure_run, hsize]
  · have htake := List.prefix_iff_eq_take.mp hw'
    rw [bytes_length] at htake
    rw [JournalRecord.frame, ← r.width_fields]
    exact htake.symm

theorem accepts_of_encode {out : List UInt8 × Nat} (h : encode r scratch = .ok out) :
    Accepts r scratch.length := by
  rw [encode] at h
  cases hput : Flyweight.putRecord r ⟨scratch, 0, 0, 0, 0⟩ with
  | error p m =>
    rw [hput] at h
    cases h
  | ok n m =>
    obtain ⟨_, m₁, e₁, e⟩ := bind_eq_ok.mp hput
    obtain ⟨_, m₂, e₂, -⟩ := bind_eq_ok.mp e
    obtain ⟨hroom, hmod⟩ := Flyweight.putHead_room e₁
    obtain ⟨m', e', hw, hlen, hpos, hcount, hindex⟩ := Flyweight.putHead_ok hroom hmod
    obtain rfl : m₁ = m' := by
      rw [e₁] at e'
      cases e'
      rfl
    obtain ⟨hle, htext, hsizes⟩ := Flyweight.putEntries_room r.entries hw (by rw [hpos]; rfl) e₂
      (by omega) (by omega)
    refine ⟨?_, by omega, htext⟩
    rw [JournalRecord.size, ← hpos]
    exact hsizes.trans_eq hlen

end SBECodec

end HiPerf.Serial
