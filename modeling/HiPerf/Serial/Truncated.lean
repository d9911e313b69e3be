import HiPerf.Serial.Struct

/-!
What the struct codec loses: `Encode` fills the buffer with the front of the frame, and
`DecodeChecksum` reads what is cut off as zeros. A record is measured whole unless the
checksum sees that.
-/

namespace HiPerf.Serial

open Exec Bytes

namespace SliceWriter

variable {len : Nat} {w : SliceWriter} {bs bs' : List UInt8} {x y : Write}

/-- The front of `bs` is written, as much of it as there is room for. -/
structure Took (len : Nat) (w : SliceWriter) (bs : List UInt8) : Prop where
  length : w.b.length = len
  n : w.n = min bs.length len
  front : w.b.take w.n = bs.take len

/-- `x` writes `bs`, and stops only when the buffer is full. -/
def Streams (x : Write) (bs : List UInt8) : Prop :=
  ∀ len w pre, Took len w pre →
    match x w with
    | .ok _ w' => Took len w' (pre ++ bs)
    | .error _ w' => len ≤ (pre ++ bs).length ∧ Took len w' (pre ++ bs)

/-- What does not fit makes no difference. -/
theorem Took.full (h : Took len w bs) (hfull : len ≤ bs.length) (bs' : List UInt8) :
    Took len w (bs ++ bs') where
  length := h.length
  n := by
    have hn := h.n
    rw [List.length_append]
    omega
  front := by rw [h.front, List.take_append_of_le_length hfull]

theorem take_put {b q : List UInt8} {i : Nat} (h : i ≤ b.length) :
    (Bytes.put b i q).take (i + q.length) = b.take i ++ q := by
  have hlen : (b.take i ++ q).length = i + q.length := by
    rw [List.length_append, List.length_take, Nat.min_eq_left h]
  rw [Bytes.put, ← hlen, List.take_left]

/-- What a write leaves, short or not. -/
theorem Took.write (h : Took len w bs) (p : List UInt8) :
    Took len ⟨Bytes.put w.b w.n (p.take (min (w.b.length - w.n) p.length)),
      w.n + min (w.b.length - w.n) p.length⟩ (bs ++ p) := by
  have hlen := h.length
  have hn := h.n
  have htake : (p.take (min (w.b.length - w.n) p.length)).length =
      min (w.b.length - w.n) p.length := by
    rw [List.length_take]
    omega
  refine ⟨(put_length (by rw [htake]; omega)).trans hlen, ?_, ?_⟩
  · rw [List.length_append]
    dsimp only
    omega
  · have hput := @take_put w.b (p.take (min (w.b.length - w.n) p.length)) w.n (by omega)
    rw [htake, h.front] at hput
    rw [hput, List.take_append]
    congr 1
    have hroom : min (w.b.length - w.n) p.length = min (len - bs.length) p.length := by omega
    rw [hroom]
    exact List.take_eq_take_min.symm

theorem Streams.write (p : List UInt8) : Streams (write p) p := by
  intro len w pre h
  have htook := h.write p
  have hlen := h.length
  have hn := h.n
  rw [SliceWriter.write]
  split
  · next w' e =>
    split at e
    · cases e
    · cases e
      exact htook
  · next w' e =>
    split at e
    · next hshort =>
      cases e
      refine ⟨?_, htook⟩
      rw [List.length_append]
      omega
    · cases e

theorem Streams.pure : Streams (pure ()) [] := by
  intro len w pre h
  rw [List.append_nil]
  exact h

theorem Streams.bind (hx : Streams x bs) (hy : Streams y bs') :
    Streams (x >>= fun _ => y) (bs ++ bs') := by
  intro len w pre h
  have hfirst := hx len w pre h
  cases e : x w with
  | ok u w' =>
    rw [e] at hfirst
    rw [bind_ok e, ← List.append_assoc]
    exact hy len w' (pre ++ bs) hfirst
  | error err w' =>
    rw [e] at hfirst
    rw [bind_error e, ← List.append_assoc]
    refine ⟨?_, hfirst.2.full hfirst.1 bs'⟩
    rw [List.length_append]
    exact hfirst.1.trans (Nat.le_add_right _ _)

theorem Streams.last (h : Streams x bs) {pre : List UInt8} (hw : Took len w pre) :
    Took len (last x w) (pre ++ bs) := by
  have hrun := h len w pre hw
  cases e : x w with
  | ok u w' =>
    rw [e] at hrun
    rwa [last_ok e]
  | error err w' =>
    rw [e] at hrun
    rw [last_error e]
    exact hrun.2

theorem header_streams : Streams (header ⟨SBE_BLOCK_LENGTH, SBE_TEMPLATE_ID, SBE_SCHEMA_ID,
    SBE_SCHEMA_VERSION⟩) (bytes headerFields) := by
  exact (Streams.write _).bind ((Streams.write _).bind ((Streams.write _).bind (Streams.write _)))

theorem entry_streams (e : Entry) : Streams (entry e.toSbe) (bytes e.fields) := by
  have htext : bytes e.fields = bytes e.block ++ (le 4 e.cmdText.length ++ e.cmdText) := by
    rw [Entry.fields, bytes_append, bytes_cons, bytes_text]
  rw [htext]
  exact (Streams.write _).bind ((Streams.write _).bind ((Streams.write _).bind ((Streams.write _).bind
    ((Streams.write _).bind ((Streams.write _).bind ((Streams.write _).bind ((Streams.write _).bind
      (Streams.write _))))))))

theorem entries_streams (es : List Entry) :
    Streams (runAll entry (es.map Entry.toSbe)) (bytes (es.flatMap Entry.fields)) := by
  induction es with
  | nil => exact Streams.pure
  | cons e es ih =>
    rw [List.flatMap_cons, bytes_append]
    exact (entry_streams e).bind ih

theorem record_streams (r : JournalRecord) : Streams (record (toSBEStruct r))
    (bytes (r.block ++ groupFields r.entries.length ++ r.entries.flatMap Entry.fields)) := by
  have hcount : (toSBEStruct r).entries.length = r.entries.length := List.length_map _
  rw [bytes_append, record, hcount]
  exact (Streams.write _).bind ((Streams.write _).bind ((Streams.write _).bind ((Streams.write _).bind
    ((Streams.write _).bind ((Streams.write _).bind ((Streams.write _).bind ((Streams.write _).bind
      ((Streams.write _).bind ((Streams.write _).bind ((Streams.write _).bind
        (entries_streams r.entries)))))))))))

end SliceWriter

/-- `Encode` fills the buffer with the front of the frame. -/
theorem SBEStructCodec.encode_front (r : JournalRecord) (scratch : List UInt8) :
    ∃ buf, encode (toSBEStruct r) scratch = (buf, min r.size scratch.length) ∧
      buf.take (min r.size scratch.length) = r.frame.take scratch.length := by
  have hstart : SliceWriter.Took scratch.length ⟨scratch, 0⟩ [] :=
    ⟨rfl, (Nat.zero_min _).symm, List.take_nil.symm⟩
  have h := (SliceWriter.record_streams r).last (SliceWriter.header_streams.last hstart)
  have hframe : [] ++ bytes headerFields ++
      bytes (r.block ++ groupFields r.entries.length ++ r.entries.flatMap Entry.fields) = r.frame := by
    rw [JournalRecord.frame, JournalRecord.fields, JournalRecord.headFields, List.nil_append,
      ← bytes_append, List.append_assoc, List.append_assoc, List.append_assoc]
  rw [hframe] at h
  have hn := h.n
  rw [r.frame_length] at hn
  refine ⟨_, congrArg (Prod.mk _) hn, ?_⟩
  rw [← hn]
  exact h.front

/-- What is left of an entry of which `m` bytes are there. -/
def Entry.kept (m : Nat) (e : Entry) : Entry where
  entryTermId := if 8 ≤ m then e.entryTermId else 0
  entryIndex := if 16 ≤ m then e.entryIndex else 0
  entryTimestamp := if 24 ≤ m then e.entryTimestamp else 0
  commandKey := if 28 ≤ m then e.commandKey else 0
  cmdQty := if 36 ≤ m then e.cmdQty else 0
  cmdPrice := if 44 ≤ m then e.cmdPrice else 0
  cmdFlag := if 45 ≤ m then e.cmdFlag else false
  cmdText := if 49 ≤ m then
    e.cmdText.take (m - 49) ++ List.replicate (e.cmdText.length - (m - 49)) 0 else []

/-- What is left of entries of which `m` bytes are there. -/
def keptEntries : Nat → List Entry → List Entry
  | _, [] => []
  | m, e :: es => e.kept m :: keptEntries (m - e.size) es

/-- What is left of a record of which `m` bytes are there. The group counts its entries
with 16 bits. -/
def JournalRecord.kept (m : Nat) (r : JournalRecord) : JournalRecord where
  leadershipTermId := if 16 ≤ m then r.leadershipTermId else 0
  logPosition := if 24 ≤ m then r.logPosition else 0
  timestamp := if 32 ≤ m then r.timestamp else 0
  clusterSessionId := if 40 ≤ m then r.clusterSessionId else 0
  correlationId := if 48 ≤ m then r.correlationId else 0
  leaderMemberId := if 52 ≤ m then r.leaderMemberId else 0
  serviceId := if 56 ≤ m then r.serviceId else 0
  eventType := if 57 ≤ m then r.eventType else 0
  flags := if 58 ≤ m then r.flags else 0
  entries := if 62 ≤ m then
    keptEntries (m - 62) (r.entries.take (r.entries.length % 65536)) else []

theorem Entry.kept_eq_self {m : Nat} {e : Entry} (h : e.size ≤ m) : e.kept m = e := by
  rw [Entry.size] at h
  have htake : e.cmdText.take (m - 49) = e.cmdText := List.take_of_length_le (by omega)
  have hnone : e.cmdText.length - (m - 49) = 0 := by omega
  rw [Entry.kept, if_pos (by omega), if_pos (by omega), if_pos (by omega), if_pos (by omega),
    if_pos (by omega), if_pos (by omega), if_pos (by omega), if_pos (by omega), htake, hnone,
    List.replicate_zero, List.append_nil]

theorem keptEntries_eq_self {m : Nat} {es : List Entry} (h : sizes es ≤ m) :
    keptEntries m es = es := by
  induction es generalizing m with
  | nil => rfl
  | cons e es ih =>
    rw [sizes_cons] at h
    rw [keptEntries, Entry.kept_eq_self (by omega), ih (by omega)]

/-- A record that fits is left whole. -/
theorem JournalRecord.kept_eq_self {m : Nat} {r : JournalRecord} (h : r.size ≤ m)
    (hcount : r.entries.length < 65536) : r.kept m = r := by
  rw [size] at h
  rw [kept, if_pos (by omega), if_pos (by omega), if_pos (by omega), if_pos (by omega),
    if_pos (by omega), if_pos (by omega), if_pos (by omega), if_pos (by omega), if_pos (by omega),
    if_pos (by omega), Nat.mod_eq_of_lt hcount, List.take_length, keptEntries_eq_self (by omega)]

namespace Reader

variable {σ : Type} {m : Nat} {tail : List UInt8}

/-- A field to be read: its width, its value, and where it goes. -/
abbrev Slot (σ : Type) := Nat × Nat × (Nat → σ → σ)

def slotFields (fs : List (Slot σ)) : List Field := fs.map fun f => (f.1, f.2.1)

/-- The struct when only `m` bytes of the fields are there. -/
def fill : Nat → List (Slot σ) → σ → σ
  | _, [], x => x
  | m, (w, v, store) :: fs, x =>
    if w ≤ m then fill (m - w) fs (store (v % 256 ^ w) x) else x

def readAll : List (Slot σ) → Read σ Unit
  | [] => pure ()
  | (w, _, store) :: fs => field w store >>= fun _ => readAll fs

theorem readFull_ok {w v : Nat} (h : w ≤ m) (x : σ) :
    readFull w ⟨(le w v ++ tail).take m, x⟩ = .ok (le w v) ⟨tail.take (m - w), x⟩ := by
  have hlen : (le w v).length = w := le_length w v
  have hcut : (le w v ++ tail).take m = le w v ++ tail.take (m - w) := by
    rw [List.take_append, hlen, List.take_of_length_le (by omega)]
  rw [hcut, readFull, if_pos (by rw [List.length_append]; omega), List.take_left' hlen,
    List.drop_left' hlen]

theorem readFull_stops {w v : Nat} (h : m < w) (x : σ) :
    readFull w ⟨(le w v ++ tail).take m, x⟩ = .error .eof ⟨[], x⟩ := by
  have hlen := List.length_take_le m (le w v ++ tail)
  rw [readFull, if_neg (by dsimp only; omega)]

theorem field_ok {w v : Nat} (h : w ≤ m) (store : Nat → σ → σ) (x : σ) :
    field w store ⟨(le w v ++ tail).take m, x⟩ =
      .ok () ⟨tail.take (m - w), store (v % 256 ^ w) x⟩ := by
  rw [field, bind_ok (readFull_ok h x), modify_run, unle_le]

theorem field_stops {w v : Nat} (h : m < w) (store : Nat → σ → σ) (x : σ) :
    field w store ⟨(le w v ++ tail).take m, x⟩ = .error .eof ⟨[], x⟩ :=
  bind_error (readFull_stops h x) _

/-- Reading fields off the front of what is left of them. -/
theorem readAll_take (fs : List (Slot σ)) (x : σ) :
    readAll fs ⟨(bytes (slotFields fs) ++ tail).take m, x⟩ =
      if width (slotFields fs) ≤ m then
        .ok () ⟨tail.take (m - width (slotFields fs)), fill m fs x⟩
      else .error .eof ⟨[], fill m fs x⟩ := by
  induction fs generalizing m x with
  | nil => rfl
  | cons f fs ih =>
    obtain ⟨w, v, store⟩ := f
    have hfields : slotFields ((w, v, store) :: fs) = (w, v) :: slotFields fs := rfl
    rw [hfields, bytes_cons, List.append_assoc, width_cons, readAll, fill]
    by_cases h : w ≤ m
    · rw [bind_ok (field_ok h store x), ih, if_pos h, Nat.sub_sub]
      by_cases hrest : width (slotFields fs) ≤ m - w
      · rw [if_pos hrest, if_pos (by dsimp only; omega)]
      · rw [if_neg hrest, if_neg (by dsimp only; omega)]
    · rw [bind_error (field_stops (by omega) store x), if_neg h, if_neg (by dsimp only; omega)]

def entrySlots (e : Entry) : List (Slot SbeEntry) :=
  [(8, e.entryTermId.toUInt64.toNat, fun n e => { e with entryTermId := (UInt64.ofNat n).toInt64 }),
    (8, e.entryIndex.toUInt64.toNat, fun n e => { e with entryIndex := (UInt64.ofNat n).toInt64 }),
    (8, e.entryTimestamp.toUInt64.toNat,
      fun n e => { e with entryTimestamp := (UInt64.ofNat n).toInt64 }),
    (4, e.commandKey.toUInt32.toNat, fun n e => { e with commandKey := (UInt32.ofNat n).toInt32 }),
    (8, e.cmdQty.toUInt64.toNat, fun n e => { e with cmdQty := (UInt64.ofNat n).toInt64 }),
    (8, e.cmdPrice.toNat, fun n e => { e with cmdPrice := UInt64.ofNat n }),
    (1, (boolU8 e.cmdFlag).toNat, fun n e => { e with cmdFlag := UInt8.ofNat n })]

theorem entryBlock_eq (e : Entry) : entryBlock = readAll (entrySlots e) := by
  simp only [entryBlock, entrySlots, readAll, readI64, readI32, readF64, readU8, bind_pure_unit]

/-- The block of an entry of which `m` bytes are there. -/
theorem fill_entry (m : Nat) (e : Entry) : fill m (entrySlots e) SbeEntry.zero =
    { (e.kept m).toSbe with cmdText := [] } := by
  simp only [entrySlots, fill, ofNat_u64, ofNat_u32, ofNat_u8, Int64.toInt64_toUInt64,
    Int32.toInt32_toUInt32, Nat.sub_sub, Nat.reduceAdd, Entry.kept, Entry.toSbe, SbeEntry.zero]
  have h16 : 8 ≤ m - 8 ↔ 16 ≤ m := by omega
  have h24 : 8 ≤ m - 16 ↔ 24 ≤ m := by omega
  have h28 : 4 ≤ m - 24 ↔ 28 ≤ m := by omega
  have h36 : 8 ≤ m - 28 ↔ 36 ≤ m := by omega
  have h44 : 8 ≤ m - 36 ↔ 44 ≤ m := by omega
  have h45 : 1 ≤ m - 44 ↔ 45 ≤ m := by omega
  simp only [h16, h24, h28, h36, h44, h45]
  grind [boolU8]

theorem discard_ok {actingVersion : Nat} (h : actingVersion ≤ 1) (blockLength known : Nat)
    (s : Reader σ) : discard actingVersion blockLength known s = .ok () s := by
  have hno : ¬ (actingVersion > SBE_SCHEMA_VERSION ∧ blockLength > known) := fun hyes =>
    absurd hyes.1 (Nat.not_lt.mpr h)
  rw [discard, if_neg hno, pure_run]

/-- The text of an entry, of which `m` bytes are there. -/
theorem readBytes_take {b : List UInt8} (store : List UInt8 → σ → σ) (x : σ) :
    readBytes b.length store ⟨(b ++ tail).take m, x⟩ =
      if b.length ≤ m then .ok () ⟨tail.take (m - b.length), store b x⟩
      else .error .eof ⟨[], store (b.take m ++ List.replicate (b.length - m) 0) x⟩ := by
  by_cases h : b.length ≤ m
  · have hcut : (b ++ tail).take m = b ++ tail.take (m - b.length) := by
      rw [List.take_append, List.take_of_length_le h]
    rw [if_pos h, hcut, readBytes, if_pos (by rw [List.length_append]; omega), List.drop_left,
      List.take_left]
  · have hcut : (b ++ tail).take m = b.take m := List.take_append_of_le_length (by omega)
    have hlen : (b.take m).length = m := List.length_take_of_le (by omega)
    rw [if_neg h, hcut, readBytes, if_neg (by dsimp only; omega), hlen]

/-- An entry of which `m` bytes are there. -/
theorem entry_take {actingVersion : Nat} (hversion : actingVersion ≤ 1) (blockLength : Nat) {e : Entry}
    (hlen : e.cmdText.length < 4294967296) :
    entry actingVersion blockLength ⟨(bytes e.fields ++ tail).take m, SbeEntry.zero⟩ =
      if e.size ≤ m then .ok () ⟨tail.take (m - e.size), (e.kept m).toSbe⟩
      else .error .eof ⟨[], (e.kept m).toSbe⟩ := by
  have hbytes : bytes e.fields ++ tail =
      bytes (slotFields (entrySlots e)) ++ (le 4 e.cmdText.length ++ (e.cmdText ++ tail)) := by
    rw [Entry.fields, bytes_append, bytes_cons, bytes_text, List.append_assoc, List.append_assoc]
    rfl
  have hwidth : width (slotFields (entrySlots e)) = 45 := rfl
  have hmod : unle (le 4 e.cmdText.length) = e.cmdText.length := unle_le_of_lt hlen
  have hread := @readAll_take _ m (le 4 e.cmdText.length ++ (e.cmdText ++ tail)) (entrySlots e)
    SbeEntry.zero
  rw [hwidth, fill_entry] at hread
  rw [Entry.size, hbytes, entry, entryBlock_eq e]
  by_cases hblock : 45 ≤ m
  · rw [if_pos hblock] at hread
    rw [bind_ok hread, bind_ok (discard_ok hversion blockLength ENTRIES_BLOCK _)]
    by_cases hfour : 4 ≤ m - 45
    · rw [bind_ok (readFull_ok hfour _), hmod, readBytes_take, Nat.sub_sub, Nat.sub_sub]
      have hkept : (e.kept m).cmdText =
          e.cmdText.take (m - 49) ++ List.replicate (e.cmdText.length - (m - 49)) 0 :=
        if_pos (by omega)
      by_cases hall : 49 + e.cmdText.length ≤ m
      · rw [if_pos hall, if_pos (by omega), Entry.kept_eq_self hall]
        rfl
      · rw [if_neg hall, if_neg (by omega), ← hkept]
        rfl
    · have hkept : (e.kept m).cmdText = [] := if_neg (by omega)
      rw [bind_error (readFull_stops (by omega) _), if_neg (by omega), ← hkept]
      rfl
  · have hkept : (e.kept m).cmdText = [] := if_neg (by omega)
    rw [if_neg hblock] at hread
    rw [bind_error hread, if_neg (by omega), ← hkept]
    rfl

theorem entries_nothing (n : Nat) (es : List Entry) (h : n = es.length) :
    (keptEntries 0 es).map Entry.toSbe = List.replicate n SbeEntry.zero := by
  subst h
  induction es with
  | nil => rfl
  | cons e es ih =>
    rw [keptEntries, Nat.zero_sub, List.map_cons, ih, List.length_cons, List.replicate_succ]
    rfl

/-- Entries of which `m` bytes are there. -/
theorem entries_take {actingVersion : Nat} (hversion : actingVersion ≤ 1) (blockLength : Nat)
    (es : List Entry) (hlen : ∀ e ∈ es, e.cmdText.length < 4294967296) :
    entries actingVersion blockLength es.length ((bytes (es.flatMap Entry.fields) ++ tail).take m) =
      (keptEntries m es).map Entry.toSbe := by
  induction es generalizing m with
  | nil => rfl
  | cons e es ih =>
    have hentry := @entry_take m (bytes (es.flatMap Entry.fields) ++ tail) _ hversion blockLength e
      (hlen e List.mem_cons_self)
    rw [List.length_cons, List.flatMap_cons, bytes_append, List.append_assoc, entries, keptEntries,
      List.map_cons]
    by_cases hall : e.size ≤ m
    · rw [if_pos hall] at hentry
      rw [hentry]
      exact congrArg _ (ih fun e he => hlen e (List.mem_cons_of_mem _ he))
    · have hnone : m - e.size = 0 := by omega
      rw [if_neg hall] at hentry
      rw [hentry, hnone, entries_nothing _ es rfl]

def headerSlots : List (Slot MessageHeader) :=
  [(2, SBE_BLOCK_LENGTH, fun n h => { h with blockLength := n }),
    (2, SBE_TEMPLATE_ID, fun n h => { h with templateId := n }),
    (2, SBE_SCHEMA_ID, fun n h => { h with schemaId := n }),
    (2, SBE_SCHEMA_VERSION, fun n h => { h with version := n })]

theorem header_eq : header = readAll headerSlots := by
  simp only [header, headerSlots, readAll, readU16, bind_pure_unit]

theorem fill_version (m : Nat) : (fill m headerSlots MessageHeader.zero).version ≤ 1 := by
  simp only [headerSlots, fill]
  split
  · split
    · split
      · split
        · exact Nat.le_refl 1
        · exact Nat.zero_le 1
      · exact Nat.zero_le 1
    · exact Nat.zero_le 1
  · exact Nat.zero_le 1

/-- A header of which `m` bytes are there; what is behind it is left, if anything. -/
theorem header_take : ∃ hdr, hdr.version ≤ 1 ∧
    last header ⟨(bytes headerFields ++ tail).take m, MessageHeader.zero⟩ =
      ⟨tail.take (m - 8), hdr⟩ := by
  have hread := @readAll_take _ m tail headerSlots MessageHeader.zero
  have hwidth : width (slotFields headerSlots) = 8 := rfl
  have hfields : slotFields headerSlots = headerFields := rfl
  rw [hwidth, hfields, ← header_eq] at hread
  refine ⟨fill m headerSlots MessageHeader.zero, fill_version m, ?_⟩
  by_cases h : 8 ≤ m
  · rw [if_pos h] at hread
    exact last_ok hread
  · rw [if_neg h] at hread
    rw [last_error hread, show m - 8 = 0 by omega, List.take_zero]

def recordSlots (r : JournalRecord) : List (Slot SbeRecord) :=
  [(8, r.leadershipTermId.toUInt64.toNat,
      fun n r => { r with leadershipTermId := (UInt64.ofNat n).toInt64 }),
    (8, r.logPosition.toUInt64.toNat, fun n r => { r with logPosition := (UInt64.ofNat n).toInt64 }),
    (8, r.timestamp.toUInt64.toNat, fun n r => { r with timestamp := (UInt64.ofNat n).toInt64 }),
    (8, r.clusterSessionId.toUInt64.toNat,
      fun n r => { r with clusterSessionId := (UInt64.ofNat n).toInt64 }),
    (8, r.correlationId.toUInt64.toNat,
      fun n r => { r with correlationId := (UInt64.ofNat n).toInt64 }),
    (4, r.leaderMemberId.toUInt32.toNat,
      fun n r => { r with leaderMemberId := (UInt32.ofNat n).toInt32 }),
    (4, r.serviceId.toUInt32.toNat, fun n r => { r with serviceId := (UInt32.ofNat n).toInt32 }),
    (1, r.eventType.toNat, fun n r => { r with eventType := UInt8.ofNat n }),
    (1, r.flags.toNat, fun n r => { r with flags := UInt8.ofNat n })]

theorem recordBlock_eq (r : JournalRecord) : recordBlock = readAll (recordSlots r) := by
  simp only [recordBlock, recordSlots, readAll, readI64, readI32, readU8, bind_pure_unit]

/-- The block of a record of which `m` bytes are there, header included. -/
theorem fill_record (m : Nat) (r : JournalRecord) :
    fill (m - 8) (recordSlots r) SbeRecord.zero = { toSBEStruct (r.kept m) with entries := [] } := by
  simp only [recordSlots, fill, ofNat_u64, ofNat_u32, ofNat_u8, Int64.toInt64_toUInt64,
    Int32.toInt32_toUInt32, Nat.sub_sub, Nat.reduceAdd, JournalRecord.kept, toSBEStruct,
    SbeRecord.zero]
  have h16 : 8 ≤ m - 8 ↔ 16 ≤ m := by omega
  have h24 : 8 ≤ m - 16 ↔ 24 ≤ m := by omega
  have h32 : 8 ≤ m - 24 ↔ 32 ≤ m := by omega
  have h40 : 8 ≤ m - 32 ↔ 40 ≤ m := by omega
  have h48 : 8 ≤ m - 40 ↔ 48 ≤ m := by omega
  have h52 : 4 ≤ m - 48 ↔ 52 ≤ m := by omega
  have h56 : 4 ≤ m - 52 ↔ 56 ≤ m := by omega
  have h57 : 1 ≤ m - 56 ↔ 57 ≤ m := by omega
  have h58 : 1 ≤ m - 57 ↔ 58 ≤ m := by omega
  simp only [h16, h24, h32, h40, h48, h52, h56, h57, h58]
  grind

/-- The group counts its entries with 16 bits, and reads that many. -/
theorem entries_counted {actingVersion : Nat} (hversion : actingVersion ≤ 1) (blockLength : Nat)
    (es : List Entry) (hlen : ∀ e ∈ es, e.cmdText.length < 4294967296) :
    entries actingVersion blockLength (es.length % 65536) ((bytes (es.flatMap Entry.fields)).take m) =
      (keptEntries m (es.take (es.length % 65536))).map Entry.toSbe := by
  have hcount : (es.take (es.length % 65536)).length = es.length % 65536 :=
    List.length_take_of_le (Nat.mod_le _ _)
  have hsplit : es.flatMap Entry.fields = (es.take (es.length % 65536)).flatMap Entry.fields ++
      (es.drop (es.length % 65536)).flatMap Entry.fields := by
    rw [← List.flatMap_append, List.take_append_drop]
  have htake := @entries_take m (bytes ((es.drop (es.length % 65536)).flatMap Entry.fields)) _ hversion
    blockLength (es.take (es.length % 65536)) fun e he => hlen e (List.mem_of_mem_take he)
  rwa [hcount, ← bytes_append, ← hsplit] at htake

/-- A record of which `m` bytes are there, header included. -/
theorem record_take {actingVersion : Nat} (hversion : actingVersion ≤ 1) (blockLength : Nat)
    {r : JournalRecord} (hlen : ∀ e ∈ r.entries, e.cmdText.length < 4294967296) :
    (last (record actingVersion blockLength) ⟨(bytes (r.block ++ groupFields r.entries.length ++
      r.entries.flatMap Entry.fields)).take (m - 8), SbeRecord.zero⟩).msg =
        toSBEStruct (r.kept m) := by
  have hbytes : bytes (r.block ++ groupFields r.entries.length ++ r.entries.flatMap Entry.fields) =
      bytes (slotFields (recordSlots r)) ++
        (le 2 ENTRIES_BLOCK ++ (le 2 r.entries.length ++ bytes (r.entries.flatMap Entry.fields))) := by
    rw [bytes_append, bytes_append, List.append_assoc]
    rfl
  have hwidth : width (slotFields (recordSlots r)) = 50 := rfl
  have hread := @readAll_take _ (m - 8)
    (le 2 ENTRIES_BLOCK ++ (le 2 r.entries.length ++ bytes (r.entries.flatMap Entry.fields)))
    (recordSlots r) SbeRecord.zero
  rw [hwidth, fill_record] at hread
  rw [hbytes]
  by_cases hall : 62 ≤ m
  · have hkept : (r.kept m).entries =
        keptEntries (m - 62) (r.entries.take (r.entries.length % 65536)) := if_pos hall
    have hcount : unle (le 2 r.entries.length) = r.entries.length % 65536 := unle_le _ _
    rw [if_pos (by omega)] at hread
    have hrun : record actingVersion blockLength ⟨(bytes (slotFields (recordSlots r)) ++
        (le 2 ENTRIES_BLOCK ++ (le 2 r.entries.length ++
          bytes (r.entries.flatMap Entry.fields)))).take (m - 8), SbeRecord.zero⟩ =
        .ok () ⟨(bytes (r.entries.flatMap Entry.fields)).take (m - 8 - 50 - 2 - 2),
          toSBEStruct (r.kept m)⟩ := by
      rw [record, recordBlock_eq r, bind_ok hread, bind_ok (discard_ok hversion blockLength _ _),
        bind_ok (readFull_ok (by omega) _), bind_ok (readFull_ok (by omega) _), modify_run, hcount,
        entries_counted hversion _ _ hlen, show m - 8 - 50 - 2 - 2 = m - 62 by omega, ← hkept]
      rfl
    rw [last_ok hrun]
  · have hkept : { toSBEStruct (r.kept m) with entries := [] } = toSBEStruct (r.kept m) := by
      have hnone : (r.kept m).entries = [] := if_neg hall
      rw [toSBEStruct, hnone]
      rfl
    rw [hkept] at hread
    by_cases hblock : 50 ≤ m - 8
    · rw [if_pos hblock] at hread
      rw [record, recordBlock_eq r]
      by_cases hsize : 2 ≤ m - 8 - 50
      · rw [last_error ((bind_ok hread _).trans ((bind_ok (discard_ok hversion _ _ _) _).trans
          ((bind_ok (readFull_ok hsize _) _).trans (bind_error (readFull_stops (by omega) _) _))))]
      · rw [last_error ((bind_ok hread _).trans ((bind_ok (discard_ok hversion _ _ _) _).trans
          (bind_error (readFull_stops (by omega) _) _)))]
    · rw [if_neg hblock] at hread
      rw [record, recordBlock_eq r, last_error (bind_error hread _)]

end Reader

namespace SBEStructCodec

variable {r : JournalRecord} {scratch : List UInt8}

theorem checksum_toSBEStruct (r : JournalRecord) : checksum (toSBEStruct r) = checksumRecord r := by
  have hentry : ∀ c (e : Entry), addEntry c e.toSbe = Checksum.addEntry c e := by
    rintro c ⟨entryTermId, entryIndex, entryTimestamp, commandKey, cmdQty, cmdPrice, cmdFlag, cmdText⟩
    cases cmdFlag <;> rfl
  have hfold : ∀ c, (r.entries.map Entry.toSbe).foldl addEntry c =
      r.entries.foldl Checksum.addEntry c := by
    intro c
    rw [List.foldl_map]
    exact congrArg (fun f => r.entries.foldl f c) (funext fun c => funext (hentry c))
  exact hfold _

/-- What is read back of a frame of which `m` bytes are there. -/
theorem decodeChecksum_take (m : Nat) (hlen : ∀ e ∈ r.entries, e.cmdText.length < 4294967296) :
    decodeChecksum (r.frame.take m) = checksumRecord (r.kept m) := by
  have hframe : r.frame = bytes headerFields ++
      bytes (r.block ++ groupFields r.entries.length ++ r.entries.flatMap Entry.fields) := by
    rw [← bytes_append, ← List.append_assoc, ← List.append_assoc]
    rfl
  obtain ⟨hdr, hversion, hheader⟩ := @Reader.header_take m
    (bytes (r.block ++ groupFields r.entries.length ++ r.entries.flatMap Entry.fields))
  rw [decodeChecksum, hframe, hheader]
  dsimp only
  rw [Reader.record_take hversion hdr.blockLength hlen, checksum_toSBEStruct]

/-- The struct codec measures a record whole just when the checksum does not see what was
cut off. -/
theorem sound_iff (hlen : ∀ e ∈ r.entries, e.cmdText.length < 4294967296) :
    Sound r scratch ↔ checksumRecord (r.kept scratch.length) = checksumRecord r := by
  obtain ⟨buf, hencode, hfront⟩ := encode_front r scratch
  rw [Sound, hencode]
  dsimp only
  rw [hfront, decodeChecksum_take _ hlen]

end SBEStructCodec

end HiPerf.Serial
