import HiPerf.Snapshot.Head
import HiPerf.Ultima.FromFlat

/-!
The gates of the three decoders: what makes each refuse an image that an encoder
has produced, whose version was rewritten or that is from another configuration.
-/

namespace HiPerf

open Machine Tables Exec Bytes

/-- The image with `version` written over the one in its header, and a trailer
that is right again. -/
def reversioned (crc32c : List UInt8 → UInt32) (image : List UInt8) (version : Nat) : List UInt8 :=
  let body := put (image.take (image.length - 4)) 6 (le 2 version)
  body ++ le 4 (crc32c body).toNat

theorem reversioned_sealed (crc32c : List UInt8 → UInt32) (m : Image) (version : Nat) :
    reversioned crc32c (Encoder.sealed crc32c m) version = m.resealed crc32c version := by
  have hbody : put (bytes m.fields) 6 (le 2 version) = bytes (m.altered version) := by
    have hpre : bytes m.fields = bytes [(2, SBE_BLOCK_LENGTH), (2, SBE_TEMPLATE_ID), (2, SBE_SCHEMA_ID)] ++
        (le 2 SBE_SCHEMA_VERSION ++ bytes (m.altered version).tail.tail.tail.tail) := by
      rw [← m.altered_eq]
      simp [Image.altered, bytes_cons, bytes_append]
    have hpost : bytes (m.altered version) =
        bytes [(2, SBE_BLOCK_LENGTH), (2, SBE_TEMPLATE_ID), (2, SBE_SCHEMA_ID)] ++
          (le 2 version ++ bytes (m.altered version).tail.tail.tail.tail) := by
      simp [Image.altered, bytes_cons, bytes_append]
    rw [hpre, hpost, put, le_length]
    have hsix : (bytes [(2, SBE_BLOCK_LENGTH), (2, SBE_TEMPLATE_ID), (2, SBE_SCHEMA_ID)]).length = 6 := rfl
    rw [List.take_left' hsix, List.append_assoc, ← List.append_assoc _ (le 2 SBE_SCHEMA_VERSION),
      List.drop_left' (by rw [List.length_append, hsix, le_length])]
  have htake : (Encoder.sealed crc32c m).take ((Encoder.sealed crc32c m).length - 4) =
      bytes m.fields := by
    rw [Encoder.sealed, List.length_append, le_length, Nat.add_sub_cancel, List.take_left]
  rw [reversioned, htake, hbody, Image.resealed]

/-- What a group keeps stands in the order it came in. -/
theorem kept_sublist {β : Type} (count : Nat) (bs : List β) : (kept count bs).Sublist bs := by
  induction bs using List.reverseRecOn with
  | nil => exact List.Sublist.refl _
  | append_singleton bs b ih =>
    rw [kept, List.foldl_append, List.foldl_cons, List.foldl_nil]
    change (push count (kept count bs) b).Sublist _
    rw [push]
    split
    · exact ih.append (List.Sublist.refl _)
    · exact ((List.dropLast_sublist _).trans ih).append (List.Sublist.refl _)

section

variable {f : Flat} {L : Ledger} {q : Lane → Nat → List Nat}

/-- What an encoder keeps of a memory is an image of it. -/
theorem Flat.keptImage_of (h : Rep f L q) {capacity : Nat} (hc : capacity < 4294967296)
    (hfh : f.freeHead ≤ NIL) {slots : List Nat} (hslots : ∀ s ∈ slots, s < f.hwm)
    (hsorted : slots.Pairwise (· < ·)) (hgl : f.levelRecs ≠ [] → u16 f.levelRecs.length ≠ 0)
    (hgo : slots ≠ [] → u16 slots.length ≠ 0) :
    (f.keptImage capacity slots).Of f (kept (u16 slots.length) slots) := by
  obtain ⟨hbid, hask⟩ := h.bests_i32
  have hl := h.grid_ok.levels_le
  have hhwm := h.hwm_le
  have hu : ∀ n, u16 n ≤ n := fun n => Nat.mod_le _ _
  have hrecs : (f.orderRecs slots).length = slots.length := List.length_map _
  have hkept : kept (u16 slots.length) (f.orderRecs slots) =
      f.orderRecs (kept (u16 slots.length) slots) :=
    (foldl_push_map (fun s => (s, f.ord s)) (u16 slots.length) slots []).symm
  refine ⟨⟨⟨h.grid_ok.priceMin_i64, h.grid_ok.tick_i64, Nat.lt_of_le_of_lt hl (by decide), hc,
    Nat.lt_of_le_of_lt hhwm (by decide), hbid, hask, hfh⟩,
    kept_length (fun hne => Nat.pos_of_ne_zero (hgl hne)) (hu _), u16_lt _, fun r hr => ?_,
    kept_length (fun hne => Nat.pos_of_ne_zero (hgo fun hnil => hne (by rw [hnil]; rfl)))
      (by rw [hrecs]; exact hu _), u16_lt _, fun r hr => ?_⟩, rfl,
    fun r hr => mem_of_mem_kept hr, hkept, hsorted.sublist (kept_sublist _ _)⟩
  · obtain ⟨hs, ht, e, -⟩ := mem_levelRecs (mem_of_mem_kept hr)
    exact ⟨hs, by omega, e ▸ Book.level_plain h _ _⟩
  · obtain ⟨s, hs, rfl⟩ := List.mem_map.mp (mem_of_mem_kept hr)
    have := hslots s hs
    simp only [NIL] at hhwm
    exact ⟨by dsimp only; omega, h.plain s⟩

end

namespace Decoder

variable {σ : Type} (S : Sink σ)

/-- What stops a write into the book under way is a panic. -/
theorem runAll_lift_error {β : Type} {put : β → Run σ Unit} (rs : List β) {s s' : σ} {e : Fault}
    (h : runAll (fun r => lift (put r)) rs s = .error e s') : ∃ p, e = .panic p := by
  induction rs generalizing s with
  | nil => cases h
  | cons r rs ih =>
    cases hput : put r s with
    | ok a s₁ =>
      have hlift : lift (put r) s = .ok a s₁ := by rw [lift, hput]
      exact ih ((bind_ok hlift _).symm.trans h)
    | error p s₁ =>
      have hlift : lift (put r) s = .error (.panic p) s₁ := by rw [lift, hput]
      have h' : (EStateM.Result.error (.panic p) s₁ : EStateM.Result Fault σ Unit) = .error e s' :=
        (bind_error hlift _).symm.trans h
      cases h'
      exact ⟨p, rfl⟩

theorem putRecords_error (m : Image) {s s' : σ} {e : Fault}
    (h : putRecords S m s = .error e s') : ∃ p, e = .panic p := by
  cases hl : runAll (fun r : LevelRec => lift (S.putLevel r.1 r.2.1 r.2.2)) m.levels s with
  | ok a s₁ => exact runAll_lift_error m.orders ((bind_ok hl _).symm.trans h)
  | error e' s₁ =>
    have h' : (EStateM.Result.error e' s₁ : EStateM.Result Fault σ Unit) = .error e s' :=
      (bind_error hl _).symm.trans h
    cases h'
    exact runAll_lift_error m.levels hl

/-- The gates of `restore` and `restore_cow`. -/
theorem into_altered {m : Image} (hm : m.Plain) {version : Nat} (hv : version < 65536) (cap : Nat)
    (s : σ) : (∃ text, into S (bytes (m.altered version)) cap s = .error (.err text)) ↔
      version ≠ 2 ∨ m.scalars.capacity ≠ cap := by
  by_cases h2 : version = 2
  · subst h2
    rw [show (2 : Nat) = SBE_SCHEMA_VERSION from rfl, m.altered_eq, into, message_image S hm]
    by_cases hcap : m.scalars.capacity = cap
    · rw [if_pos hcap]
      refine ⟨?_, fun h => absurd hcap (h.resolve_left (not_not.mpr rfl))⟩
      rintro ⟨text, e⟩
      cases hput : putRecords S m (setScalars S m.scalars s) with
      | ok a s' => rw [hput] at e; cases e
      | error e' s' =>
        obtain ⟨p, rfl⟩ := putRecords_error S m hput
        rw [hput] at e
        cases e
    · rw [if_neg hcap]
      exact ⟨fun _ => .inr hcap, fun _ => ⟨_, rfl⟩⟩
  · have h₀ : Holds (bytes (m.altered version)) 0 (m.altered version) := ⟨[], [], by simp, rfl⟩
    have h₆ : Holds _ 6 _ := h₀.tail.tail.tail
    have hlen := h₆.get.1
    have hfield : fieldAt (bytes (m.altered version)) 6 2 = version := by
      rw [fieldAt, h₆.get.2]
      exact unle_le_of_lt hv
    obtain ⟨text, e⟩ := @message_version σ S _ cap hlen (by rw [hfield]; exact h2) s
    refine ⟨fun _ => .inl h2, fun _ => ⟨text, ?_⟩⟩
    rw [into, e]
    rfl

end Decoder

section

variable {m : Image} {version : Nat} (crc32c : List UInt8 → UInt32) (c : SmrConfig)

theorem Book.restore_resealed (hm : m.Plain) (hv : version < 65536) :
    (∃ text, Book.restore crc32c (m.resealed crc32c version) c = .error (.err text)) ↔
      version ≠ 2 ∨ m.scalars.capacity ≠ c.cap := by
  rw [Book.restore, Image.resealed, Decoder.checked_body]
  exact Decoder.into_altered Book.sink hm hv c.cap _

theorem CowBook.restoreCow_resealed (hm : m.Plain) (hv : version < 65536) (hchunk : 1 ≤ c.chunk) :
    (∃ text, restoreCow crc32c (m.resealed crc32c version) c = .error (.err text)) ↔
      version ≠ 2 ∨ m.scalars.capacity ≠ c.cap := by
  obtain ⟨w₀, e₀, -⟩ := CowBook.new_mirrors hchunk
  rw [restoreCow, Image.resealed, Decoder.checked_body, e₀]
  exact Decoder.into_altered CowBook.sink hm hv c.cap _

/-- `restore_ultima` has one gate, and it is another one. -/
theorem UltimaBook.restore_resealed {db : Db} (hdb : db.Lawful) {f : Flat}
    {slots : List Nat} (hm : m.Of f slots) :
    (f.grid.nLevels = c.levels → ∃ r, restoreUltima db crc32c (m.resealed crc32c version) c = .ok r) ∧
    (f.grid.nLevels ≠ c.levels → ∃ text,
      restoreUltima db crc32c (m.resealed crc32c version) c = .error (.err text)) := by
  rw [restoreUltima_resealed hm]
  constructor
  · intro hn
    obtain ⟨r, l, o, ms, e, -⟩ := bulkLoad_ok hdb c (Decoder.metaOf m.scalars)
      (x := ⟨f.loadTable (m.levels.map (Decoder.levelIndex f.grid.nLevels)), f.orderTable slots,
        slots.foldl (fun ids s => ids.insert (f.ord s).orderId (rowOf s)) IdMap.empty⟩)
      (List.pairwise_map.mpr (List.pairwise_lt_range.imp fun h => Nat.succ_lt_succ h))
      (fun r hr => by obtain ⟨i, -, rfl⟩ := List.mem_map.mp hr; exact Nat.succ_pos i)
      (orderTable_sorted f hm.sorted)
      (fun r hr => by obtain ⟨s, -, rfl⟩ := List.mem_map.mp hr; exact Nat.succ_pos s)
    exact ⟨r, by rw [if_pos hn]; exact e⟩
  · intro hn
    exact ⟨_, if_neg hn⟩

end

/-- The images of the three encoders: of a flat book, of a root captured from a
copy-on-write book, and of a version of a book of rows. -/
inductive Produced (db : Db) (crc32c : List UInt8 → UInt32) (c : SmrConfig) : List UInt8 → Prop
  | flat {ops : List Op} {b : Book} {buf data : List UInt8} {len : Nat}
      (hwf : WellFormed c [] ops) (hslots : SlotsFit [] ops)
      (hrun : Book.run ops (Book.new c) = .ok () b) (hbuf : b.source.room ≤ buf.length)
      (henc : b.encode crc32c buf = .ok (data, len)) : Produced db crc32c c (data.take len)
  | cow {calls : List CowCall} {w₀ w w' : CowBook} {r : Root} {buf data : List UInt8} {len : Nat}
      (hchunk : 1 ≤ c.chunk) (hwf : WellFormed c [] (CowCall.ops calls))
      (hslots : SlotsFit [] (CowCall.ops calls)) (hnew : CowBook.new c = .ok w₀)
      (hrun : CowBook.run calls w₀ = .ok () w) (hcap : CowBook.capture w = .ok r w')
      (hbuf : (r.source fun _ => w'.mem).room ≤ buf.length)
      (henc : encodeRoot crc32c r (fun _ => w'.mem) buf = .ok (data, len)) :
      Produced db crc32c c (data.take len)
  | rows {ops : List Op} {u₀ u : UltimaBook db} {buf data : List UInt8} {len : Nat}
      (hwf : WellFormed c [] ops) (hfit : ∀ op ∈ ops, op.OffsetFits c) (hins : inserts ops ≤ NIL)
      (hne : ops ≠ []) (hnew : UltimaBook.new db c = .ok u₀) (hrun : UltimaBook.run ops u₀ = .ok () u)
      (hbuf : 60 + (LEVELS_BLOCK + ORDERS_BLOCK) * (Ledger.after [] ops).length ≤ buf.length)
      (henc : encodeAt crc32c u.store u.version buf = .ok (data, len)) :
      Produced db crc32c c (data.take len)

/-- What all of them are: sealed images of a memory of the configuration. -/
theorem Produced.image {db : Db} (hdb : db.Lawful) {crc32c : List UInt8 → UInt32} {c : SmrConfig}
    (hg : c.grid.Ok) {image : List UInt8} (h : Produced db crc32c c image) :
    ∃ m f slots, image = Encoder.sealed crc32c m ∧ m.scalars.capacity = u32 c.cap ∧
      f.grid = c.grid ∧ m.Of f slots := by
  have hflat : ∀ {ops : List Op} {b : Book} {buf data : List UInt8} {len : Nat},
      WellFormed c [] ops → SlotsFit [] ops → Book.run ops (Book.new c) = .ok () b →
      b.source.room ≤ buf.length → b.encode crc32c buf = .ok (data, len) →
      ∃ m f slots, data.take len = Encoder.sealed crc32c m ∧ m.scalars.capacity = u32 c.cap ∧
        f.grid = c.grid ∧ m.Of f slots := by
    intro ops b buf data len hwf hslots hrun hbuf henc
    obtain ⟨f, hb, ⟨q, fl, hrep, hfl, hcap⟩, hgrid, hnarrow⟩ := HiPerf.reached hg hwf hslots hrun
    have hread := Book.source_readable hb hrep hcap
    have hgroups : Encoder.NoEmptyGroup b.source := by
      by_contra hgroups
      obtain ⟨p, e⟩ := Encoder.encode_stops crc32c hread hgroups buf
      rw [Book.encode, e] at henc
      cases henc
    obtain ⟨data', e, hdata⟩ := Encoder.encode_ok crc32c hread hgroups hbuf
    rw [Book.encode, e] at henc
    cases henc
    have hlevels := hgroups.1
    have horders := hgroups.2
    rw [hb.levelRecs_eq hnarrow] at hlevels
    rw [Book.hwm_source hb] at horders
    refine ⟨f.keptImage (u32 c.cap) (List.range f.hwm), f, _, ?_, rfl, hgrid,
      Flat.keptImage_of hrep (u32_lt _) (hfl.head_le hrep.hwm_le) (fun s => List.mem_range.mp)
        List.pairwise_lt_range hlevels fun hne => ?_⟩
    · rw [hdata, hb.keptImage_eq hnarrow hcap]
    · rw [List.length_range]
      exact horders fun h0 => hne (by rw [h0]; rfl)
  cases h with
  | flat hwf hslots hrun hbuf henc => exact hflat hwf hslots hrun hbuf henc
  | cow hchunk hwf hslots hnew hrun hcap hbuf henc =>
    obtain ⟨w₁, e₁, h₀⟩ := CowBook.new_mirrors hchunk
    rw [hnew] at e₁
    cases e₁
    obtain ⟨b, eb, hw⟩ := (CowBook.run_tracks _).forth h₀ hrun
    cases hcap
    have hnarrow := CowBook.run_narrow eb
    rw [hw.encodeRoot hnarrow (fun _ _ => rfl) fun _ _ _ => rfl] at henc
    rw [hw.root_source hnarrow (fun _ _ => rfl) fun _ _ _ => rfl] at hbuf
    exact hflat hwf hslots eb hbuf henc
  | @rows ops u₀ u buf data len hwf hfit hins hne hnew hrun hbuf henc =>
    obtain ⟨u', f, q, eu, hu, hs, hgrid, -⟩ := UltimaBook.reached hdb hg hnew hwf hfit hins hne
    rw [hrun] at eu
    cases eu
    have hgroups : UltimaBook.NoEmptyGroup f := by
      by_contra hgroups
      obtain ⟨p, e⟩ := hu.encodeAt_stops hdb hs hgroups crc32c buf
      rw [e] at henc
      cases henc
    obtain ⟨data', len', e, hdata⟩ := hu.encodeAt_kept hdb hs hgroups crc32c
      (show _ ≤ buf.length by
        have := Nat.mul_le_mul_left LEVELS_BLOCK (UltimaBook.levelRecs_le hs)
        rw [Nat.add_mul] at hbuf
        dsimp only
        omega)
    rw [e] at henc
    cases henc
    exact ⟨_, f, _, hdata, rfl, hgrid, Flat.keptImage_of hs.rep (u32_lt _)
      hs.freeHead.le (fun s hmem => hs.rep.queued_lt ((UltimaBook.mem_slots hs.rep s).mp hmem))
      (UltimaBook.slots_sorted f) hgroups.1 hgroups.2⟩

/-- An image of one configuration under another, with any version in its header:
`restore` and `restore_cow` refuse it exactly if the version is not 2 or the
capacity another one, `restore_ultima` exactly if the number of levels is. -/
theorem gates_iff {db : Db} (hdb : db.Lawful) {crc32c : List UInt8 → UInt32} {c₁ c₂ : SmrConfig}
    (hg : c₁.grid.Ok) (hchunk : 1 ≤ c₂.chunk) {image : List UInt8} (h : Produced db crc32c c₁ image)
    {version : Nat} (hv : version < 65536) :
    ((∃ text, Book.restore crc32c (reversioned crc32c image version) c₂ = .error (.err text)) ↔
      version ≠ 2 ∨ u32 c₁.cap ≠ c₂.cap) ∧
    ((∃ text, restoreCow crc32c (reversioned crc32c image version) c₂ = .error (.err text)) ↔
      version ≠ 2 ∨ u32 c₁.cap ≠ c₂.cap) ∧
    ((∃ text, restoreUltima db crc32c (reversioned crc32c image version) c₂ = .error (.err text)) ↔
      c₁.levels ≠ c₂.levels) := by
  obtain ⟨m, f, slots, rfl, hcap, hgrid, hm⟩ := h.image hdb hg
  have hn : f.grid.nLevels = c₁.levels := by rw [hgrid]; rfl
  have hrows :
      (f.grid.nLevels = c₂.levels →
        ∃ r, restoreUltima db crc32c (m.resealed crc32c version) c₂ = .ok r) ∧
      (f.grid.nLevels ≠ c₂.levels → ∃ text,
        restoreUltima db crc32c (m.resealed crc32c version) c₂ = .error (.err text)) :=
    UltimaBook.restore_resealed crc32c c₂ hdb hm
  obtain ⟨hok, herr⟩ := hrows
  rw [reversioned_sealed, ← hcap]
  refine ⟨Book.restore_resealed crc32c c₂ hm.plain hv,
    CowBook.restoreCow_resealed crc32c c₂ hm.plain hv hchunk, fun ⟨text, e⟩ hsame => ?_,
    fun hne => herr (hn ▸ hne)⟩
  obtain ⟨r, er⟩ := hok (hn.trans hsame)
  rw [er] at e
  cases e

theorem produced_restingRun : ∃ image, Produced reference crc32c smallBook image := by
  have hwf : WellFormed smallBook [] UltimaBook.restingRun := by decide
  obtain ⟨b, eb, hb⟩ := (Book.run_holds smallBook_ok rfl (Book.new_holds smallBook_ok) hwf
    (by decide)).1 _ (Book.new_shows smallBook)
  have hhwm : b.hwm ≤ 65535 := by
    have e : b.hwm = ((Book.new smallBook).view.steps UltimaBook.restingRun).hwm := by rw [← hb.view]; rfl
    rw [e]
    decide
  have hbuf : b.source.room ≤ (List.replicate b.source.room (0 : UInt8)).length :=
    Nat.le_of_eq List.length_replicate.symm
  obtain ⟨f, q, fl, data, len, r, -, -, -, e, -⟩ := UltimaBook.loads_flat reference_lawful
    smallBook_ok hwf (slotsFit_of_inserts (by decide)) eb hhwm crc32c hbuf
  exact ⟨_, .flat hwf (slotsFit_of_inserts (by decide)) eb hbuf e⟩

theorem gates_iff_restingRun : ∃ image, Produced reference crc32c smallBook image ∧
    ((∃ text, Book.restore crc32c (reversioned crc32c image 3) smallBook = .error (.err text)) ↔
      3 ≠ 2 ∨ u32 smallBook.cap ≠ smallBook.cap) ∧
    ((∃ text, restoreCow crc32c (reversioned crc32c image 3) smallBook = .error (.err text)) ↔
      3 ≠ 2 ∨ u32 smallBook.cap ≠ smallBook.cap) ∧
    ((∃ text, restoreUltima reference crc32c (reversioned crc32c image 3) smallBook =
      .error (.err text)) ↔ smallBook.levels ≠ smallBook.levels) := by
  obtain ⟨image, h⟩ := produced_restingRun
  exact ⟨image, h, gates_iff reference_lawful smallBook_ok (by decide) h (by decide)⟩

/-- An image of version 3, and one of a pool of another size: `restore_ultima`
takes both. -/
theorem gates_open : ∃ image, Produced reference crc32c smallBook image ∧
    (∃ r, restoreUltima reference crc32c (reversioned crc32c image 3) smallBook = .ok r) ∧
    ∃ r, restoreUltima reference crc32c image { smallBook with cap := 8 } = .ok r := by
  obtain ⟨image, h⟩ := produced_restingRun
  obtain ⟨m, f, slots, rfl, -, hgrid, hm⟩ := h.image reference_lawful smallBook_ok
  refine ⟨_, h, ?_, ?_⟩
  · rw [reversioned_sealed]
    exact (UltimaBook.restore_resealed crc32c smallBook reference_lawful hm).1 (by rw [hgrid]; rfl)
  · rw [← Image.resealed_version]
    exact (UltimaBook.restore_resealed crc32c { smallBook with cap := 8 } reference_lawful hm).1
      (by rw [hgrid]; rfl)

end HiPerf
