import HiPerf.Ultima.Replay

/-!
The image of a flat book, loaded as a book of rows. The load takes every slot of
the image for an order, the free ones too: these become rows with order id 0.
-/

namespace HiPerf

open Machine Tables Exec Bytes

section

variable {f : Flat} {L : Ledger} {q : Lane → Nat → List Nat} {fl : List Nat}

/-- The free list is empty exactly if every slot in use holds an order. -/
theorem FreeList.freeHead_iff (hfl : FreeList f L fl) : f.freeHead = NIL ↔ f.hwm = L.length := by
  have hcount := hfl.count
  constructor
  · intro h
    have hnil : fl = [] := hfl.chain.eq_nil_iff.mp h
    rw [hnil] at hcount
    simpa using hcount
  · intro h
    exact hfl.chain.eq_nil_iff.mpr (List.eq_nil_of_length_eq_zero (by omega))

/-- A slot that no order rests in, if there is one. -/
theorem FreeList.exists_free (hfl : FreeList f L fl) (h : f.freeHead ≠ NIL) :
    f.freeHead < f.hwm ∧ (f.ord f.freeHead).orderId = 0 := by
  have hne : fl ≠ [] := fun hnil => h (hfl.chain.eq_nil_iff.mpr hnil)
  obtain ⟨s, fl', rfl⟩ := List.exists_cons_of_ne_nil hne
  obtain ⟨rfl, -⟩ := hfl.chain
  exact (hfl.mem_iff _).mp (by simp)

/-- With the free slots among the orders the digest is another one. -/
theorem FreeList.digest_iff (hfl : FreeList f L fl) (h : Rep f L q) :
    bytes ([(4, u32 f.bestBid), (4, u32 f.bestAsk), (4, (List.range f.hwm).length)] ++
      (L.levelViews f.grid).flatMap LevelView.fields ++
        (Digest.sortUnstable ((List.range f.hwm).map fun s => (f.ord s).resting)).flatMap
          Digest.putOrder) = L.digest f.grid f.bestBid f.bestAsk ↔ f.freeHead = NIL := by
  rw [hfl.freeHead_iff, Ledger.digest]
  constructor
  · intro hsame
    have hwidth : ∀ l : List Resting,
        (bytes ((Digest.sortUnstable l).flatMap Digest.putOrder)).length = 33 * l.length := by
      intro l
      rw [Ledger.orders_width, Digest.sortUnstable, List.length_mergeSort]
    have hlength := congrArg List.length hsame
    rw [bytes_append, bytes_append _ ((Digest.sortUnstable L).flatMap _), List.length_append,
      List.length_append, hwidth, hwidth, bytes_append, bytes_append, List.length_append,
      List.length_append, bytes_length, bytes_length, bytes_length, List.length_map,
      List.length_range] at hlength
    simp only [width_cons, width_nil] at hlength
    omega
  · intro hfull
    have hperm := Digest.live_perm h
    rw [← Flat.slots, hfl.slots_eq (hfl.freeHead_iff.mpr hfull)] at hperm
    rw [Digest.sortUnstable_eq_iff.mpr hperm, List.length_range, hfull]

/-- With the free slots among the orders there is an id that no order has. -/
theorem FreeList.ids_iff (hfl : FreeList f L fl) (h : Rep f L q) :
    (∀ i, (∃ s < f.hwm, (f.ord s).orderId = i) ↔ i ∈ L.ids) ↔ f.freeHead = NIL := by
  constructor
  · intro hsame
    by_contra hne
    obtain ⟨hlt, hid⟩ := hfl.exists_free hne
    obtain ⟨s, -, hq, hs⟩ := h.ids_isSome ((hsame 0).mp ⟨_, hlt, hid⟩)
    exact h.queued_id_ne hq hs
  · intro hnil i
    constructor
    · rintro ⟨s, hs, rfl⟩
      have hmem : s ∈ f.slots := by rw [hfl.slots_eq hnil]; exact List.mem_range.mpr hs
      exact List.mem_map_of_mem (h.queued_mem ((UltimaBook.mem_slots h s).mp hmem))
    · intro hi
      obtain ⟨s, -, hq, hs⟩ := h.ids_isSome hi
      exact ⟨s, h.queued_lt hq, hs⟩

end

namespace UltimaBook

variable {db : Db} {cfg : SmrConfig} {ops : List Op} {b : Book}

/-- What a reader makes of the tables a load has made, whatever the loaded slots
hold besides the resting orders. -/
theorem Loaded.digest (hdb : db.Lawful) {u : UltimaBook db} {f : Flat} {L : Ledger}
    {q : Lane → Nat → List Nat} {capacity : Nat} {slots : List Nat} (hu : u.Loaded capacity f slots)
    (h : Rep f L q) (hsorted : slots.Pairwise (· < ·)) (hslots : ∀ s, Queued q s → s ∈ slots)
    (hlen : L.length ≤ slots.length) :
    digestUltima u.store u.version = .ok (bytes ([(4, u32 f.bestBid), (4, u32 f.bestAsk),
      (4, slots.length)] ++ (L.levelViews f.grid).flatMap LevelView.fields ++
        (Digest.sortUnstable (slots.map fun s => (f.ord s).resting)).flatMap Digest.putOrder)) := by
  obtain ⟨-, -, -, -, l, o, ms, hcur, hl, ho, -, -, -, hm⟩ := hu
  have hiter : db.iter o = f.orderTable slots :=
    rows_eq (hdb.iter_sorted o) (orderTable_sorted f hsorted) fun row x => by rw [hdb.mem_iter, ho]
  have hcount : db.len o = slots.length := by
    rw [hdb.len_eq, hiter, Flat.orderTable, List.length_map]
  have hrow : ∀ s, Queued q s → db.get o (rowOf s) = some (f.ord s) := fun s hq =>
    (ho _ _).mpr (List.mem_map_of_mem (hslots s hq))
  have hlane := fun (side : Nat) (hside : side ≤ 1) =>
    rowLane_eq hl hrow (hcount ▸ hlen) h hside (Nat.zero_add _)
  rw [digestUltima_eq hdb hcur hm, digestTables]
  change (rowLane l o f.grid.nLevels 0 0 f.grid.nLevels >>= _) = _
  rw [hlane 0 (by omega)]
  change (rowLane l o f.grid.nLevels 1 0 f.grid.nLevels >>= _) = _
  rw [hlane 1 (by omega)]
  change Except.ok _ = _
  rw [hcount, hiter, Flat.orderTable, List.map_map, Ledger.levelViews, List.flatMap_append,
    List.append_assoc, List.append_assoc, List.append_assoc, List.append_assoc]
  rfl

/-- The ids a load knows are those of the loaded slots, free or not. -/
theorem foldl_insert_ne_none {f : Flat} {slots : List Nat} (ids : IdMap) (i : Int) :
    slots.foldl (fun ids s => ids.insert (f.ord s).orderId (rowOf s)) ids i ≠ none ↔
      ids i ≠ none ∨ ∃ s ∈ slots, (f.ord s).orderId = i := by
  induction slots generalizing ids with
  | nil => simp
  | cons s slots ih =>
    have hinsert : ids.insert (f.ord s).orderId (rowOf s) i ≠ none ↔
        ids i ≠ none ∨ (f.ord s).orderId = i := by
      change (if i = (f.ord s).orderId then some (rowOf s) else ids i) ≠ none ↔ _
      by_cases e : i = (f.ord s).orderId
      · simp [e]
      · simp [e, Ne.symm e]
    rw [List.foldl_cons, ih, hinsert, List.exists_mem_cons_iff, or_assoc]

/-- What is loaded of the image of a memory with free slots. -/
theorem Loaded.flat_iff (hdb : db.Lawful) {r : UltimaBook db} {f : Flat} {L : Ledger}
    {q : Lane → Nat → List Nat} {fl : List Nat} {capacity : Nat}
    (hr : r.Loaded capacity f (List.range f.hwm)) (hrep : Rep f L q) (hfl : FreeList f L fl) :
    (digestUltima r.store r.version = .ok (L.digest f.grid f.bestBid f.bestAsk) ↔
      f.freeHead = NIL) ∧ ((∀ i, r.ids i ≠ none ↔ i ∈ L.ids) ↔ f.freeHead = NIL) := by
  have hcount := hfl.count
  have hd := hr.digest hdb hrep List.pairwise_lt_range
    (fun s hq => List.mem_range.mpr (hrep.queued_lt hq)) (by rw [List.length_range]; omega)
  have hids : ∀ i, r.ids i ≠ none ↔ ∃ s < f.hwm, (f.ord s).orderId = i := by
    intro i
    rw [hr.ids, foldl_insert_ne_none]
    simp [IdMap.empty]
  constructor
  · rw [hd, ← hfl.digest_iff hrep, Except.ok.injEq]
  · simp only [hids]
    exact hfl.ids_iff hrep

/-- A flat book with at most 65535 slots in use, and the load of its image. -/
theorem loads_flat (hdb : db.Lawful) (hg : cfg.grid.Ok) (hwf : WellFormed cfg [] ops)
    (hslots : SlotsFit [] ops) (hrun : Book.run ops (Book.new cfg) = .ok () b)
    (hhwm : b.hwm ≤ 65535) (crc32c : List UInt8 → UInt32) {buf : List UInt8}
    (hbuf : b.source.room ≤ buf.length) :
    ∃ f q fl data len r, Rep f (Ledger.after [] ops) q ∧ FreeList f (Ledger.after [] ops) fl ∧
      f.freeHead = b.freeHead ∧ b.encode crc32c buf = .ok (data, len) ∧
      restoreUltima db crc32c (data.take len) cfg = .ok r ∧
      r.Loaded (u32 cfg.cap) f (List.range f.hwm) ∧
      digestBook b = .ok ((Ledger.after [] ops).digest f.grid f.bestBid f.bestAsk) := by
  obtain ⟨f, hb, ⟨q, fl, hrep, hfl, hcap⟩, hgrid, hnarrow⟩ := HiPerf.reached hg hwf hslots hrun
  have hview : b.hwm = f.hwm ∧ f.freeHead = b.freeHead := by rw [← hb.view]; exact ⟨rfl, rfl⟩
  rw [hview.1] at hhwm
  obtain ⟨data, e, hdata⟩ := Encoder.encode_ok crc32c (Book.source_readable hb hrep hcap)
    (Book.noEmptyGroup hb hrep hhwm) hbuf
  have himage := hb.image_eq hnarrow hrep hcap hhwm
  have hle := hfl.head_le hrep.hwm_le
  have hlevels := Book.levelRecs_length_le hb hrep
  rw [hb.levelRecs_eq hnarrow] at hlevels
  have hplain : (f.image (u32 cfg.cap) (List.range f.hwm)).Plain :=
    Flat.image_plain hrep (u32_lt _) hle (fun s hs => by rw [List.mem_range] at hs; omega)
      (by rw [List.length_range]; omega) (by omega)
  obtain ⟨r, er, hr⟩ := restore_loaded hdb hrep hgrid hplain List.pairwise_lt_range crc32c
    SBE_SCHEMA_VERSION
  rw [Image.resealed_version, ← himage, ← hdata] at er
  exact ⟨f, q, fl, data, _, r, hrep, hfl, hview.2, e, er, hr, hb.digest hrep hcap hnarrow⟩

/-- The image of a flat book with at most 65535 slots in use is always taken. The
book of rows has the digest of the flat one, and knows the same ids, exactly if
the flat book has no free slot. -/
theorem from_flat_iff (hdb : db.Lawful) (hg : cfg.grid.Ok) (hwf : WellFormed cfg [] ops)
    (hslots : SlotsFit [] ops) (hrun : Book.run ops (Book.new cfg) = .ok () b)
    (hhwm : b.hwm ≤ 65535) (crc32c : List UInt8 → UInt32) {buf : List UInt8}
    (hbuf : b.source.room ≤ buf.length) :
    ∃ data len r d, b.encode crc32c buf = .ok (data, len) ∧
      restoreUltima db crc32c (data.take len) cfg = .ok r ∧ digestBook b = .ok d ∧
      (digestUltima r.store r.version = .ok d ↔ b.freeHead = NIL) ∧
      ((∀ i, r.ids i ≠ none ↔ i ∈ (Ledger.after [] ops).ids) ↔ b.freeHead = NIL) := by
  obtain ⟨f, q, fl, data, len, r, hrep, hfl, hfree, e, er, hr, hd⟩ :=
    loads_flat hdb hg hwf hslots hrun hhwm crc32c hbuf
  exact ⟨data, len, r, _, e, er, hd, hfree ▸ hr.flat_iff hdb hrep hfl⟩

theorem from_flat_iff_restingRun : ∃ b data len r d,
    Book.run restingRun (Book.new smallBook) = .ok () b ∧
    b.encode crc32c (List.replicate b.source.room 0) = .ok (data, len) ∧
    restoreUltima reference crc32c (data.take len) smallBook = .ok r ∧ digestBook b = .ok d ∧
    (digestUltima r.store r.version = .ok d ↔ b.freeHead = NIL) ∧
    ((∀ i, r.ids i ≠ none ↔ i ∈ (Ledger.after [] restingRun).ids) ↔ b.freeHead = NIL) := by
  have hwf : WellFormed smallBook [] restingRun := by decide
  obtain ⟨b, eb, hb⟩ := (Book.run_holds smallBook_ok rfl (Book.new_holds smallBook_ok) hwf
    (by decide)).1 _ (Book.new_shows smallBook)
  have hhwm : b.hwm ≤ 65535 := by
    have e : b.hwm = ((Book.new smallBook).view.steps restingRun).hwm := by rw [← hb.view]; rfl
    rw [e]
    decide
  obtain ⟨data, len, r, d, h⟩ := from_flat_iff reference_lawful smallBook_ok hwf
    (slotsFit_of_inserts (by decide)) eb hhwm crc32c (Nat.le_of_eq List.length_replicate.symm)
  exact ⟨b, data, len, r, d, eb, h⟩

/-- A bid that comes and goes leaves a free slot, which is loaded as an order. -/
theorem from_flat_freed : WellFormed smallBook [] [.insert 7 0 30 0, .cancel 7] ∧
    ∃ b data len r d, Book.run [.insert 7 0 30 0, .cancel 7] (Book.new smallBook) = .ok () b ∧
    b.hwm ≤ 65535 ∧ b.encode crc32c (List.replicate b.source.room 0) = .ok (data, len) ∧
    restoreUltima reference crc32c (data.take len) smallBook = .ok r ∧ digestBook b = .ok d ∧
    digestUltima r.store r.version ≠ .ok d ∧ b.idmap 0 = none ∧ r.ids 0 ≠ none := by
  have hwf : WellFormed smallBook [] [.insert 7 0 30 0, .cancel 7] := by decide
  obtain ⟨b, eb, hb⟩ := (Book.run_holds smallBook_ok rfl (Book.new_holds smallBook_ok) hwf
    (by decide)).1 _ (Book.new_shows smallBook)
  have hview : b.hwm ≤ 65535 ∧ b.freeHead ≠ NIL ∧ b.idmap 0 = none := by
    have e : b.hwm = b.view.hwm ∧ b.freeHead = b.view.freeHead ∧ b.idmap = b.view.ids :=
      ⟨rfl, rfl, rfl⟩
    rw [e.1, e.2.1, e.2.2, hb.view]
    decide
  obtain ⟨f, q, fl, data, len, r, hrep, hfl, hfree, e, er, hr, hd⟩ := loads_flat reference_lawful
    smallBook_ok hwf (slotsFit_of_inserts (by decide)) eb hview.1 crc32c
    (Nat.le_of_eq List.length_replicate.symm)
  have hne : f.freeHead ≠ NIL := hfree ▸ hview.2.1
  obtain ⟨hlt, hid⟩ := hfl.exists_free hne
  refine ⟨hwf, b, data, len, r, _, eb, hview.1, e, er, hd,
    mt (hr.flat_iff reference_lawful hrep hfl).1.mp hne, hview.2.2, ?_⟩
  rw [hr.ids]
  exact (foldl_insert_ne_none _ _).mpr (.inr ⟨_, List.mem_range.mpr hlt, hid⟩)

end UltimaBook

end HiPerf
