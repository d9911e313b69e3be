import HiPerf.Digest.Canonical

/-!
Two books with one digest, said of the arrays: which queues, aggregates and
orders they share, and that a root has the digest of the flat book.
-/

namespace HiPerf

open Machine Exec Fifo Bytes

namespace Book

/-- The order ids along the chain of a level. -/
def fifo (b : Book) (side t : Nat) : List Int :=
  (walk NIL (fun s => (b.slot s).next) b.pool.size (b.levelAt side t).head).map fun s =>
    (b.slot s).orderId

/-- `r` is what the book has under its id. -/
def Rests (b : Book) (r : Resting) : Prop :=
  ∃ s, b.idmap r.orderId = some s ∧ (b.slot s).resting = r

/-- Both books are the same to a caller: bests, queues, aggregates and orders. -/
structure SameAs (cfg : SmrConfig) (a b : Book) : Prop where
  bestBid : a.bestBid = b.bestBid
  bestAsk : a.bestAsk = b.bestAsk
  fifo : ∀ side ≤ 1, ∀ t < cfg.levels, a.fifo side t = b.fifo side t
  qtyTotal : ∀ side ≤ 1, ∀ t < cfg.levels,
    (a.levelAt side t).qtyTotal = (b.levelAt side t).qtyTotal
  count : ∀ side ≤ 1, ∀ t < cfg.levels, (a.levelAt side t).count = (b.levelAt side t).count
  resting : ∀ r, a.Rests r ↔ b.Rests r

variable {cfg : SmrConfig} {cap : Nat} {b : Book} {f : Flat} {L : Ledger} {q : Lane → Nat → List Nat}

theorem Shows.fifo_eq (hb : b.Shows cap f) (h : Rep f L q) (hcap : f.hwm ≤ cap) (side t : Nat) :
    b.fifo side t = (L.atLevel f.grid (laneOf side) t).ids := by
  have hl := h.queues (laneOf side) t
  have hlen := h.queues.length_le h.valid.nodup (laneOf side) t
  have hnext : (fun s => (b.slot s).next) = f.next := funext fun s => by rw [hb.slot_eq]; rfl
  have hids : (fun s => (b.slot s).orderId) = fun s => (f.ord s).orderId :=
    funext fun s => by rw [hb.slot_eq]
  rw [fifo, hnext, hids, hb.levelAt_eq, hb.pool, hl.fifo.chain.walk_eq (hlen.trans hcap), ← hl.recs,
    Ledger.ids, List.map_map]
  rfl

theorem Shows.rests_iff (hb : b.Shows cap f) (h : Rep f L q) (r : Resting) : b.Rests r ↔ r ∈ L := by
  have hids : b.idmap r.orderId = f.ids r.orderId := by rw [← hb.view]; rfl
  constructor
  · rintro ⟨s, hs, e⟩
    rw [hids] at hs
    rw [← e, hb.slot_eq]
    exact h.queued_mem ((h.ids _ s).mp hs).1
  · intro hr
    obtain ⟨s, hs, e⟩ := h.queues.exists_slot hr
    refine ⟨s, ?_, by rw [hb.slot_eq]; exact e⟩
    rw [hids]
    exact (h.ids _ s).mpr ⟨⟨_, _, hs⟩, congrArg Resting.orderId e⟩

theorem Shows.digest_order (hb : b.Shows cap f) {s : Nat} (hs : s < cap) :
    b.source.order s = some (f.ord s) := by
  have hlt : s < b.pool.size := by rw [hb.pool]; exact hs
  have e := hb.slot_eq s
  rw [slot, Array.getElem?_eq_getElem hlt] at e
  exact (Array.getElem?_eq_getElem hlt).trans (congrArg some e)

theorem Shows.digest_level (hb : b.Shows cap f) (hn : b.Narrow) (side : Nat) {t : Nat}
    (ht : t < f.grid.nLevels) : b.source.level side t = some (f.lvl (laneOf side) t) := by
  have hgrid : b.nLevels = f.grid.nLevels := by rw [← hb.view]; rfl
  have hlt : t < (b.lane side).size := by rw [hn.lane_size, hgrid]; exact ht
  have e := hb.levelAt_eq side t
  rw [levelAt, Array.getElem?_eq_getElem hlt] at e
  exact (Array.getElem?_eq_getElem hlt).trans (congrArg some e)

theorem Shows.digest_source (hb : b.Shows cap f) (h : Rep f L q) (hcap : f.hwm ≤ cap)
    (hn : b.Narrow) {room : Nat} (hroom : f.hwm ≤ room) :
    Digest.digest room b.source = .ok (L.digest f.grid f.bestBid f.bestAsk) := by
  have hgrid : b.nLevels = f.grid.nLevels := by rw [← hb.view]; rfl
  exact Digest.digest_eq h hroom (fun s hs => hb.digest_order (by omega))
    (fun side _ => (hn.lane_size side).trans hgrid) (fun side _ t ht => hb.digest_level hn side ht)
    (by rw [← hb.view]; rfl) (by rw [← hb.view]; rfl) (by rw [← hb.view]; rfl)

/-- A book that shows a memory holding `L` has the digest of `L`. -/
theorem Shows.digest (hb : b.Shows cap f) (h : Rep f L q) (hcap : f.hwm ≤ cap) (hn : b.Narrow) :
    digestBook b = .ok (L.digest f.grid f.bestBid f.bestAsk) :=
  hb.digest_source h hcap hn (by rw [hb.pool]; exact hcap)

end Book

namespace Ledger

variable {g : Grid} {L L' : Ledger}

theorem levelView_mem {side t n u : Nat} (hu : t ≤ u) (hlt : u < t + n)
    (hne : L.atLevel g (laneOf side) u ≠ []) : L.levelView g side u ∈ L.laneViews g side t n := by
  induction n generalizing t with
  | zero => omega
  | succ n ih =>
    rw [laneViews]
    by_cases e : u = t
    · subst e
      rw [if_neg hne]
      exact List.mem_cons_self
    · have := ih (t := t + 1) (by omega) (by omega)
      split
      · exact this
      · exact List.mem_cons_of_mem _ this

theorem laneViews_congr {side t n : Nat}
    (h : ∀ u, t ≤ u → u < t + n → L.levelView g side u = L'.levelView g side u) :
    L.laneViews g side t n = L'.laneViews g side t n := by
  induction n generalizing t with
  | zero => rfl
  | succ n ih =>
    have ht := h t (Nat.le_refl _) (by omega)
    have hempty : L.atLevel g (laneOf side) t = [] ↔ L'.atLevel g (laneOf side) t = [] := by
      have := congrArg LevelView.count ht
      simp only [levelView] at this
      rw [← List.length_eq_zero_iff, this, List.length_eq_zero_iff]
    rw [laneViews, laneViews, ih fun u hu hlt => h u (by omega) (by omega), ht]
    simp only [hempty]

theorem atLevel_perm (h : L.Perm L') (g : Grid) (x : Lane) (t : Nat) :
    (L.atLevel g x t).Perm (L'.atLevel g x t) := h.filter _

/-- The shown levels of two ledgers of the same orders agree level by level. -/
theorem levelViews_eq_iff (h : L.Perm L') : L.levelViews g = L'.levelViews g ↔
    ∀ side ≤ 1, ∀ t < g.nLevels, L.levelView g side t = L'.levelView g side t := by
  constructor
  · intro e side hside t ht
    have hp := atLevel_perm h g (laneOf side) t
    by_cases hne : L.atLevel g (laneOf side) t = []
    · have hne' : L'.atLevel g (laneOf side) t = [] := by rw [hne] at hp; exact hp.symm.eq_nil
      simp only [levelView, levelQty, hne, hne']
    · have hside' : side = 0 ∨ side = 1 := by omega
      have hmem : L.levelView g side t ∈ L.levelViews g := by
        have := levelView_mem (n := g.nLevels) (Nat.zero_le t) (by omega) hne
        rcases hside' with rfl | rfl
        · exact List.mem_append_left _ this
        · exact List.mem_append_right _ this
      rw [e] at hmem
      obtain ⟨side₁, u, eview⟩ : ∃ side₁ u, L.levelView g side t = L'.levelView g side₁ u := by
        rcases List.mem_append.mp hmem with hm | hm
        · obtain ⟨u, -, e⟩ := mem_laneViews hm
          exact ⟨0, u, e⟩
        · obtain ⟨u, -, e⟩ := mem_laneViews hm
          exact ⟨1, u, e⟩
      obtain rfl : side = side₁ := congrArg LevelView.side eview
      obtain rfl : t = u := congrArg LevelView.tick eview
      exact eview
  · intro hview
    rw [levelViews, levelViews,
      laneViews_congr fun u _ hu => hview 0 (by omega) u (by omega),
      laneViews_congr fun u _ hu => hview 1 (by omega) u (by omega)]

end Ledger

/-- Two books that hold ledgers have one digest exactly if they are the same. -/
theorem Book.Shows.sameAs_iff {cfg : SmrConfig} {a b : Book} {f f' : Flat} {L L' : Ledger}
    {q q' : Lane → Nat → List Nat} (ha : a.Shows cfg.cap f) (hb : b.Shows cfg.cap f')
    (h : Rep f L q) (h' : Rep f' L' q') (hcap : f.hwm ≤ cfg.cap) (hcap' : f'.hwm ≤ cfg.cap)
    (hg : f.grid = cfg.grid) (hg' : f'.grid = cfg.grid) :
    L.digest cfg.grid f.bestBid f.bestAsk = L'.digest cfg.grid f'.bestBid f'.bestAsk ↔
      a.SameAs cfg b := by
  have hle : ∀ {f : Flat} {L : Ledger} {q}, Rep f L q → L.length < 4294967296 := by
    intro f L q h
    have hlen := (Digest.live_perm h).length_eq
    have hlive : (Digest.liveSlots f 0 f.hwm).length ≤ f.hwm := by
      simpa [Digest.liveSlots] using
        List.length_filter_le (fun s => decide ((f.ord s).orderId ≠ 0)) (List.range' 0 f.hwm)
    have hnil := h.hwm_le
    simp only [List.length_map, NIL] at hlen hnil
    omega
  have hok : cfg.grid.Ok := hg ▸ h.grid_ok
  have hv : L.Valid cfg.grid := hg ▸ h.valid
  have hv' : L'.Valid cfg.grid := hg' ▸ h'.valid
  obtain ⟨hbid, hask⟩ := h.bests_i32
  obtain ⟨hbid', hask'⟩ := h'.bests_i32
  have ebid : a.bestBid = f.bestBid := by rw [← ha.view]; rfl
  have eask : a.bestAsk = f.bestAsk := by rw [← ha.view]; rfl
  have ebid' : b.bestBid = f'.bestBid := by rw [← hb.view]; rfl
  have eask' : b.bestAsk = f'.bestAsk := by rw [← hb.view]; rfl
  have hperm : L.Perm L' ↔ ∀ r, a.Rests r ↔ b.Rests r := by
    rw [List.perm_ext_iff_of_nodup hv.nodup.of_map hv'.nodup.of_map]
    simp only [ha.rests_iff h, hb.rests_iff h']
  -- a level view is what the arrays show at that level
  have hview : ∀ side t, L.levelView cfg.grid side t = L'.levelView cfg.grid side t ↔
      a.fifo side t = b.fifo side t ∧ (a.levelAt side t).qtyTotal = (b.levelAt side t).qtyTotal ∧
        (a.levelAt side t).count = (b.levelAt side t).count := by
    intro side t
    have hl := h.queues (laneOf side) t
    have hl' := h'.queues (laneOf side) t
    have hlen : (q (laneOf side) t).length = (L.atLevel cfg.grid (laneOf side) t).length := by
      rw [← hg, ← hl.recs, List.length_map]
    have hlen' : (q' (laneOf side) t).length = (L'.atLevel cfg.grid (laneOf side) t).length := by
      rw [← hg', ← hl'.recs, List.length_map]
    rw [ha.fifo_eq h hcap, hb.fifo_eq h' hcap', ha.levelAt_eq, hb.levelAt_eq, hl.qty, hl'.qty,
      hl.count, hl'.count, hlen, hlen', hg, hg']
    simp only [Ledger.levelView, LevelView.mk.injEq, true_and]
    tauto
  rw [Ledger.digest_inj hok hv hv' (hle h) (hle h') hbid hask hbid' hask']
  constructor
  · rintro ⟨⟨e₁, e₂⟩, elevels, ep⟩
    have hlevels := (Ledger.levelViews_eq_iff ep).mp elevels
    have hat := fun side hside t ht => (hview side t).mp (hlevels side hside t ht)
    exact ⟨by rw [ebid, ebid', e₁], by rw [eask, eask', e₂], fun side hs t ht => (hat side hs t ht).1,
      fun side hs t ht => (hat side hs t ht).2.1, fun side hs t ht => (hat side hs t ht).2.2,
      hperm.mp ep⟩
  · intro hs
    have ep := hperm.mpr hs.resting
    refine ⟨⟨by rw [← ebid, ← ebid', hs.bestBid], by rw [← eask, ← eask', hs.bestAsk]⟩, ?_, ep⟩
    refine (Ledger.levelViews_eq_iff ep).mpr fun side hside t ht => (hview side t).mpr ?_
    exact ⟨hs.fifo side hside t ht, hs.qtyTotal side hside t ht, hs.count side hside t ht⟩

/-- A root has the digest of the flat book of the same history. -/
theorem CowBook.Mirrors.digestRoot {cap : Nat} {w : CowBook} {b : Book} (h : Mirrors cap w b)
    (hn : b.Narrow) {f : Flat} {L : Ledger} {q : Lane → Nat → List Nat} (hb : b.Shows cap f)
    (hrep : Rep f L q) (hcap : f.hwm ≤ cap) :
    HiPerf.digestRoot w.root w.mem = digestBook b := by
  have hsource := @Mirrors.root_source cap w b h hn (fun _ => w.mem) (fun _ _ => rfl) fun _ _ _ => rfl
  have hroom : f.hwm ≤ (Epoch.places w.mem.orders w.root.orderChunks).length := by
    refine @Epoch.le_places _ w.mem.orders w.orderChunks w.chunk _ fun s hs => ?_
    have hlt : s < b.pool.size := by rw [hb.pool]; omega
    change w.order? s ≠ none
    rw [h.order s, Array.getElem?_eq_getElem hlt]
    exact Option.some_ne_none _
  rw [HiPerf.digestRoot, hsource, hb.digest hrep hcap hn, hb.digest_source hrep hcap hn hroom]

/-- For any two books reached by well-formed sequences in which fewer than
`u32::MAX` orders rest at each insert: both have digests, which are equal
exactly if the books are the same to a caller, and a root of a copy-on-write
book with the history of the first has the digest of the first. -/
theorem digest_canonical {cfg : SmrConfig} (hg : cfg.grid.Ok) {ops ops' : List Op} {a b : Book}
    (hwf : WellFormed cfg [] ops) (hwf' : WellFormed cfg [] ops') (hslots : SlotsFit [] ops)
    (hslots' : SlotsFit [] ops') (ha : Book.run ops (Book.new cfg) = .ok () a)
    (hb : Book.run ops' (Book.new cfg) = .ok () b) :
    (∃ d d', digestBook a = .ok d ∧ digestBook b = .ok d' ∧ (d = d' ↔ a.SameAs cfg b)) ∧
      ∀ calls w₀ w r w', CowCall.ops calls = ops → CowBook.new cfg = .ok w₀ →
        CowBook.run calls w₀ = .ok () w → CowBook.capture w = .ok r w' →
          digestRoot r w'.mem = digestBook a := by
  obtain ⟨f, hfa, ⟨q, fl, hrep, -, hcap⟩, hgrid, hna⟩ := reached hg hwf hslots ha
  obtain ⟨f', hfb, ⟨q', fl', hrep', -, hcap'⟩, hgrid', hnb⟩ := reached hg hwf' hslots' hb
  refine ⟨⟨_, _, hfa.digest hrep hcap hna, hfb.digest hrep' hcap' hnb, ?_⟩, ?_⟩
  · rw [hgrid, hgrid']
    exact hfa.sameAs_iff hfb hrep hrep' hcap hcap' hgrid hgrid'
  · intro calls w₀ w r w' hops hnew hrun hcapture
    have hchunk : 1 ≤ cfg.chunk := by
      by_contra hlt
      rw [CowBook.new, if_pos (by omega)] at hnew
      cases hnew
    obtain ⟨w₁, e₁, h₀⟩ := CowBook.new_mirrors hchunk
    rw [hnew] at e₁
    cases e₁
    obtain ⟨b₁, eb, h⟩ := (CowBook.run_tracks calls).forth h₀ hrun
    rw [hops, ha] at eb
    cases eb
    cases hcapture
    exact h.digestRoot hna hfa hrep hcap

theorem digest_canonical_smallRun : ∃ a b r, ∃ w' : CowBook,
    Book.run smallRun (Book.new smallBook) = .ok () a ∧
    Book.run [] (Book.new smallBook) = .ok () b ∧
    (∃ d d', digestBook a = .ok d ∧ digestBook b = .ok d' ∧ (d = d' ↔ a.SameAs smallBook b)) ∧
    digestRoot r w'.mem = digestBook a := by
  obtain ⟨b, e, -⟩ := (Book.run_holds smallBook_ok rfl (Book.new_holds smallBook_ok)
    smallRun_wellFormed smallRun_fits).1 _ (Book.new_shows smallBook)
  obtain ⟨w₀, e₀, h₀⟩ := CowBook.new_mirrors (show 1 ≤ smallBook.chunk by decide)
  obtain ⟨w, ew, -⟩ :=
    (CowBook.run_tracks CowBook.capturedRun).back (show smallBook.cap < 4294967296 by decide) h₀ e
  have h := @digest_canonical _ smallBook_ok smallRun [] _ _ smallRun_wellFormed trivial
    (smallRun_wellFormed.slotsFit (by decide)) trivial e rfl
  exact ⟨b, _, _, _, e, rfl, h.1, h.2 CowBook.capturedRun w₀ w _ _ rfl e₀ ew rfl⟩

/-- The order whose slot is the sentinel changes no slot that can be read. -/
theorem hugePool_ord {f : Flat} (hh : f.Holds hugePool.cap (Ledger.after [] (bidsUpTo NIL)))
    (hhwm : f.hwm = NIL) (hfree : f.freeHead = NIL) (r : Resting) {s : Nat} (hs : s ≠ NIL) :
    (f.insert r).ord s = f.ord s := by
  obtain ⟨q, fl, hrep, -, -⟩ := hh
  have hslot : f.nextSlot = NIL := by rw [Flat.nextSlot, if_neg (not_not.mpr hfree), hhwm]
  change (f.alloc.place f.nextSlot r).ord s = f.ord s
  rw [place_ord, hslot, alloc_ord, alloc_lvl, alloc_grid]
  dsimp only
  rw [if_neg hs]
  split
  · rename_i ht
    -- the tail had no successor, and still has none
    have hnext := (hrep.queues (laneOf r.side) (f.grid.tickOf r.price)).fifo.tail_next ht.2
    rw [← ht.1] at hnext
    change (f.ord s).next = NIL at hnext
    rw [← hnext]
  · rfl

/-- So the digest does not tell which order that is. -/
theorem hugePool_digest {f : Flat} (hh : f.Holds hugePool.cap (Ledger.after [] (bidsUpTo NIL)))
    (hgrid : f.grid = hugePool.grid) (hhwm : f.hwm = NIL) (hfree : f.freeHead = NIL) :
    ∃ d, ∀ orderId (b : Book), b.Shows hugePool.cap (f.insert ⟨orderId, 0, 1, 0, 0⟩) → b.Narrow →
      digestBook b = .ok d := by
  obtain ⟨q, fl, hrep, -, hcap⟩ := id hh
  have hl := hrep.queues .bid 0
  have hslot : f.nextSlot = NIL := by rw [Flat.nextSlot, if_neg (not_not.mpr hfree), hhwm]
  have htick : f.grid.tickOf 0 = 0 := by rw [hgrid]; decide
  have hlen := hrep.queues.length_le hrep.valid.nodup .bid 0
  have hlevels : f.grid.nLevels = 1 := by rw [hgrid]; rfl
  refine ⟨bytes ([(4, u32 (f.noteBest 0 0).bestBid), (4, u32 (f.noteBest 0 0).bestAsk), (4, 0)] ++
    (Digest.putLevel 0 0 (i64 ((f.lvl .bid 0).qtyTotal + 1)) (u32 ((f.lvl .bid 0).count + 1)) ++
      (q .bid 0).map fun s => (8, u64 (f.ord s).orderId)) ++ []), fun orderId b hb hn => ?_⟩
  have horder : ∀ s ∈ q .bid 0, b.source.order s = some (f.ord s) := by
    intro s hs
    have hlt := hrep.queued_lt ⟨_, _, hs⟩
    rw [hb.digest_order (Nat.lt_of_lt_of_le hlt hcap),
      hugePool_ord hh hhwm hfree _ (hrep.queued_ne_nil ⟨_, _, hs⟩)]
  have hwalk := @Digest.walk_eq b.source.order f .indexOutOfBounds _ _ (b.pool.size + 1) hl.fifo.chain
    (by rw [hb.pool]; omega) horder
  have htail : (f.lvl .bid 0).tail ≠ NIL := by
    have hmem : (⟨1, 0, 1, 0, 0⟩ : Resting) ∈ Ledger.after [] (bidsUpTo NIL) := by
      rw [after_bidsUpTo]
      exact List.mem_map.mpr ⟨0, List.mem_range.mpr (by decide), rfl⟩
    obtain ⟨s, hs, -⟩ := hrep.queues.exists_slot hmem
    rw [htick] at hs
    exact fun e => List.ne_nil_of_mem hs (hl.fifo.tail_eq_nil_iff.mp e)
  have hhead : (f.lvl .bid 0).head ≠ NIL := fun e =>
    htail (hl.fifo.tail_eq_nil_iff.mpr (hl.fifo.head_eq_nil_iff.mp e))
  have hbid : (f.insert ⟨orderId, 0, 1, 0, 0⟩).lvl (laneOf 0) 0 =
      ⟨(f.lvl .bid 0).head, NIL, i64 ((f.lvl .bid 0).qtyTotal + 1), u32 ((f.lvl .bid 0).count + 1)⟩ := by
    change (f.alloc.place f.nextSlot ⟨orderId, 0, 1, 0, 0⟩).lvl (laneOf 0) 0 = _
    simp [Flat.place, Flat.linkNext, Flat.setLvl, Flat.setOrd, htick, hslot, laneOf, htail]
  have hask : (f.insert ⟨orderId, 0, 1, 0, 0⟩).lvl (laneOf 1) 0 = f.lvl .ask 0 := by
    change (f.alloc.place f.nextSlot ⟨orderId, 0, 1, 0, 0⟩).lvl (laneOf 1) 0 = _
    rw [place_lvl_ne _ _ _ (by simp [laneOf]), alloc_lvl]
    rfl
  have hnone : (f.lvl .ask 0).head = NIL := by
    by_contra hne
    refine (hrep.queues.occupied_iff .ask 0).mp hne (List.filter_eq_nil_iff.mpr fun r hr => ?_)
    rw [after_bidsUpTo] at hr
    obtain ⟨i, -, rfl⟩ := List.mem_map.mp hr
    simp [Resting.At, laneOf]
  have hone : (f.insert ⟨orderId, 0, 1, 0, 0⟩).grid.nLevels = 1 := by
    change f.alloc.grid.nLevels = 1
    rw [alloc_grid, hlevels]
  have hwidth : ∀ side, b.source.width side = 1 := fun side => by
    rw [← hone, ← hb.view]
    exact hn.lane_size side
  have hlane₀ : Digest.lane b.source.order b.pool.size 0 (b.source.level 0) 0 1 =
      .ok (Digest.putLevel 0 0 (i64 ((f.lvl .bid 0).qtyTotal + 1)) (u32 ((f.lvl .bid 0).count + 1)) ++
        (q .bid 0).map (fun s => (8, u64 (f.ord s).orderId)) ++ []) := by
    rw [Digest.lane, hb.digest_level hn 0 (by omega), hbid]
    change (if _ then _ else _) = _
    rw [if_neg hhead, hwalk]
    rfl
  have hlane₁ : Digest.lane b.source.order b.pool.size 1 (b.source.level 1) 0 1 = .ok [] := by
    rw [Digest.lane, hb.digest_level hn 1 (by omega), hask]
    change (if _ then _ else _) = _
    rw [if_pos hnone]
    rfl
  have hzero : b.source.scalars.hwm = 0 := by
    change b.hwm = 0
    rw [hb.hwm_eq, insert_hwm, Flat.alloc, if_neg (not_not.mpr hfree), hhwm]
    rfl
  have hbests : b.source.scalars.bestBid = (f.noteBest 0 0).bestBid ∧
      b.source.scalars.bestAsk = (f.noteBest 0 0).bestAsk := by
    have ebid : b.bestBid = (f.insert ⟨orderId, 0, 1, 0, 0⟩).bestBid := by rw [← hb.view]; rfl
    have eask : b.bestAsk = (f.insert ⟨orderId, 0, 1, 0, 0⟩).bestAsk := by rw [← hb.view]; rfl
    change b.bestBid = _ ∧ b.bestAsk = _
    rw [ebid, eask, ← htick, ← alloc_grid f]
    simp only [Flat.noteBest, ← alloc_bestBid f, ← alloc_bestAsk f]
    exact ⟨rfl, rfl⟩
  rw [digestBook, Digest.digest, hzero, hwidth 0, hwidth 1, hbests.1, hbests.2]
  change (Digest.lane _ _ _ _ _ _ >>= _) = _
  rw [hlane₀]
  change (Digest.lane _ _ _ _ _ _ >>= _) = _
  rw [hlane₁]
  change Except.ok _ = _
  simp [Digest.sortUnstable]

/-- The bound on the resting orders is needed: where one more order rests than
there are slot numbers, the digest does not show it, whichever it is. -/
theorem not_canonical_hugePool : hugePool.grid.Ok ∧
    WellFormed hugePool [] (bidsUpTo NIL ++ [.insert (NIL + 1) 0 1 0]) ∧
    WellFormed hugePool [] (bidsUpTo NIL ++ [.insert (NIL + 2) 0 1 0]) ∧
    ∃ a b d,
      Book.run (bidsUpTo NIL ++ [.insert (NIL + 1) 0 1 0]) (Book.new hugePool) = .ok () a ∧
      Book.run (bidsUpTo NIL ++ [.insert (NIL + 2) 0 1 0]) (Book.new hugePool) = .ok () b ∧
      digestBook a = .ok d ∧ digestBook b = .ok d ∧ ¬ a.SameAs hugePool b := by
  obtain ⟨f, b, hh, hgrid, hhwm, hfree, e, hb, hlast⟩ := hugePool_last
  obtain ⟨d, hd⟩ := hugePool_digest hh hgrid hhwm hfree
  obtain ⟨q, fl, hrep, -, -⟩ := hh
  have hslot : f.nextSlot = NIL := by rw [Flat.nextSlot, if_neg (not_not.mpr hfree), hhwm]
  have hwf : ∀ orderId : Int, NIL < orderId → orderId ≤ 4294967297 →
      WellFormed hugePool [] (bidsUpTo NIL ++ [.insert orderId 0 1 0]) := by
    intro orderId hlt hle
    refine wellFormed_concat.mpr ⟨bidsUpTo_wellFormed (by decide), ?_⟩
    rw [bidsUpTo_eq]
    exact bidsAt_next_wellFormed hugePool_ok (by decide) (by decide) hlt hle
  have hrun : ∀ orderId b', Book.apply (.insert orderId 0 1 0) b = .ok () b' →
      Book.run (bidsUpTo NIL ++ [.insert orderId 0 1 0]) (Book.new hugePool) = .ok () b' :=
    fun _ b' e' => runAll_append_eq_ok.mpr ⟨b, e, runAll_cons_eq_ok.mpr ⟨b', e', rfl⟩⟩
  obtain ⟨b₁, e₁, h₁⟩ := hlast (NIL + 1)
  obtain ⟨b₂, e₂, h₂⟩ := hlast (NIL + 2)
  have hids : ∀ (c : Book) (k : Int), c.Shows hugePool.cap (f.insert ⟨k, 0, 1, 0, 0⟩) →
      ∀ i, c.idmap i = if i = k then some NIL else f.ids i := by
    intro c k hc i
    rw [← hslot, ← alloc_ids f]
    have : c.idmap = (f.insert ⟨k, 0, 1, 0, 0⟩).ids := by rw [← hc.view]; rfl
    rw [this]
    rfl
  refine ⟨hugePool_ok, hwf _ (by omega) (by decide), hwf _ (by omega) (by decide), b₁, b₂, d,
    hrun _ _ e₁, hrun _ _ e₂, hd _ _ h₁ (CowBook.run_narrow (hrun _ _ e₁)),
    hd _ _ h₂ (CowBook.run_narrow (hrun _ _ e₂)), fun hsame => ?_⟩
  have hrests : b₁.Rests ⟨NIL + 1, 0, 1, 0, 0⟩ := by
    refine ⟨NIL, by rw [hids _ _ h₁, if_pos rfl], ?_⟩
    rw [h₁.slot_eq]
    change ((f.alloc.place f.nextSlot _).ord NIL).resting = _
    rw [place_ord, hslot]
    simp [Order.resting, alloc_lvl, eq_comm]
  obtain ⟨s, hs, -⟩ := (hsame.resting _).mp hrests
  rw [hids _ _ h₂, if_neg (by simp)] at hs
  obtain ⟨hq, hid⟩ := (hrep.ids _ s).mp hs
  have hmem : (f.ord s).orderId ∈ (Ledger.after [] (bidsUpTo NIL)).ids :=
    List.mem_map_of_mem (hrep.queued_mem hq)
  rw [hid, after_bidsUpTo, Ledger.ids, List.map_map] at hmem
  obtain ⟨i, hi, ei⟩ := List.mem_map.mp hmem
  have := List.mem_range.mp hi
  simp only [Function.comp_apply] at ei
  omega

end HiPerf
