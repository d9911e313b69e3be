import HiPerf.Go.Agree
import HiPerf.Java.Calls

/-!
The Java book and the Rust book after the same calls.
-/

namespace HiPerf.Java

open Machine Exec HashMaps

variable {om : Long2ObjectHashMap Int}

/-- What a caller of either book sees, and the slots that were used. -/
structure Alike (j : Book om) (b : HiPerf.Book) : Prop where
  bids : j.bids = b.bids.map shownLevel
  asks : j.asks = b.asks.map shownLevel
  hwm : j.hwm = b.hwm
  freeHead : j.freeHead = int b.freeHead
  bestBid : j.bestBid = b.bestBid
  bestAsk : j.bestAsk = b.bestAsk
  pool : j.pool.size = b.pool.size
  order : ∀ s < b.hwm, j.pool[s]? = b.pool[s]?.map (shown s)
  slot : ∀ orderId, om.get j.ids orderId = (b.idmap orderId).map Int.ofNat

theorem Rows.ext {ls : Array Level} {ls' : Array PriceLevel} {n : Nat} {lvl : Nat → PriceLevel}
    (h : Rows ls n lvl) (hsize : ls'.size = n) (hlvl : ∀ t, ls'[t]?.getD PriceLevel.EMPTY = lvl t) :
    ls = ls'.map shownLevel := by
  apply Array.ext_getElem?
  intro t
  rw [Array.getElem?_map]
  by_cases ht : t < n
  · rw [h.get t ht, ← hlvl t, Array.getElem?_eq_getElem (hsize.symm ▸ ht), Option.getD_some,
      Option.map_some]
  · rw [Array.getElem?_eq_none (h.size.trans_le (Nat.le_of_not_lt ht)),
      Array.getElem?_eq_none (hsize.trans_le (Nat.le_of_not_lt ht)), Option.map_none]

namespace Book

variable {cap s : Nat} {f : Flat} {L : Ledger} {cfg : SmrConfig} {ops : List Op}
  {q : Lane → Nat → List Nat}

/-- Books that show one memory are alike. -/
theorem Shows.alike {j : Book om} {b : HiPerf.Book} (hj : j.Shows cap (f.hwm, f)) (hb : b.Shows cap f)
    (hnarrow : b.Narrow) (hcap : f.hwm ≤ cap) : Alike j b := by
  obtain ⟨rfl, hpool, -, -⟩ := hb
  have hpool' : j.pool.size = cap := hj.pool
  exact {
    bids := hj.bids.ext hnarrow.bids fun _ => rfl
    asks := hj.asks.ext hnarrow.asks fun _ => rfl
    hwm := hj.hwm
    freeHead := hj.freeHead
    bestBid := hj.bestBid
    bestAsk := hj.bestAsk
    pool := hpool'.trans hpool.symm
    order := fun s hs => by
      have hlt : s < b.pool.size := hpool.symm ▸ Nat.lt_of_lt_of_le hs hcap
      have hord : b.view.ord s = b.pool[s] := by
        simp only [HiPerf.Book.view, Array.getElem?_eq_getElem hlt, Option.getD_some]
      rw [hj.order s hs, Array.getElem?_eq_getElem hlt, hord, Option.map_some]
    slot := hj.ids }

/-- The memory stays in step with the ledger while the book makes any calls it can carry
out. -/
theorem run_ready {grid : Grid} (hm : om.Lawful) (hcap : cap ≤ 536870912) (hfg : f.grid = grid)
    (h : f.Holds cap L) (hready : Ready cap grid L ops) :
    Runs (@Shows om cap) (run ops) (f.hwm, f) () ((f.steps ops).hwm, f.steps ops) ∧
      (f.steps ops).Holds cap (L.after ops) := by
  induction ops generalizing f L with
  | nil => exact ⟨Runs.pure _, h⟩
  | cons op ops ih =>
    have hop : op.Ready cap f.grid L := hfg ▸ hready.1
    obtain ⟨hrun, hholds⟩ := ih ((f.step_grid op).trans hfg) (h.step hop) hready.2
    exact ⟨(apply_runs hm hcap h hop).bind hrun, hholds⟩

theorem newBook_shows (hm : om.Lawful) (cfg : SmrConfig) (hcap : cfg.cap ≤ 536870912) :
    ∃ j, newBook om cfg = .ok j ∧ j.Shows cfg.cap (0, (HiPerf.Book.new cfg).view) := by
  obtain ⟨ids, e, hnone⟩ := newBook_ok hm hcap
  refine ⟨emptyBook cfg ids, e, ?_⟩
  obtain ⟨-, hlvl⟩ := HiPerf.Book.new_blank cfg
  have hempty : newLevel = shownLevel PriceLevel.EMPTY := by
    rw [shownLevel, PriceLevel.EMPTY, int_nil, newLevel]
    unfold int
    rfl
  have hrows : ∀ x, Rows (Array.replicate cfg.levels newLevel) cfg.levels
      ((HiPerf.Book.new cfg).view.lvl x) := by
    intro x
    refine ⟨Array.size_replicate, fun t ht => ?_⟩
    rw [Array.getElem?_replicate, if_pos ht, hlvl, hempty]
  exact {
    priceMin := rfl
    tick := rfl
    nLevels := rfl
    pool := Array.size_replicate
    order := fun s hs => absurd hs (Nat.not_lt_zero s)
    bids := hrows .bid
    asks := hrows .ask
    hwm := rfl
    freeHead := int_nil.symm
    bestBid := rfl
    bestAsk := rfl
    ids := fun k => hnone k }

theorem indexed_mem (h : Rep f L q) (hs : s ≤ f.hwm) {k : Int}
    (hk : Go.Book.indexed f s k ≠ none) : k ∈ L.ids := by
  obtain ⟨slot, e⟩ := Option.ne_none_iff_exists'.mp hk
  obtain ⟨hlt, rfl, hne⟩ := (Go.Book.indexed_eq_some h hs k slot).mp e
  exact List.mem_map_of_mem (h.queued_mem (h.live slot (Nat.lt_of_lt_of_le hlt hs) hne))

/-- The ids of the slots that were looked at are put, all of them of resting orders. -/
theorem indexSlots_runs (hm : om.Lawful) (h : Rep f L q) (hlen : L.length ≤ 536870912) {k : Nat}
    (hs : s + k = f.hwm) :
    Runs (@Shows om cap) (indexSlots s k) (f.hwm, f.setIds (Go.Book.indexed f s)) ()
      (f.hwm, f.setIds (Go.Book.indexed f f.hwm)) := by
  induction k generalizing s with
  | zero =>
    obtain rfl : s = f.hwm := hs
    exact Runs.pure _
  | succ k ih =>
    have hlt : s < f.hwm := by omega
    have hrest := @ih (s + 1) (by omega)
    unfold indexSlots
    apply (order_runs (f := f.setIds (Go.Book.indexed f s)) hlt).bind
    refine Runs.ite (fun hlive => ?_) fun hlive => ?_
    · have hnext : Go.Book.indexed f (s + 1) =
          (Go.Book.indexed f s).insert (f.ord s).orderId s := if_pos hlive
      rw [hnext] at hrest
      have hmem : (f.ord s).orderId ∈ L.ids := List.mem_map_of_mem (h.queued_mem (h.live s hlt hlive))
      have hput := Nat.le_trans (putKey_length_of_mem hmem) ((List.length_map _).trans_le hlen)
      have hkeys : ∀ k, Go.Book.indexed f s k ≠ none → k ∈ L.ids := fun k hk => indexed_mem h hlt.le hk
      exact (putId_runs hm (f := f.setIds (Go.Book.indexed f s)) hkeys hput s).bind hrest
    · have hnext : Go.Book.indexed f (s + 1) = Go.Book.indexed f s := if_neg hlive
      rw [hnext] at hrest
      exact hrest

/-- The map is built anew, whatever it was, and nothing else changes. -/
theorem rebuildIds_runs (hm : om.Lawful) (hcap : cap ≤ 536870912) (h : f.Holds cap L)
    (ids : HiPerf.IdMap) :
    Runs (@Shows om cap) rebuildIds (f.hwm, f.setIds ids) () (f.hwm, f) := by
  obtain ⟨q, fl, hrep, hfl, hmark⟩ := h
  have hcount := hfl.count
  have hindex := @indexSlots_runs om cap 0 f L q hm hrep (by omega) f.hwm (Nat.zero_add _)
  rw [Go.Book.indexed_hwm hrep] at hindex
  have hclear : Runs (@Shows om cap)
      (modify fun b => { b with ids := om.clear b.ids } : Run (Book om) Unit)
      (f.hwm, f.setIds ids) () (f.hwm, f.setIds HiPerf.IdMap.empty) := by
    apply Runs.modify
    intro b hb
    exact { hb with ids := hm.clear_get b.ids }
  unfold rebuildIds
  apply hclear.bind
  apply Runs.get_bind
  intro b hb
  have hhwm : b.hwm = f.hwm := hb.hwm
  rw [hhwm, Int.toNat_natCast]
  exact hindex

end Book

/-- After any well-formed calls the two books are alike, and so they are once the Java book has
built its id map anew. -/
theorem book_agrees {cfg : SmrConfig} {ops : List Op} (hm : om.Lawful) (hg : cfg.grid.Ok)
    (hcap : cfg.cap ≤ 536870912) (hwf : WellFormed cfg [] ops) (hfit : Fits cfg [] ops) :
    ∃ j₀ j b j', newBook om cfg = .ok j₀ ∧ Book.run ops j₀ = .ok () j ∧
      HiPerf.Book.run ops (HiPerf.Book.new cfg) = .ok () b ∧ Alike j b ∧
      Book.rebuildIds j = .ok () j' ∧ Alike j' b := by
  have hholds := HiPerf.Book.new_holds hg
  obtain ⟨hrun, hjava⟩ := Book.run_ready (f := (HiPerf.Book.new cfg).view) hm hcap rfl hholds
    (hwf.ready hg hfit)
  obtain ⟨hrust, hend, -⟩ := HiPerf.Book.run_holds hg rfl hholds hwf hfit
  obtain ⟨j₀, e₀, hnew⟩ := Book.newBook_shows hm cfg hcap
  obtain ⟨j, e, hshows⟩ := hrun _ hnew
  obtain ⟨b, e', hb⟩ := hrust _ (HiPerf.Book.new_shows cfg)
  obtain ⟨j', e'', hshows'⟩ := Book.rebuildIds_runs hm hcap hend _ j hshows
  have hshape := HiPerf.Book.run_shaped ops (HiPerf.Book.new cfg)
  rw [last_ok e'] at hshape
  have hnarrow := (HiPerf.Book.new_narrow cfg).of_shape hshape
  obtain ⟨q, fl, -, -, hmark⟩ := hend
  exact ⟨j₀, j, b, j', e₀, e, e', hshows.alike hb hnarrow hmark, e'',
    hshows'.alike hb hnarrow hmark⟩

theorem book_agrees_smallRun : ∃ j₀ j b j', newBook (referenceObjects Int) smallBook = .ok j₀ ∧
    Book.run smallRun j₀ = .ok () j ∧
    HiPerf.Book.run smallRun (HiPerf.Book.new smallBook) = .ok () b ∧ Alike j b ∧
    Book.rebuildIds j = .ok () j' ∧ Alike j' b :=
  book_agrees (referenceObjects_lawful Int) smallBook_ok (by decide) smallRun_wellFormed
    smallRun_fits

end HiPerf.Java
