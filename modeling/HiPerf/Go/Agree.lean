import HiPerf.Book.Invariant
import HiPerf.Go.Calls

/-!
The Go book and the Rust book after the same calls, and the id map that is built anew from
the pool.
-/

namespace HiPerf.Go

open Machine Exec

/-- What the id map should answer: the last value put for each key since its last removal. -/
def answer (ops : List IdOp) : Int → Option Nat :=
  ops.foldl (fun known op => match op with
    | .put k v => fun x => if x = k then some v else known x
    | .get _ => known
    | .del k => fun x => if x = k then none else known x) fun _ => none

theorem contents_answer (ops : List IdOp) (k : Int) : (contents ops).valueOf k = answer ops k := by
  induction ops using List.reverseRecOn generalizing k with
  | nil => rfl
  | append_singleton ops op ih =>
    have hcontents : contents (ops ++ [op]) = op.after (contents ops) := List.foldl_append
    rw [hcontents, answer, List.foldl_append, List.foldl_cons, List.foldl_nil, ← answer]
    cases op with
    | put k' v =>
      rw [IdOp.after, Contents.valueOf_put]
      dsimp only
      rw [ih]
    | get k' => exact ih k
    | del k' =>
      rw [IdOp.after, Contents.valueOf_del]
      dsimp only
      rw [ih]

/-- Whatever the calls, all loops end, no key has two places, and a get finds what was last
put. -/
theorem idMap_refines {capacity : Int} {ops : List IdOp} (hpos : 1 ≤ capacity)
    (hcap : capacity ≤ 2305843009213693952) (hops : Allowed capacity [] ops) :
    ∃ m₀ m, newIDMap capacity = some m₀ ∧ m₀.run ops = some m ∧
      (∀ k, m.get k = some ((answer ops k).getD NIL)) ∧
      ∀ p p' k, m.keyAt p = some k → m.keyAt p' = some k → p = p' := by
  obtain ⟨m₀, n, hnew, h₀, hroom⟩ := newIDMap_holds hpos hcap
  obtain ⟨m, e, -, h, hlen⟩ := h₀.run (Int.le_trans (by decide) hpos) hroom hops
  refine ⟨m₀, m, hnew, e, fun k => ?_, fun p p' k hp hp' => ?_⟩
  · rw [h.get (by omega), ← contents_answer]
    rfl
  · have hplace : ∀ p, m.keyAt p = some k → p < n := fun p hp => by
      have hget := (IdMap.keyAt_eq_some.mp hp).1
      rw [← h.fits.keys]
      exact (Array.getElem?_eq_some_iff.mp hget).1
    exact h.settled.injective h.fits.ideal_lt (hplace p hp) (hplace p' hp') hp hp'

theorem idMap_refines_two : Allowed 2 [] [.put 1 7, .put 2 8, .del 1, .put 2 9] ∧
    ∃ m₀ m, newIDMap 2 = some m₀ ∧ m₀.run [.put 1 7, .put 2 8, .del 1, .put 2 9] = some m ∧
      (∀ k, m.get k = some ((answer [.put 1 7, .put 2 8, .del 1, .put 2 9] k).getD NIL)) ∧
      ∀ p p' k, m.keyAt p = some k → m.keyAt p' = some k → p = p' :=
  have hops : Allowed 2 [] [.put 1 7, .put 2 8, .del 1, .put 2 9] := by
    refine ⟨?_, ?_, ?_, ?_, ?_, ?_, ?_, ?_, trivial⟩ <;> decide
  ⟨hops, idMap_refines (by decide) (by decide) hops⟩

/-- What a caller of either book sees, and the slots that were used. -/
structure Alike (g : Book) (b : HiPerf.Book) : Prop where
  bids : g.bids = b.bids
  asks : g.asks = b.asks
  hwm : g.hwm = b.hwm
  freeHead : g.freeHead = b.freeHead
  bestBid : g.bestBid = b.bestBid
  bestAsk : g.bestAsk = b.bestAsk
  pool : g.pool.size = b.pool.size
  order : ∀ s < b.hwm, g.pool[s]? = b.pool[s]?
  slot : ∀ orderId, g.ids.get orderId = some ((b.idmap orderId).getD NIL)

theorem Rows.ext {ls ls' : Array PriceLevel} {n : Nat} {lvl : Nat → PriceLevel} (h : Rows ls n lvl)
    (hsize : ls'.size = n) (hlvl : ∀ t, ls'[t]?.getD PriceLevel.EMPTY = lvl t) : ls = ls' := by
  refine Array.ext_getElem? fun t => ?_
  by_cases ht : t < n
  · rw [h.get t ht, ← hlvl t, Array.getElem?_eq_getElem (hsize.symm ▸ ht), Option.getD_some]
  · rw [Array.getElem?_eq_none (h.size.trans_le (Nat.le_of_not_lt ht)),
      Array.getElem?_eq_none (hsize.trans_le (Nat.le_of_not_lt ht))]

namespace Book

variable {cap size : Nat} {f : Flat} {L : Ledger} {cfg : SmrConfig} {ops : List Op}

/-- Books that show one memory are alike. -/
theorem Shows.alike {g : Book} {b : HiPerf.Book} (hg : g.Shows cap size (f.hwm, f))
    (hb : b.Shows cap f) (hnarrow : b.Narrow) (hfew : Few size f.ids) (hcap : f.hwm ≤ cap) :
    Alike g b := by
  obtain ⟨rfl, hpool, -, -⟩ := hb
  have hpool' : g.pool.size = cap := hg.pool
  exact {
    bids := hg.bids.ext hnarrow.bids fun _ => rfl
    asks := hg.asks.ext hnarrow.asks fun _ => rfl
    hwm := hg.hwm
    freeHead := hg.freeHead
    bestBid := hg.bestBid
    bestAsk := hg.bestAsk
    pool := hpool'.trans hpool.symm
    order := fun s hs => by
      have hlt : s < b.pool.size := hpool.symm ▸ Nat.lt_of_lt_of_le hs hcap
      have hord : b.view.ord s = b.pool[s] := by
        simp only [HiPerf.Book.view, Array.getElem?_eq_getElem hlt, Option.getD_some]
      rw [hg.order s hs, Array.getElem?_eq_getElem hlt, hord]
    slot := fun orderId => hg.ids.get hfew orderId }

/-- The memory stays in step with the ledger while the book makes any calls it can carry
out. -/
theorem run_ready {grid : Grid} (hfg : f.grid = grid) (h : f.Holds cap L) (hsize : cap < size)
    (hready : Ready cap grid L ops) :
    Runs (Shows cap size) (run ops) (f.hwm, f) () ((f.steps ops).hwm, f.steps ops) ∧
      (f.steps ops).Holds cap (L.after ops) := by
  induction ops generalizing f L with
  | nil => exact ⟨Runs.pure _, h⟩
  | cons op ops ih =>
    have hop : op.Ready cap f.grid L := hfg ▸ hready.1
    obtain ⟨hrun, hholds⟩ := ih ((f.step_grid op).trans hfg) (h.step hop) hready.2
    exact ⟨(apply_runs h hsize hop).bind hrun, hholds⟩

theorem newBook_shows (hpos : 1 ≤ cfg.cap) (hcap : cfg.cap ≤ 2305843009213693952) :
    ∃ g m size, newBook cfg = some g ∧ newIDMap cfg.cap = some m ∧ m.Holds size [] ∧
      cfg.cap < size ∧ g.Shows cfg.cap size (0, (HiPerf.Book.new cfg).view) := by
  obtain ⟨m, n, hnew, hm, hroom⟩ := @newIDMap_holds cfg.cap (by omega) (by omega)
  obtain ⟨-, hlvl⟩ := HiPerf.Book.new_blank cfg
  have hrows : ∀ x, Rows (Array.replicate cfg.levels ⟨NIL, NIL, 0, 0⟩) cfg.levels
      ((HiPerf.Book.new cfg).view.lvl x) := fun x =>
    ⟨Array.size_replicate, fun t ht => by
      rw [Array.getElem?_replicate, if_pos ht, hlvl]
      rfl⟩
  refine ⟨_, m, n, by rw [newBook, hnew]; rfl, hnew, hm, by omega, ?_⟩
  exact {
    priceMin := rfl
    tick := rfl
    nLevels := rfl
    pool := Array.size_replicate
    order := nofun
    bids := hrows .bid
    asks := hrows .ask
    hwm := rfl
    freeHead := rfl
    bestBid := rfl
    bestAsk := rfl
    ids := ⟨[], hm, fun _ => rfl⟩ }

/-- The ids of the live slots below a slot. -/
def indexed (f : Flat) : Nat → HiPerf.IdMap
  | 0 => HiPerf.IdMap.empty
  | s + 1 =>
    if (f.ord s).orderId ≠ 0 then (indexed f s).insert (f.ord s).orderId s else indexed f s

variable {q : Lane → Nat → List Nat} {s : Nat}

theorem indexed_eq_some (h : Rep f L q) (hs : s ≤ f.hwm) (k : Int) (slot : Nat) :
    indexed f s k = some slot ↔ slot < s ∧ (f.ord slot).orderId = k ∧ k ≠ 0 := by
  induction s with
  | zero => exact ⟨nofun, fun hlt => absurd hlt.1 (Nat.not_lt_zero _)⟩
  | succ s ih =>
    have ih := ih (Nat.le_of_succ_le hs)
    have hqueued : ∀ s < f.hwm, (f.ord s).orderId ≠ 0 → Queued q s := h.live
    rw [indexed]
    by_cases hlive : (f.ord s).orderId ≠ 0
    · rw [if_pos hlive, HiPerf.IdMap.insert]
      by_cases hk : k = (f.ord s).orderId
      · rw [if_pos hk]
        constructor
        · rintro ⟨⟩
          exact ⟨Nat.lt_succ_self _, hk.symm, hk ▸ hlive⟩
        · rintro ⟨hlt, rfl, hne⟩
          exact congrArg some (h.slot_unique (hqueued s (by omega) hlive)
            (hqueued slot (by omega) hne) hk.symm)
      · rw [if_neg hk, ih]
        refine ⟨fun ⟨hlt, he, hne⟩ => ⟨Nat.lt_succ_of_lt hlt, he, hne⟩, fun ⟨hlt, he, hne⟩ => ?_⟩
        obtain hlt | rfl := Nat.lt_succ_iff_lt_or_eq.mp hlt
        · exact ⟨hlt, he, hne⟩
        · exact absurd he.symm hk
    · rw [if_neg hlive, ih]
      refine ⟨fun ⟨hlt, he, hne⟩ => ⟨Nat.lt_succ_of_lt hlt, he, hne⟩, fun ⟨hlt, he, hne⟩ => ?_⟩
      obtain hlt | rfl := Nat.lt_succ_iff_lt_or_eq.mp hlt
      · exact ⟨hlt, he, hne⟩
      · exact absurd (he ▸ hne) hlive

/-- All of them are the ids of the memory. -/
theorem indexed_hwm (h : Rep f L q) : indexed f f.hwm = f.ids := by
  funext k
  refine Option.ext fun slot => ?_
  rw [indexed_eq_some h (Nat.le_refl _), h.ids, h.queued_iff]
  exact ⟨fun ⟨hlt, he, hne⟩ => ⟨⟨hlt, he ▸ hne⟩, he⟩, fun ⟨⟨hlt, hne⟩, he⟩ => ⟨hlt, he, he ▸ hne⟩⟩

theorem indexed_few (h : Rep f L q) (hs : s ≤ f.hwm) (hsize : L.length < size) :
    Few size (indexed f s) := by
  refine few_of_sub (fun k hk => ?_) hsize
  obtain ⟨slot, e⟩ := Option.ne_none_iff_exists'.mp hk
  obtain ⟨hlt, he, hne⟩ := (indexed_eq_some h hs k slot).mp e
  have hqueued := h.live slot (by omega) (he ▸ hne)
  exact he ▸ List.mem_map_of_mem (h.queued_mem hqueued)

theorem indexSlots_runs (h : Rep f L q) (hsize : L.length < size) {k : Nat} (hs : s + k = f.hwm) :
    Runs (Shows cap size) (indexSlots s k) (f.hwm, f.setIds (indexed f s)) ()
      (f.hwm, f.setIds (indexed f f.hwm)) := by
  induction k generalizing s with
  | zero =>
    obtain rfl : s = f.hwm := hs
    exact Runs.pure _
  | succ k ih =>
    have hlt : s < f.hwm := by omega
    have hrest := @ih (s + 1) (by omega)
    unfold indexSlots
    refine (order_runs (f := f.setIds (indexed f s)) hlt).bind ?_
    refine Runs.ite (fun hlive => ?_) fun hlive => ?_
    · have hnext : indexed f (s + 1) = (indexed f s).insert (f.ord s).orderId s := if_pos hlive
      rw [hnext] at hrest
      exact (putId_runs (f := f.setIds (indexed f s)) (indexed_few h hlt.le hsize) hlive s).bind hrest
    · have hnext : indexed f (s + 1) = indexed f s := if_neg hlive
      rw [hnext] at hrest
      exact hrest

/-- The map is built anew, whatever it was, and nothing else changes. -/
theorem rebuildIDs_runs {m : IdMap} (h : f.Holds cap L) (hsize : cap < size)
    (hnew : newIDMap cap = some m) (hm : m.Holds size []) (ids : HiPerf.IdMap) :
    Runs (Shows cap size) rebuildIDs (f.hwm, f.setIds ids) () (f.hwm, f) := by
  obtain ⟨q, fl, hrep, hfl, hcap⟩ := h
  have hcount := hfl.count
  have hindex := @indexSlots_runs cap size f L q 0 hrep (by omega) f.hwm (Nat.zero_add _)
  rw [indexed_hwm hrep] at hindex
  refine Runs.get_bind fun b hb => ?_
  have hpool : b.pool.size = cap := hb.pool
  have hhwm : b.hwm = f.hwm := hb.hwm
  rw [hpool, hnew, hhwm]
  refine Runs.bind (a := ⟨⟩) (fun b' _ => ⟨_, rfl, ?_⟩) hindex
  exact { hb with hwm := rfl, ids := ⟨[], hm, fun _ => rfl⟩ }

end Book

/-- After any well-formed calls the two books are alike, and so they are once the Go book has
built its id map anew. -/
theorem books_agree {cfg : SmrConfig} {ops : List Op} (hg : cfg.grid.Ok) (hpos : 1 ≤ cfg.cap)
    (hcap : cfg.cap ≤ 2305843009213693952) (hwf : WellFormed cfg [] ops) (hfit : Fits cfg [] ops) :
    ∃ g₀ g b g', newBook cfg = some g₀ ∧ Book.run ops g₀ = .ok () g ∧
      HiPerf.Book.run ops (HiPerf.Book.new cfg) = .ok () b ∧ Alike g b ∧
      Book.rebuildIDs g = .ok () g' ∧ Alike g' b := by
  obtain ⟨g₀, m, size, hnew, hmap, hm, hroom, hg₀⟩ := @Book.newBook_shows cfg hpos hcap
  have hholds := HiPerf.Book.new_holds hg
  obtain ⟨hrun, hgo⟩ := Book.run_ready (f := (HiPerf.Book.new cfg).view) rfl hholds hroom
    (hwf.ready hg hfit)
  obtain ⟨hrust, hend, -⟩ := HiPerf.Book.run_holds hg rfl hholds hwf hfit
  obtain ⟨g, e, hshows⟩ := hrun g₀ hg₀
  obtain ⟨b, e', hb⟩ := hrust _ (HiPerf.Book.new_shows cfg)
  obtain ⟨g', e'', hshows'⟩ := Book.rebuildIDs_runs hend hroom hmap hm _ g hshows
  have hshape := HiPerf.Book.run_shaped ops (HiPerf.Book.new cfg)
  rw [last_ok e'] at hshape
  have hnarrow := (HiPerf.Book.new_narrow cfg).of_shape hshape
  have hfew := Book.few_of_holds hend hroom
  obtain ⟨q, fl, -, -, hmark⟩ := hend
  exact ⟨g₀, g, b, g', hnew, e, e', hshows.alike hb hnarrow hfew hmark, e'',
    hshows'.alike hb hnarrow hfew hmark⟩

theorem books_agree_smallRun : ∃ g₀ g b g', newBook smallBook = some g₀ ∧
    Book.run smallRun g₀ = .ok () g ∧
    HiPerf.Book.run smallRun (HiPerf.Book.new smallBook) = .ok () b ∧ Alike g b ∧
    Book.rebuildIDs g = .ok () g' ∧ Alike g' b :=
  books_agree smallBook_ok (by decide) (by decide) smallRun_wellFormed smallRun_fits

end HiPerf.Go
