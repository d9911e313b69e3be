import HiPerf.Go.Flat

/-!
Every call of the Go book runs where the memory holds a ledger, and does what the step does.
-/

namespace HiPerf.Go

open Machine Exec

namespace Book

variable {cap size n s t side slot : Nat} {f : Flat} {orderId : Int} {L : Ledger}

theorem update_runs_of (hg : f.grid.Ok) (hfew : Few size f.ids) (hs : f.ids orderId = some slot)
    (hlt : slot < n) (hcap : slot < cap) (ht : f.grid.tickOf (f.ord slot).price < f.grid.nLevels)
    (fillQty : Int) :
    Runs (Shows cap size) (update orderId fillQty) (n, f) () (n, f.fillSlot slot fillQty) := by
  have hadd : (if fillQty > i64 ((f.ord slot).qty - (f.ord slot).filled) then
      i64 ((f.ord slot).qty - (f.ord slot).filled) else fillQty) =
      min fillQty (i64 ((f.ord slot).qty - (f.ord slot).filled)) := by
    split <;> omega
  have hset := @setOrder_runs cap size n slot f hlt.le hcap
    { f.ord slot with filled := i64 ((f.ord slot).filled +
        min fillQty (i64 ((f.ord slot).qty - (f.ord slot).filled))) }
  rw [Nat.max_eq_left hlt] at hset
  unfold update
  refine (getSlot_runs hfew hs).bind ((order_runs hlt).bind ?_)
  dsimp only
  rw [hadd]
  refine hset.bind ((tickOf_runs (by exact hg.tick_pos) _).bind ?_)
  exact (level_runs _ (by exact ht)).bind (setLevel_runs _ (by exact ht) _)

/-- Writing a link of a slot that may be the sentinel, and what follows. -/
theorem linkNext_runs (hs : s ≠ NIL → s < n ∧ s < cap) (v : Nat) {k : Unit → Run Book Unit}
    {v' : Nat × Flat} (hk : Runs (Shows cap size) (k ()) (n, f.linkNext s v) () v') :
    Runs (Shows cap size) (if s ≠ NIL then setNext s v >>= k else k ()) (n, f) () v' := by
  refine Runs.ite (fun h => (setNext_runs (hs h).1 (hs h).2 v).bind ?_) fun h => ?_
  · rw [← Book.linkNext_eq f h]
    exact hk
  · rw [not_not.mp h, Book.linkNext_nil] at hk
    exact hk

theorem linkPrev_runs (hs : s ≠ NIL → s < n ∧ s < cap) (v : Nat) {k : Unit → Run Book Unit}
    {v' : Nat × Flat} (hk : Runs (Shows cap size) (k ()) (n, f.linkPrev s v) () v') :
    Runs (Shows cap size) (if s ≠ NIL then setPrev s v >>= k else k ()) (n, f) () v' := by
  refine Runs.ite (fun h => (setPrev_runs (hs h).1 (hs h).2 v).bind ?_) fun h => ?_
  · rw [← Book.linkPrev_eq f h]
    exact hk
  · rw [not_not.mp h, Book.linkPrev_nil] at hk
    exact hk

theorem unlink_runs {x : Lane} (hx : laneOf side = x) (hs : slot < n) (ht : t < f.grid.nLevels)
    (hp : f.prev slot ≠ NIL → f.prev slot < n ∧ f.prev slot < cap)
    (hn : f.next slot ≠ NIL → f.next slot < n ∧ f.next slot < cap) (rem : Int) :
    Runs (Shows cap size) (unlink slot side t rem) (n, f) () (n, f.unlink slot x t rem) := by
  subst hx
  unfold unlink
  refine (order_runs hs).bind (linkNext_runs hp _ (linkPrev_runs hn _ ?_))
  exact (level_runs side (by exact ht)).bind (setLevel_runs side (by exact ht) _)

theorem freeSlot_runs (hs : slot < n) (hcap : slot < cap) :
    Runs (Shows cap size) (freeSlot slot) (n, f) () (n, f.free slot) := by
  unfold freeSlot
  refine Runs.get_bind fun b hb => ?_
  have hhead : b.freeHead = f.freeHead := hb.freeHead
  rw [hhead]
  have hset := @setOrder_runs cap size n slot f hs.le hcap
    { f.ord slot with orderId := 0, next := f.freeHead, prev := NIL }
  rw [Nat.max_eq_left hs] at hset
  exact (order_runs hs).bind (hset.bind (Runs.modify fun b' hb' => hb'.setFreeHead slot))

theorem scanBids_runs (hg : f.grid.Ok) (ht : t < f.grid.nLevels) :
    Runs (Shows cap size) (scanBids t) (n, f)
      (Ladder.scanDown (fun u => (f.lvl .bid u).head ≠ NIL) t) (n, f) := by
  induction t with
  | zero =>
    rw [scanBids, Ladder.scanDown]
    refine (level_runs 0 ht).bind (Runs.ite (fun h => ?_) fun h => ?_)
    · rw [if_pos (show (f.lvl .bid 0).head ≠ NIL from h)]
      exact Runs.pure _
    · rw [if_neg (show ¬ (f.lvl .bid 0).head ≠ NIL from h)]
      exact Runs.pure _
  | succ t ih =>
    rw [scanBids, Ladder.scanDown, Book.i32_level hg ht]
    refine (level_runs 0 ht).bind (Runs.ite (fun h => ?_) fun h => ?_)
    · rw [if_pos (show (f.lvl .bid (t + 1)).head ≠ NIL from h)]
      exact Runs.pure _
    · rw [if_neg (show ¬ (f.lvl .bid (t + 1)).head ≠ NIL from h)]
      exact ih (by omega)

theorem scanAsks_runs (hg : f.grid.Ok) {k : Nat} (ht : t + k = f.grid.nLevels) :
    Runs (Shows cap size) (scanAsks t k) (n, f)
      (Ladder.scanUp (fun u => (f.lvl .ask u).head ≠ NIL) t k) (n, f) := by
  induction k generalizing t with
  | zero => exact Runs.pure _
  | succ k ih =>
    have hlt : t < f.grid.nLevels := by omega
    rw [scanAsks, Ladder.scanUp, Book.i32_level hg hlt]
    refine (level_runs 1 hlt).bind (Runs.ite (fun h => ?_) fun h => ?_)
    · rw [if_pos (show (f.lvl .ask t).head ≠ NIL from h)]
      exact Runs.pure _
    · rw [if_neg (show ¬ (f.lvl .ask t).head ≠ NIL from h)]
      exact ih (by omega)

theorem repairBest_runs (hg : f.grid.Ok) (ht : t < f.grid.nLevels) :
    Runs (Shows cap size) (repairBest side t) (n, f) () (n, f.repairBest (laneOf side) t) := by
  unfold repairBest
  rw [Book.i32_level hg ht]
  refine Runs.get_bind fun b hb => ?_
  have hbid : b.bestBid = f.bestBid := hb.bestBid
  have hask : b.bestAsk = f.bestAsk := hb.bestAsk
  have hlevels : b.nLevels = f.grid.nLevels := hb.nLevels
  rw [hbid, hask, hlevels]
  refine Runs.ite (fun hside => ?_) fun hside => ?_
  · have hx : laneOf side = .bid := if_pos hside
    rw [hx, Flat.repairBest]
    refine Runs.ite (fun h => ?_) fun h => ?_
    · rw [if_pos (.inl h)]
      exact Runs.pure _
    refine (level_runs 0 ht).bind (Runs.ite (fun h' => ?_) fun h' => ?_)
    · rw [if_pos (.inr h')]
      exact Runs.pure _
    · have hc : ¬ (f.bestBid ≠ t ∨ (f.lvl .bid t).head ≠ NIL) := not_or.mpr ⟨h, h'⟩
      rw [if_neg hc]
      exact (scanBids_runs hg ht).bind (Runs.modify fun b' hb' => hb'.setBestBid _)
  · have hx : laneOf side = .ask := if_neg hside
    rw [hx, Flat.repairBest]
    refine Runs.ite (fun h => ?_) fun h => ?_
    · rw [if_pos (.inl h)]
      exact Runs.pure _
    refine (level_runs 1 ht).bind (Runs.ite (fun h' => ?_) fun h' => ?_)
    · rw [if_pos (.inr h')]
      exact Runs.pure _
    · have hc : ¬ (f.bestAsk ≠ t ∨ (f.lvl .ask t).head ≠ NIL) := not_or.mpr ⟨h, h'⟩
      rw [if_neg hc]
      exact (scanAsks_runs hg (Nat.add_sub_of_le ht.le)).bind
        (Runs.modify fun b' hb' => hb'.setBestAsk _)

/-- All that a removal of `slot` touches is below the mark and in the pool. -/
structure Removable (cap n : Nat) (f : Flat) (slot : Nat) : Prop where
  grid : f.grid.Ok
  slot_lt : slot < n ∧ slot < cap
  tick_lt : f.grid.tickOf (f.ord slot).price < f.grid.nLevels
  prev_lt : f.prev slot ≠ NIL → f.prev slot < n ∧ f.prev slot < cap
  next_lt : f.next slot ≠ NIL → f.next slot < n ∧ f.next slot < cap

theorem removable {q : Lane → Nat → List Nat} (h : Rep f L q) (hcap : f.hwm ≤ cap)
    (hq : Queued q slot) : Removable cap f.hwm f slot := by
  have hlt : ∀ s, Queued q s → s < f.hwm ∧ s < cap := fun s hs =>
    ⟨h.queued_lt hs, Nat.lt_of_lt_of_le (h.queued_lt hs) hcap⟩
  exact ⟨h.grid_ok, hlt slot hq, h.tick_lt hq, fun hne => hlt _ (h.prev_queued hq hne),
    fun hne => hlt _ (h.next_queued hq hne)⟩

/-- What `Cancel` and `Fill` share, once the id is out of the map and the order marked. -/
theorem remove_runs (h : Removable cap n f slot) (orderId : Int) {mark : Order → Order}
    (hm : Flat.Books mark) :
    Runs (Shows cap size) (do
        unlink slot (f.ord slot).side (f.grid.tickOf (f.ord slot).price)
          (i64 ((f.ord slot).qty - (f.ord slot).filled))
        freeSlot slot
        repairBest (f.ord slot).side (f.grid.tickOf (f.ord slot).price))
      (n, f.marked orderId slot mark) () (n, f.remove orderId slot mark) := by
  have hp : (f.marked orderId slot mark).prev slot = f.prev slot := by
    rw [Flat.prev, marked_ord_self, (hm.links _).2]; rfl
  have hn : (f.marked orderId slot mark).next slot = f.next slot := by
    rw [Flat.next, marked_ord_self, (hm.links _).1]; rfl
  refine (unlink_runs rfl h.slot_lt.1 (by exact h.tick_lt) ?_ ?_ _).bind ?_
  · rw [hp]; exact h.prev_lt
  · rw [hn]; exact h.next_lt
  · exact (freeSlot_runs h.slot_lt.1 h.slot_lt.2).bind
      (repairBest_runs (by exact h.grid) (by exact h.tick_lt))

theorem cancel_runs_of (hfew : Few size f.ids) (hne : orderId ≠ 0) (hs : f.ids orderId = some slot)
    (h : Removable cap n f slot) :
    Runs (Shows cap size) (cancel orderId) (n, f) ()
      (n, f.remove orderId slot Flat.withdrawn) := by
  have hrest := @remove_runs cap size n slot f h orderId _ books_withdrawn
  rw [Book.marked_withdrawn] at hrest
  unfold cancel
  exact (getSlot_runs hfew hs).bind ((order_runs h.slot_lt.1).bind
    ((tickOf_runs h.grid.tick_pos _).bind ((delId_runs hfew hne).bind hrest)))

theorem fill_runs_of (hfew : Few size f.ids) (hne : orderId ≠ 0) (hs : f.ids orderId = some slot)
    (h : Removable cap n f slot) :
    Runs (Shows cap size) (fill orderId) (n, f) ()
      (n, f.remove orderId slot Flat.completed) := by
  have hset := @setOrder_runs cap size n slot f h.slot_lt.1.le h.slot_lt.2
    (Flat.completed (f.ord slot))
  rw [Nat.max_eq_left h.slot_lt.1] at hset
  have hdel := @delId_runs cap size n (f.setOrd slot (Flat.completed (f.ord slot))) orderId hfew hne
  unfold fill
  exact (getSlot_runs hfew hs).bind ((order_runs h.slot_lt.1).bind (hset.bind
    ((tickOf_runs (by exact h.grid.tick_pos) _).bind
      (hdel.bind (remove_runs h orderId books_completed)))))

/-- A table with a place for every resting order and one more is not full. -/
theorem few_of_sub {ids : HiPerf.IdMap} (hsub : ∀ k, ids k ≠ none → k ∈ L.ids)
    (hsize : L.length < size) : Few size ids := by
  intro C hnodup hvalue
  have hkeys : ∀ k ∈ C.keys, k ∈ L.ids := by
    intro k hk
    refine hsub k fun hnone => ?_
    exact Contents.valueOf_eq_none.mp ((hvalue k).trans hnone) hk
  have hlen := (hnodup.subperm hkeys).length_le
  have hcount : C.keys.length = C.length := List.length_map _
  have hids : L.ids.length = L.length := List.length_map _
  omega

theorem few_of_holds (h : f.Holds cap L) (hsize : cap < size) : Few size f.ids := by
  obtain ⟨q, fl, hrep, hfl, hcap⟩ := h
  have hcount := hfl.count
  refine few_of_sub (fun k hk => ?_) (show L.length < size by omega)
  by_contra hnot
  exact hk (hrep.ids_none hnot)

/-- Every call a store can carry out runs, and does the step. -/
theorem apply_runs (h : f.Holds cap L) (hsize : cap < size) {op : Op}
    (hop : op.Ready cap f.grid L) :
    Runs (Shows cap size) (apply op) (f.hwm, f) () ((f.step op).hwm, f.step op) := by
  have hfew := few_of_holds h hsize
  have hroom := Book.room_of_holds (L := L) h
  obtain ⟨q, fl, hrep, hfl, hcap⟩ := h
  obtain ⟨hadm, hready⟩ := hop
  have hremove : ∀ orderId mark, orderId ∈ L.ids → ∃ slot, f.ids orderId = some slot ∧
      orderId ≠ 0 ∧ Removable cap f.hwm f slot ∧ (f.remove orderId slot mark).hwm = f.hwm := by
    intro orderId mark hid
    obtain ⟨slot, e, hq, rfl⟩ := hrep.ids_isSome hid
    exact ⟨slot, e, hrep.queued_id_ne hq, removable hrep hcap hq, remove_hwm f slot mark⟩
  cases op with
  | insert orderId price qty side =>
    obtain ⟨-, hne, -, htick, -, -, -⟩ := hadm
    have hlt := hroom hready.1
    have hcount := hfl.count
    have hnil : fl = [] → f.hwm < NIL := by
      rintro rfl
      simp only [List.length_nil] at hcount
      omega
    obtain ⟨hnew, -, hslot, -, -, -, hfresh⟩ := hfl.spare.alloc hrep.hwm_le hnil
    have hfree : f.freeHead ≠ NIL → f.freeHead < f.hwm := by
      intro hne
      have hchain := hfl.chain
      cases fl with
      | nil => exact absurd hchain hne
      | cons a fl =>
        rw [hchain.1]
        exact ((hfl.mem_iff a).mp List.mem_cons_self).1
    have hcases : f.nextSlot ≤ f.hwm ∧ f.nextSlot < cap ∧
        max f.hwm (f.nextSlot + 1) = f.alloc.hwm := by
      cases fl with
      | nil =>
        have hhead : f.freeHead = NIL := hfl.chain
        have hfresh' := hfresh rfl
        have hroom' := hlt hhead
        rw [if_pos rfl] at hnew
        omega
      | cons a fl =>
        rw [if_neg (List.cons_ne_nil a fl)] at hnew
        omega
    exact insert_runs_of hrep.grid_ok htick hfree (fun e => Nat.ne_of_lt (hlt e)) hcases.1 hcases.2.1
      hcases.2.2 (fun x t ht => ⟨hrep.tail_lt ht, Nat.lt_of_lt_of_le (hrep.tail_lt ht) hcap⟩) hfew hne
  | update orderId n =>
    obtain ⟨slot, e, hq, -⟩ := hrep.ids_isSome hadm.1
    have hlt := hrep.queued_lt hq
    simp only [Flat.step, e]
    exact update_runs_of hrep.grid_ok hfew e hlt (Nat.lt_of_lt_of_le hlt hcap) (hrep.tick_lt hq) n
  | cancel orderId =>
    obtain ⟨slot, e, hne, hrem, hhwm⟩ := hremove orderId Flat.withdrawn hadm
    simp only [Flat.step, e]
    rw [hhwm]
    exact cancel_runs_of hfew hne e hrem
  | fill orderId =>
    obtain ⟨slot, e, hne, hrem, hhwm⟩ := hremove orderId Flat.completed hadm
    simp only [Flat.step, e]
    rw [hhwm]
    exact fill_runs_of hfew hne e hrem

end Book

end HiPerf.Go
