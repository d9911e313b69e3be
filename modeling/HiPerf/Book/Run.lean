import HiPerf.Book.Rep
import HiPerf.Book.Shape

/-!
The book's calls, run from a book that holds a ledger: none of them stops, and
each does to the book's memory what the corresponding step does.
-/

namespace HiPerf

open Machine Exec

/-- The book's arrays as a memory; beyond their ends nothing was ever written. -/
def Book.view (b : Book) : Flat where
  grid := ⟨b.priceMin, b.tick, b.nLevels⟩
  ord s := b.pool[s]?.getD Order.zero
  lvl x t := (match x with | .bid => b.bids | .ask => b.asks)[t]?.getD PriceLevel.EMPTY
  hwm := b.hwm
  freeHead := b.freeHead
  bestBid := b.bestBid
  bestAsk := b.bestAsk
  ids := b.idmap

/-- The book has room for `cap` orders and for its levels, and its memory is `f`. -/
structure Book.Shows (cap : Nat) (b : Book) (f : Flat) : Prop where
  view : b.view = f
  pool : b.pool.size = cap
  bids : b.nLevels ≤ b.bids.size
  asks : b.nLevels ≤ b.asks.size

/-- What a call does to a memory. -/
def Flat.step (f : Flat) : Op → Flat
  | .insert orderId price qty side => f.insert ⟨orderId, price, qty, 0, side⟩
  | .update orderId fillQty =>
    match f.ids orderId with
    | some slot => f.fillSlot slot fillQty
    | none => f
  | .cancel orderId =>
    match f.ids orderId with
    | some slot => f.remove orderId slot withdrawn
    | none => f
  | .fill orderId =>
    match f.ids orderId with
    | some slot => f.remove orderId slot completed
    | none => f

def Flat.steps (f : Flat) (ops : List Op) : Flat := ops.foldl Flat.step f

/-- A memory with room for `cap` orders holds `L`. -/
def Flat.Holds (cap : Nat) (f : Flat) (L : Ledger) : Prop :=
  ∃ q fl, Rep f L q ∧ FreeList f L fl ∧ f.hwm ≤ cap

/-- The same of a memory that may have lost track of some blank slots. -/
def Flat.Spares (cap : Nat) (f : Flat) (L : Ledger) : Prop :=
  ∃ q fl, Rep f L q ∧ Spare f fl ∧ f.hwm ≤ cap

theorem Flat.Holds.spares {cap : Nat} {f : Flat} {L : Ledger} (h : f.Holds cap L) :
    f.Spares cap L := by
  obtain ⟨q, fl, hrep, hfl, hcap⟩ := h
  exact ⟨q, fl, hrep, hfl.spare, hcap⟩

/-- A call a store with room for `cap` orders carries out. -/
def Op.Ready (cap : Nat) (g : Grid) (L : Ledger) (op : Op) : Prop :=
  op.Admitted g L ∧ match op with
    | .insert .. => L.length < cap ∧ L.length < NIL
    | _ => True

theorem Flat.step_grid (f : Flat) (op : Op) : (f.step op).grid = f.grid := by
  have hrep : ∀ (g : Flat) (x : Lane) (t : Nat), (g.repairBest x t).grid = g.grid := by
    intro g x t; cases x <;> rfl
  have hrem : ∀ i slot mark, (f.remove i slot mark).grid = f.grid := by
    intro i slot mark
    exact hrep _ _ _
  cases op with
  | insert orderId price qty side =>
    change f.alloc.grid = f.grid
    simp
  | update orderId n => simp only [Flat.step]; split <;> rfl
  | cancel orderId => simp only [Flat.step]; split <;> first | exact hrem _ _ _ | rfl
  | fill orderId => simp only [Flat.step]; split <;> first | exact hrem _ _ _ | rfl

/-- A memory with room for `cap` orders holds `L`; `fl` are its free slots, the
next one to be used first. -/
def Flat.Frees (cap : Nat) (f : Flat) (L : Ledger) (fl : List Nat) : Prop :=
  ∃ q, Rep f L q ∧ FreeList f L fl ∧ f.hwm ≤ cap

/-- The free slots after a call: an insert takes the first, a removal puts its slot
in front. -/
def Flat.nextFree (f : Flat) (fl : List Nat) : Op → List Nat
  | .insert .. => fl.tail
  | .update .. => fl
  | .cancel orderId => (f.ids orderId).toList ++ fl
  | .fill orderId => (f.ids orderId).toList ++ fl

theorem repairBest_hwm (g : Flat) (x : Lane) (t : Nat) : (g.repairBest x t).hwm = g.hwm := by
  cases x <;> rfl

theorem remove_hwm (f : Flat) (slot : Nat) (mark : Order → Order) :
    (f.remove (f.ord slot).orderId slot mark).hwm = f.hwm := by
  rw [remove_eq, repairBest_hwm]
  rfl

theorem FreeList.nextSlot {f : Flat} {L : Ledger} {fl : List Nat} (h : FreeList f L fl) :
    f.nextSlot = fl.headD f.hwm := by
  have hchain := h.chain
  cases fl with
  | nil => exact if_neg (not_not.mpr hchain)
  | cons a fl =>
    obtain ⟨rfl, hne, -⟩ := hchain
    exact if_pos hne

/-- One call keeps the memory in step with the ledger. -/
theorem Flat.Frees.step {cap : Nat} {f : Flat} {L : Ledger} {fl : List Nat} (h : f.Frees cap L fl)
    {op : Op} (hop : op.Ready cap f.grid L) :
    (f.step op).Frees cap (L.apply op) (f.nextFree fl op) ∧
      (f.step op).hwm = f.hwm + if fl = [] then op.inserts else 0 := by
  obtain ⟨q, hrep, hfl, hcap⟩ := h
  obtain ⟨hadm, hready⟩ := hop
  have hremove : ∀ orderId mark, Flat.Books mark → orderId ∈ L.ids →
      ∃ slot, f.ids orderId = some slot ∧
        (f.remove orderId slot mark).Frees cap (L.apply (.cancel orderId)) (slot :: fl) ∧
        (f.remove orderId slot mark).hwm = f.hwm := by
    intro orderId mark hm hid
    obtain ⟨slot, e, hq, rfl⟩ := hrep.ids_isSome hid
    have hhwm := remove_hwm f slot mark
    exact ⟨slot, e, ⟨_, hrep.remove hq hm (hfl.head_le hrep.hwm_le), hfl.remove hrep hq hm,
      hhwm.trans_le hcap⟩, hhwm⟩
  cases op with
  | insert orderId price qty side =>
    have hcount := hfl.count
    have hroom : fl = [] → f.hwm < NIL := by
      rintro rfl
      simp only [List.length_nil] at hcount
      omega
    obtain ⟨hnew, -, hslot, hblank, -, -, -⟩ := hfl.spare.alloc hrep.hwm_le hroom
    refine ⟨⟨_, (hrep.alloc hfl.spare hroom).enter hslot (by rwa [alloc_ord]) rfl
      (by simpa using hadm), hfl.enter hrep hroom hadm.2.1, ?_⟩, hnew⟩
    change f.alloc.hwm ≤ cap
    cases fl with
    | nil => simp only [List.length_nil, if_true] at hnew hcount; omega
    | cons a fl => simp only [List.cons_ne_nil, if_false] at hnew; omega
  | update orderId n =>
    obtain ⟨slot, e, hq, rfl⟩ := hrep.ids_isSome hadm.1
    simp only [Flat.step, e]
    exact ⟨⟨_, hrep.fillSlot hq hadm.2, hfl.fillSlot hrep hq n, hcap⟩, by simp [Op.inserts]; rfl⟩
  | cancel orderId =>
    obtain ⟨slot, e, h, hhwm⟩ := hremove orderId _ books_withdrawn hadm
    simp only [Flat.step, Flat.nextFree, e]
    exact ⟨h, by simp [Op.inserts, hhwm]⟩
  | fill orderId =>
    obtain ⟨slot, e, h, hhwm⟩ := hremove orderId _ books_completed hadm
    rw [Ledger.apply_fill]
    simp only [Flat.step, Flat.nextFree, e]
    exact ⟨h, by simp [Op.inserts, hhwm]⟩

theorem Flat.Holds.step {cap : Nat} {f : Flat} {L : Ledger} (h : f.Holds cap L) {op : Op}
    (hop : op.Ready cap f.grid L) : (f.step op).Holds cap (L.apply op) := by
  obtain ⟨q, fl, h⟩ := h
  obtain ⟨⟨q', h'⟩, -⟩ := Flat.Frees.step ⟨q, h⟩ hop
  exact ⟨q', _, h'⟩

/-- Each of the calls is one a store with room for `cap` orders carries out. -/
def Ready (cap : Nat) (g : Grid) : Ledger → List Op → Prop
  | _, [] => True
  | L, op :: ops => op.Ready cap g L ∧ Ready cap g (L.apply op) ops

theorem Op.WellFormed.ready {cfg : SmrConfig} (hg : cfg.grid.Ok) {L : Ledger} {op : Op}
    (hwf : op.WellFormed cfg L) (hfit : op.Fits cfg L) : op.Ready cfg.cap cfg.grid L := by
  refine ⟨hwf.admitted hg hfit, ?_⟩
  cases op with
  | insert orderId price qty side => exact ⟨hwf.2.2.2.2.2.2.1, hfit.2⟩
  | update orderId n => trivial
  | cancel orderId => trivial
  | fill orderId => trivial

theorem WellFormed.ready {cfg : SmrConfig} (hg : cfg.grid.Ok) {L : Ledger} {ops : List Op}
    (hwf : WellFormed cfg L ops) (hfit : Fits cfg L ops) : Ready cfg.cap cfg.grid L ops := by
  induction ops generalizing L with
  | nil => trivial
  | cons op ops ih => exact ⟨hwf.1.ready hg hfit.1, ih hwf.2 hfit.2⟩

/-- Slot numbers below the sentinel suffice for the call. -/
def Op.SlotsFit (L : Ledger) : Op → Prop
  | .insert .. => L.length < NIL
  | _ => True

def SlotsFit : Ledger → List Op → Prop
  | _, [] => True
  | L, op :: ops => op.SlotsFit L ∧ SlotsFit (L.apply op) ops

/-- Slot numbers suffice for every well-formed sequence on a pool of fewer than 2^32 slots. -/
theorem WellFormed.slotsFit {cfg : SmrConfig} (hcap : cfg.cap < 4294967296) {L : Ledger}
    {ops : List Op} (hwf : WellFormed cfg L ops) : SlotsFit L ops := by
  induction ops generalizing L with
  | nil => trivial
  | cons op ops ih =>
    refine ⟨?_, ih hwf.2⟩
    cases op with
    | insert orderId price qty side =>
      have := hwf.1.2.2.2.2.2.2.1
      change L.length < 4294967295
      omega
    | update orderId n => trivial
    | cancel orderId => trivial
    | fill orderId => trivial

namespace Book

variable {cap : Nat} {f : Flat}

/-- The lanes have no levels beyond the ladder. -/
structure Narrow (b : Book) : Prop where
  bids : b.bids.size = b.nLevels
  asks : b.asks.size = b.nLevels

theorem Narrow.lane_size {b : Book} (h : b.Narrow) (side : Nat) :
    (b.lane side).size = b.nLevels := by
  unfold lane
  split
  · exact h.bids
  · exact h.asks

theorem Narrow.of_shape {b b' : Book} (h : b.Narrow) (hs : SameShape b b') : b'.Narrow :=
  ⟨by rw [hs.bids, hs.nLevels, h.bids], by rw [hs.asks, hs.nLevels, h.asks]⟩

theorem new_narrow (cfg : SmrConfig) : (new cfg).Narrow :=
  ⟨Array.size_replicate, Array.size_replicate⟩

theorem Shows.lane_size {b : Book} (h : b.Shows cap f) (side : Nat) :
    f.grid.nLevels ≤ (b.lane side).size := by
  rw [← h.view]
  simp only [lane]
  split
  · exact h.bids
  · exact h.asks

theorem Shows.setBestBid {b : Book} (h : b.Shows cap f) (v : Int) :
    Shows cap { b with bestBid := v } (f.setBestBid v) := by
  obtain ⟨rfl, hp, hbi, ha⟩ := h
  exact ⟨rfl, hp, hbi, ha⟩

theorem Shows.setBestAsk {b : Book} (h : b.Shows cap f) (v : Int) :
    Shows cap { b with bestAsk := v } (f.setBestAsk v) := by
  obtain ⟨rfl, hp, hbi, ha⟩ := h
  exact ⟨rfl, hp, hbi, ha⟩

theorem Shows.setIds {b : Book} (h : b.Shows cap f) (m : IdMap) :
    Shows cap { b with idmap := m } (f.setIds m) := by
  obtain ⟨rfl, hp, hbi, ha⟩ := h
  exact ⟨rfl, hp, hbi, ha⟩

theorem lane_view (b : Book) (side t : Nat) :
    (b.lane side)[t]?.getD PriceLevel.EMPTY = b.view.lvl (laneOf side) t := by
  simp only [lane, laneOf, view]
  split <;> rfl

theorem tickOf_ok {b : Book} (hb : b.Shows cap f) (htick : 0 < f.grid.tick) (price : Int) :
    tickOf price b = .ok (f.grid.tickOf price) b := by
  obtain ⟨rfl, -, -, -⟩ := hb
  have h : 0 < b.tick := htick
  simp only [tickOf, get_bind, gridTick, ite_run]
  rw [if_neg (by omega), if_neg (by omega)]
  rfl

theorem tickOf_runs (htick : 0 < f.grid.tick) (price : Int) :
    Runs (Shows cap) (tickOf price) f (f.grid.tickOf price) f :=
  fun b hb => ⟨b, tickOf_ok hb htick price, hb⟩

theorem order_runs {s : Nat} (hs : s < cap) : Runs (Shows cap) (order s) f (f.ord s) f := by
  intro b hb
  refine ⟨b, ?_, hb⟩
  obtain ⟨rfl, hpool, -, -⟩ := hb
  simp only [order, view, Array.getElem?_eq_getElem (hpool ▸ hs), Option.getD_some]

theorem setOrder_runs {s : Nat} (hs : s < cap) (o : Order) :
    Runs (Shows cap) (setOrder s o) f () (f.setOrd s o) := by
  intro b hb
  obtain ⟨rfl, hpool, hbids, hasks⟩ := hb
  refine ⟨{ b with pool := b.pool.setIfInBounds s o }, ?_, ⟨?_, ?_, hbids, hasks⟩⟩
  · simp only [setOrder, hpool, hs, if_true]
  · simp only [view, Flat.setOrd, Flat.mk.injEq, true_and, and_true]
    funext y
    rw [Array.getElem?_setIfInBounds]
    by_cases e : s = y
    · subst e; simp [hpool, hs]
    · simp [e, Ne.symm e]
  · simpa using hpool

theorem level_runs (side : Nat) {t : Nat} (ht : t < f.grid.nLevels) :
    Runs (Shows cap) (level side t) f (f.lvl (laneOf side) t) f := by
  intro b hb
  refine ⟨b, ?_, hb⟩
  have hsize := hb.lane_size side
  have e := lane_view b side t
  have hlt : t < (b.lane side).size := Nat.lt_of_lt_of_le ht hsize
  rw [hb.view, Array.getElem?_eq_getElem hlt, Option.getD_some] at e
  simp only [level, Array.getElem?_eq_getElem hlt, e]

theorem setLevel_runs (side : Nat) {t : Nat} (ht : t < f.grid.nLevels) (l : PriceLevel) :
    Runs (Shows cap) (setLevel side t l) f () (f.setLvl (laneOf side) t l) := by
  intro b hb
  have hsize : t < (b.lane side).size := Nat.lt_of_lt_of_le ht (hb.lane_size side)
  obtain ⟨rfl, hpool, hbids, hasks⟩ := hb
  have hput : ∀ (ls : Array PriceLevel), b.nLevels ≤ ls.size → ∀ u,
      (ls.setIfInBounds t l)[u]?.getD PriceLevel.EMPTY =
        if u = t then l else ls[u]?.getD PriceLevel.EMPTY := by
    intro ls hls u
    rw [Array.getElem?_setIfInBounds]
    by_cases e : t = u
    · subst e; simp [Nat.lt_of_lt_of_le ht hls]
    · simp [e, Ne.symm e]
  by_cases hside : side = 0
  · refine ⟨{ b with bids := b.bids.setIfInBounds t l }, ?_, ⟨?_, hpool, by simpa using hbids, hasks⟩⟩
    · subst hside; rw [setLevel, if_pos hsize, if_pos rfl]
    · simp only [view, Flat.setLvl, laneOf, hside, if_true, Flat.mk.injEq, true_and, and_true]
      funext y u
      cases y
      · simp [hput _ hbids]
      · simp
  · refine ⟨{ b with asks := b.asks.setIfInBounds t l }, ?_, ⟨?_, hpool, hbids, by simpa using hasks⟩⟩
    · rw [setLevel, if_pos hsize, if_neg hside]
    · simp only [view, Flat.setLvl, laneOf, hside, if_false, Flat.mk.injEq, true_and, and_true]
      funext y u
      cases y
      · simp
      · simp [hput _ hasks]

theorem setNext_runs {s : Nat} (hs : s < cap) (v : Nat) :
    Runs (Shows cap) (setNext s v) f () (f.setOrd s { f.ord s with next := v }) :=
  (order_runs hs).bind (setOrder_runs hs _)

theorem setPrev_runs {s : Nat} (hs : s < cap) (v : Nat) :
    Runs (Shows cap) (setPrev s v) f () (f.setOrd s { f.ord s with prev := v }) :=
  (order_runs hs).bind (setOrder_runs hs _)

theorem linkNext_nil (f : Flat) (v : Nat) : f.linkNext NIL v = f := by simp [Flat.linkNext]

theorem linkNext_eq (f : Flat) {s : Nat} (h : s ≠ NIL) (v : Nat) :
    f.linkNext s v = f.setOrd s { f.ord s with next := v } := by
  simp only [Flat.setOrd, Flat.linkNext, Flat.mk.injEq, true_and, and_true]
  funext y
  by_cases e : y = s
  · subst e; simp [h]
  · simp [e]

theorem linkPrev_nil (f : Flat) (v : Nat) : f.linkPrev NIL v = f := by simp [Flat.linkPrev]

theorem linkPrev_eq (f : Flat) {s : Nat} (h : s ≠ NIL) (v : Nat) :
    f.linkPrev s v = f.setOrd s { f.ord s with prev := v } := by
  simp only [Flat.setOrd, Flat.linkPrev, Flat.mk.injEq, true_and, and_true]
  funext y
  by_cases e : y = s
  · subst e; simp [h]
  · simp [e]

/-- Writing a link of a slot that may be the sentinel, and what follows. -/
theorem linkNext_runs {s : Nat} (hs : s ≠ NIL → s < cap) (v : Nat) {k : Unit → Run Book Unit}
    {f' : Flat} (hk : Runs (Shows cap) (k ()) (f.linkNext s v) () f') :
    Runs (Shows cap) (if s ≠ NIL then setNext s v >>= k else k ()) f () f' := by
  refine Runs.ite (fun h => (setNext_runs (hs h) v).bind ?_) fun h => ?_
  · rw [← linkNext_eq f h]
    exact hk
  · rw [not_not.mp h, linkNext_nil] at hk
    exact hk

theorem linkPrev_runs {s : Nat} (hs : s ≠ NIL → s < cap) (v : Nat) {k : Unit → Run Book Unit}
    {f' : Flat} (hk : Runs (Shows cap) (k ()) (f.linkPrev s v) () f') :
    Runs (Shows cap) (if s ≠ NIL then setPrev s v >>= k else k ()) f () f' := by
  refine Runs.ite (fun h => (setPrev_runs (hs h) v).bind ?_) fun h => ?_
  · rw [← linkPrev_eq f h]
    exact hk
  · rw [not_not.mp h, linkPrev_nil] at hk
    exact hk

theorem allocSlot_runs (hfree : f.freeHead ≠ NIL → f.freeHead < cap)
    (hroom : f.freeHead = NIL → f.hwm ≠ cap) :
    Runs (Shows cap) allocSlot f f.nextSlot f.alloc := by
  refine Runs.get_bind fun b hb => ?_
  obtain rfl := hb.view
  refine Runs.ite (fun h => ?_) fun h => ?_
  · have h' : b.view.freeHead ≠ NIL := h
    have e : b.view.nextSlot = b.freeHead := if_pos h'
    rw [e]
    refine (order_runs (hfree h)).bind (Runs.bind (Runs.modify fun s hs => ?_) (Runs.pure _))
    obtain ⟨hv, hp, hbi, ha⟩ := hs
    refine ⟨?_, hp, hbi, ha⟩
    rw [Flat.alloc, if_pos h', ← hv]
    rfl
  · have h' : ¬ b.view.freeHead ≠ NIL := h
    have e : b.view.nextSlot = b.hwm := if_neg h'
    rw [e]
    have hne : b.hwm ≠ b.pool.size := fun e => hroom (not_not.mp h) (e.trans hb.pool)
    refine Runs.ite (fun e => absurd e hne) fun _ =>
      Runs.bind (Runs.modify fun s hs => ?_) (Runs.pure _)
    obtain ⟨hv, hp, hbi, ha⟩ := hs
    refine ⟨?_, hp, hbi, ha⟩
    rw [Flat.alloc, if_neg h', ← hv]
    rfl

/-- The levels a level's `i32` cast keeps. -/
theorem i32_level {g : Grid} (hg : g.Ok) {t : Nat} (ht : t < g.nLevels) : i32 t = t :=
  i32_ofNat (by have := hg.levels_le; omega)

theorem noteBest_runs (hg : f.grid.Ok) {t : Nat} (ht : t < f.grid.nLevels) (side : Nat) :
    Runs (Shows cap) (noteBest side t) f () (f.noteBest side t) := by
  unfold noteBest
  rw [i32_level hg ht]
  have hbid : Runs (Shows cap) (modify fun b : Book => { b with bestBid :=
      if side = 0 ∧ (b.bestBid < 0 ∨ (t : Int) > b.bestBid) then t else b.bestBid } : Run Book Unit)
      f () (f.setBestBid (if side = 0 ∧ (f.bestBid < 0 ∨ f.bestBid < t) then t else f.bestBid)) := by
    refine Runs.modify fun b hb => ?_
    have e : f.bestBid = b.bestBid := congrArg Flat.bestBid hb.view.symm
    rw [e]
    exact hb.setBestBid _
  refine hbid.bind (Runs.modify fun b hb => ?_)
  have h := hb.setBestAsk
    (if side = 1 ∧ (f.bestAsk < 0 ∨ (t : Int) < f.bestAsk) then t else f.bestAsk)
  have e : f.bestAsk = b.bestAsk := congrArg Flat.bestAsk hb.view.symm
  rw [← e]
  exact h

theorem insert_runs_of (hgrid : f.grid.Ok) {orderId price qty : Int} {side : Nat}
    (htick : f.grid.tickOf price < f.grid.nLevels)
    (hfree : f.freeHead ≠ NIL → f.freeHead < cap) (hroom : f.freeHead = NIL → f.hwm ≠ cap)
    (hslot : f.nextSlot < cap) (htail : ∀ x t, (f.lvl x t).tail ≠ NIL → (f.lvl x t).tail < cap) :
    Runs (Shows cap) (insert orderId price qty side) f ()
      (f.insert ⟨orderId, price, qty, 0, side⟩) := by
  have hg : f.alloc.grid = f.grid := alloc_grid f
  have hlast : Runs (Shows cap) (noteBest side (f.grid.tickOf price))
      ((f.alloc.place f.nextSlot ⟨orderId, price, qty, 0, side⟩).setIds
        (f.alloc.ids.insert orderId f.nextSlot)) ()
      (f.insert ⟨orderId, price, qty, 0, side⟩) := by
    rw [Flat.insert, Flat.enter, hg]
    refine noteBest_runs ?_ ?_ side
    · change f.alloc.grid.Ok
      rw [hg]; exact hgrid
    · change _ < f.alloc.grid.nLevels
      rw [hg]; exact htick
  unfold insert
  have htick' : f.grid.tickOf price < f.alloc.grid.nLevels := by rwa [alloc_grid]
  refine (tickOf_runs hgrid.tick_pos price).bind ((allocSlot_runs hfree hroom).bind ?_)
  refine (level_runs side htick').bind ((setOrder_runs hslot _).bind ?_)
  refine (level_runs side (by exact htick')).bind ?_
  refine (setLevel_runs side (by exact htick') _).bind ?_
  refine linkNext_runs (fun hne => ?_) _ (Runs.bind (Runs.modify fun b hb => ?_) hlast)
  · rw [alloc_lvl] at hne ⊢
    exact htail _ _ hne
  · obtain ⟨hv, hp, hbi, ha⟩ := hb
    refine ⟨?_, hp, hbi, ha⟩
    have e : f.alloc.grid.tickOf price = f.grid.tickOf price := by rw [alloc_grid]
    change b.view.setIds (b.view.ids.insert orderId f.nextSlot) = _
    rw [hv, Flat.place]
    dsimp only
    rw [e]
    rfl

/-- The next free slot is one of the pool. -/
theorem head_lt {L : Ledger} (h : f.Spares cap L) (hne : f.freeHead ≠ NIL) : f.freeHead < cap := by
  obtain ⟨q, fl, -, hfl, hcap⟩ := h
  have hc := hfl.chain
  cases fl with
  | nil => exact absurd hc hne
  | cons a fl => rw [hc.1]; exact Nat.lt_of_lt_of_le (hfl.blank a (by simp)).1 hcap

theorem insert_runs {L : Ledger} (h : f.Spares cap L) {orderId price qty : Int} {side : Nat}
    (hadm : (Op.insert orderId price qty side).Admitted f.grid L)
    (hroom : f.freeHead = NIL → f.hwm < cap) :
    Runs (Shows cap) (insert orderId price qty side) f ()
      (f.insert ⟨orderId, price, qty, 0, side⟩) := by
  have hfree : f.freeHead ≠ NIL → f.freeHead < cap := head_lt h
  obtain ⟨q, fl, hrep, hfl, hcap⟩ := h
  obtain ⟨-, -, -, htick, -, -, -⟩ := hadm
  have hslot : f.nextSlot < cap := by
    unfold Flat.nextSlot
    split
    · exact hfree ‹_›
    · exact hroom (not_not.mp ‹_›)
  exact insert_runs_of hrep.grid_ok htick hfree (fun e => Nat.ne_of_lt (hroom e)) hslot fun x t ht =>
    Nat.lt_of_lt_of_le (hrep.tail_lt ht) hcap

/-- A memory that knows its free slots has one while fewer than `cap` orders rest. -/
theorem room_of_holds {L : Ledger} (h : f.Holds cap L) (hlen : L.length < cap) :
    f.freeHead = NIL → f.hwm < cap := by
  obtain ⟨q, fl, hrep, hfl, hcap⟩ := h
  intro e
  have : fl = [] := hfl.chain.eq_nil_iff.mp e
  subst this
  have hcount := hfl.count
  simp only [List.length_nil] at hcount
  omega

theorem getSlot_runs {orderId : Int} {slot : Nat} (h : f.ids orderId = some slot) :
    Runs (Shows cap) (getSlot orderId) f slot f := by
  intro b hb
  refine ⟨b, ?_, hb⟩
  have e : b.idmap orderId = some slot := by rw [← h, ← hb.view]; rfl
  simp only [getSlot, e]

theorem removeId_runs {orderId : Int} {slot : Nat} (h : f.ids orderId = some slot)
    (text : String) :
    Runs (Shows cap) (removeId orderId text) f slot (f.setIds (f.ids.remove orderId)) := by
  intro b hb
  obtain ⟨rfl, hp, hbi, ha⟩ := hb
  have e : b.idmap orderId = some slot := h
  refine ⟨{ b with idmap := b.idmap.remove orderId }, ?_, rfl, hp, hbi, ha⟩
  simp only [removeId, e]

/-- An update wherever its reads are in bounds. -/
theorem update_runs_of (hg : f.grid.Ok) {orderId : Int} {slot : Nat}
    (hs : f.ids orderId = some slot) (hlt : slot < cap)
    (ht : f.grid.tickOf (f.ord slot).price < f.grid.nLevels) (fillQty : Int) :
    Runs (Shows cap) (update orderId fillQty) f () (f.fillSlot slot fillQty) := by
  unfold update
  refine (getSlot_runs hs).bind ((order_runs hlt).bind ((setOrder_runs hlt _).bind ?_))
  refine (tickOf_runs (by exact hg.tick_pos) _).bind ?_
  exact (level_runs _ (by exact ht)).bind (setLevel_runs _ (by exact ht) _)

theorem update_runs {q : Lane → Nat → List Nat} {L : Ledger} (h : Rep f L q)
    (hcap : f.hwm ≤ cap) {orderId : Int} {slot : Nat} (hs : f.ids orderId = some slot)
    (fillQty : Int) :
    Runs (Shows cap) (update orderId fillQty) f () (f.fillSlot slot fillQty) := by
  have hq := ((h.ids orderId slot).mp hs).1
  exact update_runs_of h.grid_ok hs (Nat.lt_of_lt_of_le (h.queued_lt hq) hcap) (h.tick_lt hq) fillQty

theorem unlink_runs {slot side t : Nat} {x : Lane} (hx : laneOf side = x) (hs : slot < cap)
    (ht : t < f.grid.nLevels) (hp : f.prev slot ≠ NIL → f.prev slot < cap)
    (hn : f.next slot ≠ NIL → f.next slot < cap) (rem : Int) :
    Runs (Shows cap) (unlink slot side t rem) f () (f.unlink slot x t rem) := by
  subst hx
  unfold unlink
  refine (order_runs hs).bind ?_
  refine linkNext_runs hp _ (linkPrev_runs hn _ ?_)
  exact (level_runs side (by exact ht)).bind (setLevel_runs side (by exact ht) _)

theorem freeSlot_runs {slot : Nat} (hs : slot < cap) :
    Runs (Shows cap) (freeSlot slot) f () (f.free slot) := by
  unfold freeSlot
  refine Runs.get_bind fun b hb => ?_
  obtain rfl := hb.view
  refine (order_runs hs).bind ((setOrder_runs hs _).bind (Runs.modify fun b' hb' => ?_))
  obtain ⟨hv, hp, hbi, ha⟩ := hb'
  refine ⟨?_, hp, hbi, ha⟩
  change { b'.view with freeHead := slot } = _
  rw [hv]
  rfl

theorem scanBids_runs (hg : f.grid.Ok) {t : Nat} (ht : t < f.grid.nLevels) :
    Runs (Shows cap) (scanBids t) f
      (Ladder.scanDown (fun u => (f.lvl .bid u).head ≠ NIL) t) f := by
  induction t with
  | zero =>
    rw [scanBids, Ladder.scanDown]
    refine (level_runs 0 ht).bind (Runs.ite (fun h => ?_) fun h => ?_)
    · rw [if_pos (show (f.lvl .bid 0).head ≠ NIL from h)]
      exact Runs.pure _
    · rw [if_neg (show ¬ (f.lvl .bid 0).head ≠ NIL from h)]
      exact Runs.pure _
  | succ t ih =>
    rw [scanBids, Ladder.scanDown]
    rw [i32_level hg ht]
    refine (level_runs 0 ht).bind (Runs.ite (fun h => ?_) fun h => ?_)
    · rw [if_pos (show (f.lvl .bid (t + 1)).head ≠ NIL from h)]
      exact Runs.pure _
    · rw [if_neg (show ¬ (f.lvl .bid (t + 1)).head ≠ NIL from h)]
      exact ih (by omega)

theorem scanAsks_runs (hg : f.grid.Ok) {t n : Nat} (ht : t + n = f.grid.nLevels) :
    Runs (Shows cap) (scanAsks t n) f
      (Ladder.scanUp (fun u => (f.lvl .ask u).head ≠ NIL) t n) f := by
  induction n generalizing t with
  | zero => exact Runs.pure _
  | succ n ih =>
    have hlt : t < f.grid.nLevels := by omega
    rw [scanAsks, Ladder.scanUp]
    rw [i32_level hg hlt]
    refine (level_runs 1 hlt).bind (Runs.ite (fun h => ?_) fun h => ?_)
    · rw [if_pos (show (f.lvl .ask t).head ≠ NIL from h)]
      exact Runs.pure _
    · rw [if_neg (show ¬ (f.lvl .ask t).head ≠ NIL from h)]
      exact ih (by omega)

theorem repairBest_runs (hg : f.grid.Ok) {side t : Nat} (ht : t < f.grid.nLevels) :
    Runs (Shows cap) (repairBest side t) f () (f.repairBest (laneOf side) t) := by
  unfold repairBest
  rw [i32_level hg ht]
  refine Runs.get_bind fun b hb => ?_
  obtain rfl := hb.view
  refine Runs.ite (fun hside => ?_) fun hside => ?_
  · have hx : laneOf side = .bid := if_pos hside
    rw [hx, Flat.repairBest]
    refine Runs.ite (fun h => ?_) fun h => ?_
    · rw [if_pos (.inl h)]
      exact Runs.pure _
    refine (level_runs 0 ht).bind (Runs.ite (fun h' => ?_) fun h' => ?_)
    · rw [if_pos (.inr h')]
      exact Runs.pure _
    · have hc : ¬ (b.view.bestBid ≠ t ∨ (b.view.lvl .bid t).head ≠ NIL) := not_or.mpr ⟨h, h'⟩
      rw [if_neg hc]
      exact (scanBids_runs hg ht).bind (Runs.modify fun b' hb' => hb'.setBestBid _)
  · have hx : laneOf side = .ask := if_neg hside
    rw [hx, Flat.repairBest]
    refine Runs.ite (fun h => ?_) fun h => ?_
    · rw [if_pos (.inl h)]
      exact Runs.pure _
    refine (level_runs 1 ht).bind (Runs.ite (fun h' => ?_) fun h' => ?_)
    · rw [if_pos (.inr h')]
      exact Runs.pure _
    · have hc : ¬ (b.view.bestAsk ≠ t ∨ (b.view.lvl .ask t).head ≠ NIL) := not_or.mpr ⟨h, h'⟩
      rw [if_neg hc]
      have hn : t + (b.nLevels - t) = b.view.grid.nLevels := Nat.add_sub_of_le ht.le
      exact (scanAsks_runs hg hn).bind (Runs.modify fun b' hb' => hb'.setBestAsk _)

/-- All that a removal of `slot` touches is in bounds. -/
structure Removable (cap : Nat) (f : Flat) (slot : Nat) : Prop where
  grid : f.grid.Ok
  slot_lt : slot < cap
  tick_lt : f.grid.tickOf (f.ord slot).price < f.grid.nLevels
  prev_lt : f.prev slot ≠ NIL → f.prev slot < cap
  next_lt : f.next slot ≠ NIL → f.next slot < cap

theorem removable {q : Lane → Nat → List Nat} {L : Ledger} (h : Rep f L q) (hcap : f.hwm ≤ cap)
    {slot : Nat} (hq : Queued q slot) : Removable cap f slot := by
  have hlt : ∀ s, Queued q s → s < cap := fun s hs => Nat.lt_of_lt_of_le (h.queued_lt hs) hcap
  exact ⟨h.grid_ok, hlt slot hq, h.tick_lt hq, fun hne => hlt _ (h.prev_queued hq hne),
    fun hne => hlt _ (h.next_queued hq hne)⟩

/-- What `cancel` and `fill` share, once the id is out of the map and the order marked. -/
theorem remove_runs {slot : Nat} (h : Removable cap f slot) (orderId : Int)
    {mark : Order → Order} (hm : Flat.Books mark) :
    Runs (Shows cap) (do
        let t ← tickOf (f.ord slot).price
        unlink slot (f.ord slot).side t (i64 ((f.ord slot).qty - (f.ord slot).filled))
        freeSlot slot
        repairBest (f.ord slot).side t)
      (f.marked orderId slot mark) () (f.remove orderId slot mark) := by
  have hp : (f.marked orderId slot mark).prev slot = f.prev slot := by
    rw [Flat.prev, marked_ord_self, (hm.links _).2]; rfl
  have hn : (f.marked orderId slot mark).next slot = f.next slot := by
    rw [Flat.next, marked_ord_self, (hm.links _).1]; rfl
  refine (tickOf_runs (by exact h.grid.tick_pos) _).bind ?_
  refine (unlink_runs rfl h.slot_lt (by exact h.tick_lt) ?_ ?_ _).bind ?_
  · rw [hp]; exact h.prev_lt
  · rw [hn]; exact h.next_lt
  · exact (freeSlot_runs h.slot_lt).bind
      (repairBest_runs (by exact h.grid) (by exact h.tick_lt))

/-- A cancel books nothing. -/
theorem marked_withdrawn (f : Flat) (orderId : Int) (slot : Nat) :
    f.marked orderId slot Flat.withdrawn = f.setIds (f.ids.remove orderId) := by
  simp only [Flat.marked, Flat.setOrd, Flat.setIds, Flat.withdrawn, Flat.mk.injEq, true_and,
    and_true]
  funext y
  split
  · rename_i e; rw [e]
  · rfl

theorem cancel_runs_of {orderId : Int} {slot : Nat} (hs : f.ids orderId = some slot)
    (h : Removable cap f slot) :
    Runs (Shows cap) (cancel orderId) f () (f.remove orderId slot Flat.withdrawn) := by
  have hrest := remove_runs h orderId books_withdrawn
  rw [marked_withdrawn] at hrest
  unfold cancel
  exact (removeId_runs hs _).bind ((order_runs h.slot_lt).bind hrest)

theorem fill_runs_of {orderId : Int} {slot : Nat} (hs : f.ids orderId = some slot)
    (h : Removable cap f slot) :
    Runs (Shows cap) (fill orderId) f () (f.remove orderId slot Flat.completed) := by
  unfold fill
  refine (removeId_runs hs _).bind
    ((order_runs h.slot_lt).bind ((setOrder_runs h.slot_lt _).bind ?_))
  exact remove_runs h orderId books_completed

theorem cancel_runs {q : Lane → Nat → List Nat} {L : Ledger} (h : Rep f L q)
    (hcap : f.hwm ≤ cap) {orderId : Int} {slot : Nat} (hs : f.ids orderId = some slot) :
    Runs (Shows cap) (cancel orderId) f () (f.remove orderId slot Flat.withdrawn) :=
  cancel_runs_of hs (removable h hcap ((h.ids orderId slot).mp hs).1)

theorem fill_runs {q : Lane → Nat → List Nat} {L : Ledger} (h : Rep f L q)
    (hcap : f.hwm ≤ cap) {orderId : Int} {slot : Nat} (hs : f.ids orderId = some slot) :
    Runs (Shows cap) (fill orderId) f () (f.remove orderId slot Flat.completed) :=
  fill_runs_of hs (removable h hcap ((h.ids orderId slot).mp hs).1)

/-- Every admitted call runs if there is a slot for the order it puts in. -/
theorem apply_runs_of {L : Ledger} (h : f.Spares cap L) {op : Op} (hadm : op.Admitted f.grid L)
    (hroom : op.inserts = 1 → f.freeHead = NIL → f.hwm < cap) :
    Runs (Shows cap) (Book.apply op) f () (f.step op) := by
  cases op with
  | insert orderId price qty side => exact insert_runs h hadm (hroom rfl)
  | update orderId n =>
    obtain ⟨q, fl, hrep, hfl, hcap⟩ := h
    obtain ⟨slot, e, -, -⟩ := hrep.ids_isSome hadm.1
    simp only [Flat.step, e]
    exact update_runs hrep hcap e n
  | cancel orderId =>
    obtain ⟨q, fl, hrep, hfl, hcap⟩ := h
    obtain ⟨slot, e, -, -⟩ := hrep.ids_isSome hadm
    simp only [Flat.step, e]
    exact cancel_runs hrep hcap e
  | fill orderId =>
    obtain ⟨q, fl, hrep, hfl, hcap⟩ := h
    obtain ⟨slot, e, -, -⟩ := hrep.ids_isSome hadm
    simp only [Flat.step, e]
    exact fill_runs hrep hcap e

/-- Every call a store can carry out runs, and does the step. -/
theorem apply_runs {L : Ledger} (h : f.Holds cap L) {op : Op} (hop : op.Ready cap f.grid L) :
    Runs (Shows cap) (Book.apply op) f () (f.step op) := by
  refine apply_runs_of h.spares hop.1 fun hins => room_of_holds h ?_
  cases op with
  | insert orderId price qty side => exact hop.2.1
  | update orderId n => cases hins
  | cancel orderId => cases hins
  | fill orderId => cases hins

/-- A sequence of calls the store carries out runs to its end, and the memory
stays in step with the ledger. -/
theorem run_ready {g : Grid} {L : Ledger} {ops : List Op} (hfg : f.grid = g) (h : f.Holds cap L)
    (hready : Ready cap g L ops) :
    Runs (Shows cap) (Book.run ops) f () (f.steps ops) ∧
      (f.steps ops).Holds cap (L.after ops) ∧ (f.steps ops).grid = g := by
  induction ops generalizing f L with
  | nil => exact ⟨Runs.pure _, h, hfg⟩
  | cons op ops ih =>
    have hop : op.Ready cap f.grid L := hfg ▸ hready.1
    obtain ⟨hrun, hholds, hgrid⟩ := ih ((f.step_grid op).trans hfg) (h.step hop) hready.2
    exact ⟨(apply_runs h hop).bind hrun, hholds, hgrid⟩

theorem run_holds {cfg : SmrConfig} (hg : cfg.grid.Ok) {L : Ledger} {ops : List Op}
    (hfg : f.grid = cfg.grid) (h : f.Holds cfg.cap L) (hwf : WellFormed cfg L ops)
    (hfit : Fits cfg L ops) :
    Runs (Shows cfg.cap) (Book.run ops) f () (f.steps ops) ∧
      (f.steps ops).Holds cfg.cap (L.after ops) ∧ (f.steps ops).grid = cfg.grid :=
  run_ready hfg h (hwf.ready hg hfit)

/-- An insert that does not stop has found its level. -/
theorem insert_level {orderId price qty : Int} {side : Nat} {b b' : Book}
    (hb : b.Shows cap f) (htick : 0 < f.grid.tick)
    (h : insert orderId price qty side b = .ok () b') :
    f.grid.tickOf price < (b.lane side).size := by
  obtain ⟨b₀, e₀, -⟩ := tickOf_runs htick price b hb
  obtain ⟨t, b₁, e₁, h⟩ := bind_eq_ok.mp h
  rw [e₀] at e₁
  cases e₁
  obtain ⟨slot, b₂, e₂, h⟩ := bind_eq_ok.mp h
  have hshape := ((tickOf_shaped price).bind fun _ => allocSlot_shaped) b
  rw [last_ok (bind_eq_ok.mpr ⟨_, _, e₀, e₂⟩)] at hshape
  obtain ⟨lvl, b₃, e₃, -⟩ := bind_eq_ok.mp h
  have hlane : (b₂.lane side).size = (b.lane side).size := by
    unfold lane
    split
    · exact hshape.bids
    · exact hshape.asks
  rw [← hlane]
  by_contra hge
  simp only [level, Array.getElem?_eq_none (Nat.le_of_not_lt hge)] at e₃
  cases e₃

/-- A well-formed call that a book with no spare levels completes is one it carries out. -/
theorem apply_ready {cfg : SmrConfig} (hg : cfg.grid.Ok) {L : Ledger} {op : Op} {b b' : Book}
    (hb : b.Shows cfg.cap f) (hfg : f.grid = cfg.grid) (hnarrow : b.Narrow)
    (hwf : op.WellFormed cfg L) (hslots : op.SlotsFit L) (hrun : apply op b = .ok () b') :
    op.Ready cfg.cap cfg.grid L := by
  cases op with
  | insert orderId price qty side =>
    obtain ⟨hi, h0, hnew, -, hs, hq, hcap, hsum⟩ := hwf
    have hlvl := insert_level hb (by rw [hfg]; exact hg.tick_pos) hrun
    rw [hnarrow.lane_size side, hfg] at hlvl
    have hn : b.nLevels = cfg.grid.nLevels := by rw [← hfg, ← hb.view]; rfl
    exact ⟨⟨hi, h0, hnew, hn ▸ hlvl, hs, hq, hsum⟩, hcap, hslots⟩
  | update orderId n => exact ⟨⟨hwf.1, hwf.2.1⟩, trivial⟩
  | cancel orderId => exact ⟨hwf, trivial⟩
  | fill orderId => exact ⟨hwf, trivial⟩

/-- The same over a run: what a book completes of a well-formed sequence it
carries out in step with the ledger. -/
theorem run_completes {cfg : SmrConfig} (hg : cfg.grid.Ok) {L : Ledger} {ops : List Op} {b b' : Book}
    (hb : b.Shows cfg.cap f) (hfg : f.grid = cfg.grid) (hnarrow : b.Narrow)
    (h : f.Holds cfg.cap L) (hwf : WellFormed cfg L ops) (hslots : SlotsFit L ops)
    (hrun : run ops b = .ok () b') : Ready cfg.cap cfg.grid L ops := by
  induction ops generalizing f L b with
  | nil => trivial
  | cons op ops ih =>
    obtain ⟨b₁, e₁, e₂⟩ := runAll_cons_eq_ok.mp hrun
    have hop := apply_ready hg hb hfg hnarrow hwf.1 hslots.1 e₁
    have hshape := apply_shaped op b
    rw [last_ok e₁] at hshape
    have hop' : op.Ready cfg.cap f.grid L := by rw [hfg]; exact hop
    obtain ⟨b₁', e₁', hb₁⟩ := apply_runs h hop' b hb
    rw [e₁] at e₁'
    cases e₁'
    exact ⟨hop, ih hb₁ ((f.step_grid op).trans hfg) (hnarrow.of_shape hshape) (h.step hop') hwf.2
      hslots.2 e₂⟩

theorem new_shows (cfg : SmrConfig) : (new cfg).Shows cfg.cap (new cfg).view :=
  ⟨rfl, by simp [new], by simp [new], by simp [new]⟩

/-- A new book has nothing in its slots and levels. -/
theorem new_blank (cfg : SmrConfig) : (∀ s, (new cfg).view.ord s = Order.zero) ∧
    ∀ x t, (new cfg).view.lvl x t = PriceLevel.EMPTY := by
  refine ⟨fun s => ?_, fun x t => ?_⟩
  · simp only [view, new, Array.getElem?_replicate]
    split <;> rfl
  · cases x <;>
    · simp only [view, new, Array.getElem?_replicate]
      split <;> rfl

theorem new_holds {cfg : SmrConfig} (hg : cfg.grid.Ok) : (new cfg).view.Holds cfg.cap [] := by
  obtain ⟨hord, hlvl⟩ := new_blank cfg
  exact ⟨_, _, Rep.empty hg hlvl hord (fun _ => rfl) rfl rfl rfl, FreeList.empty hord rfl rfl,
    Nat.zero_le _⟩

end Book

end HiPerf
