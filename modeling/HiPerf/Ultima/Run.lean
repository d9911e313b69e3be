import HiPerf.Ultima.Rows

/-!
The commands, run on tables that show a memory: none of them stops, and each
does to the memory what the corresponding step does.
-/

namespace HiPerf

open Machine Tables Exec

namespace UltimaBook

variable {db : Db} {f : Flat} {L : Ledger} {q : Lane → Nat → List Nat} {n capacity : Nat}
  {u : UltimaBook db}

/-- The config and the ids of `u` are those of `f`. -/
structure Knows (u : UltimaBook db) (f : Flat) : Prop where
  priceMin : u.priceMin = f.grid.priceMin
  tick : u.tick = f.grid.tick
  nLevels : u.nLevels = f.grid.nLevels
  ids : ∀ i, u.ids i = (f.ids i).map rowOf

theorem slotOf_rowOf {s : Nat} (hs : s ≤ NIL) : slotOf (rowOf s) = s := by
  simp only [slotOf, rowOf, Nat.cast_add, Nat.cast_one, Int.add_sub_cancel]
  exact u32_eq_self (by simp only [NIL] at hs; omega)

theorem tickOf_run (hu : u.Knows f) (htick : 0 < f.grid.tick) (price : Int) :
    tickOf price u = .ok (f.grid.tickOf price) u := by
  have h : 0 < u.tick := hu.tick ▸ htick
  simp only [tickOf, get_bind, gridTick, ite_run]
  rw [if_neg (by omega), if_neg (by omega), hu.priceMin, hu.tick]
  rfl

theorem rowId_run (hu : u.Knows f) {orderId : Int} {slot : Nat} (h : f.ids orderId = some slot) :
    rowId orderId u = .ok (rowOf slot) u := by
  have e : u.ids orderId = some (rowOf slot) := by rw [hu.ids, h]; rfl
  simp only [rowId, e]

theorem removeId_run (hu : u.Knows f) {orderId : Int} {slot : Nat} (h : f.ids orderId = some slot)
    (text : String) :
    removeId orderId text u = .ok (rowOf slot) { u with ids := u.ids.remove orderId } := by
  have e : u.ids orderId = some (rowOf slot) := by rw [hu.ids, h]; rfl
  simp only [removeId, e]

theorem Knows.insert (hu : u.Knows f) (orderId : Int) (slot : Nat) :
    Knows { u with ids := u.ids.insert orderId (rowOf slot) }
      (f.setIds (f.ids.insert orderId slot)) where
  priceMin := hu.priceMin
  tick := hu.tick
  nLevels := hu.nLevels
  ids i := by
    change (if i = orderId then some (rowOf slot) else u.ids i) =
      (if i = orderId then some slot else f.ids i).map rowOf
    split
    · rfl
    · exact hu.ids i

theorem Knows.remove (hu : u.Knows f) (orderId : Int) :
    Knows { u with ids := u.ids.remove orderId } (f.setIds (f.ids.remove orderId)) where
  priceMin := hu.priceMin
  tick := hu.tick
  nLevels := hu.nLevels
  ids i := by
    change (if i = orderId then none else u.ids i) = (if i = orderId then none else f.ids i).map rowOf
    split
    · rfl
    · exact hu.ids i

theorem scanBids_eq {occupied : Nat → Bool} (hg : f.grid.Ok) {t : Nat} (ht : t < f.grid.nLevels)
    (h : ∀ u ≤ t, occupied u = decide ((f.lvl .bid u).head ≠ NIL)) :
    scanBids occupied t = Ladder.scanDown (fun u => (f.lvl .bid u).head ≠ NIL) t := by
  induction t with
  | zero => simp only [scanBids, Ladder.scanDown, h 0 (Nat.le_refl 0), decide_eq_true_eq]; rfl
  | succ t ih =>
    simp only [scanBids, Ladder.scanDown, h (t + 1) (Nat.le_refl _), decide_eq_true_eq]
    rw [Book.i32_level hg ht, ih (by omega) fun u hu => h u (by omega)]

theorem scanAsks_eq {occupied : Nat → Bool} (hg : f.grid.Ok) {t k : Nat} (ht : t + k = f.grid.nLevels)
    (h : ∀ u < f.grid.nLevels, occupied u = decide ((f.lvl .ask u).head ≠ NIL)) :
    scanAsks occupied t k = Ladder.scanUp (fun u => (f.lvl .ask u).head ≠ NIL) t k := by
  induction k generalizing t with
  | zero => rfl
  | succ k ih =>
    have hlt : t < f.grid.nLevels := by omega
    simp only [scanAsks, Ladder.scanUp, h t hlt, decide_eq_true_eq]
    rw [Book.i32_level hg hlt, ih (by omega)]

/-- What the repair makes of the scalars. -/
theorem rescanBest_eq (hg : f.grid.Ok) (hu : u.Knows f) {l : db.Table LevelRec} (hl : LevelsShow l f)
    {side t : Nat} (ht : t < f.grid.nLevels) (hempty : (f.lvl (laneOf side) t).head = NIL) :
    (rescanBest u l (f.metaRow capacity) side t).getD (f.metaRow capacity) =
      (f.repairBest (laneOf side) t).metaRow capacity := by
  have hocc : ∀ side ≤ 1, ∀ i < f.grid.nLevels,
      ((db.get l (u.levelId side i)).any fun r => decide (r.2.2.head ≠ NIL)) =
        decide ((f.lvl (laneOf side) i).head ≠ NIL) := by
    intro side hs i hi
    rw [levelId, hu.nLevels, hl.at_ hs hi]
    rfl
  unfold rescanBest
  rw [Book.i32_level hg ht]
  by_cases hside : side = 0
  · have hx : laneOf side = .bid := if_pos hside
    rw [hx] at hempty ⊢
    rw [if_pos hside, scanBids_eq hg ht fun i hi => hocc 0 (by omega) i (by omega)]
    by_cases hbest : f.bestBid ≠ t
    · rw [if_pos (by exact hbest)]
      simp [Flat.repairBest, Flat.setBestBid, Flat.metaRow, hbest]
    · rw [if_neg (by exact hbest)]
      simp only [Flat.repairBest, Flat.setBestBid, Flat.metaRow, Option.getD_some]
      rw [if_neg (not_or.mpr ⟨hbest, not_not.mpr hempty⟩)]
  · have hx : laneOf side = .ask := if_neg hside
    rw [hx] at hempty ⊢
    rw [if_neg hside, hu.nLevels, scanAsks_eq hg (Nat.add_sub_of_le ht.le)
      fun i hi => hocc 1 (by omega) i hi]
    by_cases hbest : f.bestAsk ≠ t
    · rw [if_pos (by exact hbest)]
      simp [Flat.repairBest, Flat.setBestAsk, Flat.metaRow, hbest]
    · rw [if_neg (by exact hbest)]
      simp only [Flat.repairBest, Flat.setBestAsk, Flat.metaRow, Option.getD_some]
      rw [if_neg (not_or.mpr ⟨hbest, not_not.mpr hempty⟩)]

/-- A level that is still occupied needs no repair. -/
theorem repairBest_head {x : Lane} {t : Nat} (h : (f.lvl x t).head ≠ NIL) : f.repairBest x t = f := by
  cases x with
  | bid => simp [Flat.repairBest, Flat.setBestBid, h]
  | ask => simp [Flat.repairBest, Flat.setBestAsk, h]

/-- Three tables that show a memory. -/
structure TablesShow (capacity : Nat) (l : db.Table LevelRec) (o : db.Table Order)
    (m : db.Table MetaRec) (f : Flat) (n : Nat) : Prop where
  levels : LevelsShow l f
  orders : OrdersShow o f n
  metas : db.get m 1 = some (f.metaRow capacity)

variable {l : db.Table LevelRec} {o : db.Table Order} {m : db.Table MetaRec}

theorem levels_run (hu : u.Knows f) (hl : LevelsShow l f) {side t : Nat} (hs : side ≤ 1)
    (ht : t < f.grid.nLevels) :
    db.get l (u.levelId side t) = some (side, t, f.lvl (laneOf side) t) := by
  rw [levelId, hu.nLevels]
  exact hl.at_ hs ht

theorem levels_update (hdb : db.Lawful) (hu : u.Knows f) (hl : LevelsShow l f) {side t : Nat}
    (hs : side ≤ 1) (ht : t < f.grid.nLevels) (lvl : PriceLevel) :
    ∃ l', db.update l (u.levelId side t) (side, t, lvl) = some l' ∧
      LevelsShow l' (f.setLvl (laneOf side) t lvl) := by
  rw [levelId, hu.nLevels]
  exact hl.update hdb hs ht lvl

theorem metas_update (hdb : db.Lawful) {r : MetaRec} (hm : db.get m 1 = some r) (r' : MetaRec) :
    ∃ m', db.update m 1 r' = some m' ∧ db.get m' 1 = some r' := by
  obtain ⟨m', e, -, hget⟩ := hdb.update_ok m 1 r' (by rw [hm]; exact Option.some_ne_none _)
  exact ⟨m', e, by rw [hget, if_pos rfl]⟩

theorem applyInsertMt_run (hdb : db.Lawful) (hu : u.Knows f) (h : TablesShow capacity l o m f n)
    (hs : Sparse f L q n) (hroom : n ≤ NIL) {orderId price qty : Int} {side : Nat}
    (hadm : (Op.insert orderId price qty side).Admitted f.grid L) :
    ∃ l' o' m' u', applyInsertMt (l, o, m) orderId price qty side u = .ok (l', o', m') u' ∧
      u'.Knows (f.append n ⟨orderId, price, qty, 0, side⟩) ∧
      TablesShow capacity l' o' m' (f.append n ⟨orderId, price, qty, 0, side⟩) (n + 1) := by
  obtain ⟨-, hid, -, ht, hside, -, -⟩ := hadm
  have hg := hs.rep.grid_ok
  have hlvl := levels_run hu h.levels hside ht
  set t := f.grid.tickOf price with htdef
  set lvl := f.lvl (laneOf side) t
  set x : Order := ⟨orderId, price, qty, 0, NIL, lvl.tail, side⟩
  obtain ⟨o₁, e₁, ho₁⟩ := h.orders.insert hdb (x := x) hid
  have hslot : slotOf (n + 1) = n := slotOf_rowOf hroom
  have htail : lvl.tail ≠ NIL → ((f.setOrd n x).ord lvl.tail).orderId ≠ 0 := by
    intro hne
    have hq := hs.rep.tail_queued hne
    simp only [Flat.setOrd]
    rw [if_neg (Nat.ne_of_lt (hs.below _ hq))]
    exact hs.rep.queued_id_ne hq
  obtain ⟨o₂, e₂, ho₂⟩ := ho₁.linkNext hdb htail n "prev order" "prev update"
  obtain ⟨l', el, hl'⟩ := levels_update hdb hu h.levels hside ht (pushed lvl n qty)
  obtain ⟨m', em, hm'⟩ := metas_update hdb h.metas (noted (f.metaRow capacity) n side t)
  have hlevel : ({ u with ids := u.ids.insert orderId (n + 1) } : UltimaBook db).levelId side t =
      u.levelId side t := rfl
  refine ⟨l', o₂, m', { u with ids := u.ids.insert orderId (n + 1) }, ?_, ?_, hl', ?_, ?_⟩
  · unfold applyInsertMt
    dsimp only
    rw [bind_ok (tickOf_run hu hg.tick_pos price), get_bind, ← htdef, hlvl]
    simp only [expect, pure_bind]
    rw [e₁]
    simp only [pure_bind, modify_bind, hslot, e₂, el, h.metas, em]
    rfl
  · have hk := hu.insert orderId n
    exact ⟨hk.priceMin, hk.tick, hk.nLevels, hk.ids⟩
  · exact ⟨ho₂.get, ho₂.nextId⟩
  · rw [hm', noted, Book.i32_level hg ht]
    rfl

theorem applyUpdateMt_run (hdb : db.Lawful) (hu : u.Knows f) (h : TablesShow capacity l o m f n)
    (hs : Sparse f L q n) {orderId : Int} {slot : Nat} (hslot : f.ids orderId = some slot)
    (fillQty : Int) :
    ∃ l' o', applyUpdateMt (o, l) orderId fillQty u = .ok (o', l') u ∧
      u.Knows (f.fillSlot slot fillQty) ∧
      TablesShow capacity l' o' m (f.fillSlot slot fillQty) n := by
  obtain ⟨hq, -⟩ := (hs.rep.ids orderId slot).mp hslot
  have hid := hs.rep.queued_id_ne hq
  have ht := hs.rep.tick_lt hq
  have hside := hs.rep.side_le hq
  have hlvl := levels_run hu h.levels hside ht
  set x := f.ord slot
  set add := min fillQty (i64 (x.qty - x.filled))
  obtain ⟨o', eo, ho'⟩ := h.orders.update hdb hid (x := { x with filled := i64 (x.filled + add) }) hid
  obtain ⟨l', el, hl'⟩ := levels_update hdb hu h.levels hside ht
    { f.lvl (laneOf x.side) (f.grid.tickOf x.price) with
      qtyTotal := i64 ((f.lvl (laneOf x.side) (f.grid.tickOf x.price)).qtyTotal - add) }
  refine ⟨l', o', ?_, ⟨hu.priceMin, hu.tick, hu.nLevels, hu.ids⟩, hl', ⟨ho'.get, ho'.nextId⟩, h.metas⟩
  unfold applyUpdateMt
  dsimp only
  rw [bind_ok (rowId_run hu hslot), h.orders.rowOf_get hid]
  simp only [expect, pure_bind]
  rw [bind_ok (tickOf_run hu hs.rep.grid_ok.tick_pos _), get_bind, eo, hlvl]
  simp only [pure_bind]
  rw [el]
  rfl

/-- Repairing the best shows in the scalars alone. -/
theorem TablesShow.repairBest {m' : db.Table MetaRec} (hl : LevelsShow l f) (ho : OrdersShow o f n)
    {x : Lane} {t : Nat} (hm : db.get m' 1 = some ((f.repairBest x t).metaRow capacity)) :
    TablesShow capacity l o m' (f.repairBest x t) n := by
  cases x with
  | bid => exact ⟨hl, ⟨ho.get, ho.nextId⟩, hm⟩
  | ask => exact ⟨hl, ⟨ho.get, ho.nextId⟩, hm⟩

theorem Knows.repairBest (hu : u.Knows f) (x : Lane) (t : Nat) : u.Knows (f.repairBest x t) := by
  cases x with
  | bid => exact ⟨hu.priceMin, hu.tick, hu.nLevels, hu.ids⟩
  | ask => exact ⟨hu.priceMin, hu.tick, hu.nLevels, hu.ids⟩

/-- The end of a cancel: the best is searched for if the level is empty now. -/
theorem repair_run (hdb : db.Lawful) (hu : u.Knows f) (hl : LevelsShow l f) (ho : OrdersShow o f n)
    (hm : db.get m 1 = some (f.metaRow capacity)) (hg : f.grid.Ok) (side : Nat) {t : Nat}
    (ht : t < f.grid.nLevels) :
    ∃ m', (if (f.lvl (laneOf side) t).head = NIL then do
        let r ← expect "meta rec" (db.get m 1)
        match rescanBest (← get) l r side t with
        | none => return (l, o, m)
        | some r =>
          let m ← expect "meta update" (db.update m 1 r)
          return (l, o, m)
      else return (l, o, m) : Run (UltimaBook db) (Handles db)) u = .ok (l, o, m') u ∧
      TablesShow capacity l o m' (f.repairBest (laneOf side) t) n := by
  by_cases hhead : (f.lvl (laneOf side) t).head = NIL
  · rw [if_pos hhead, hm]
    simp only [expect, pure_bind, get_bind]
    have hscan : (rescanBest u l (f.metaRow capacity) side t).getD (f.metaRow capacity) =
        (f.repairBest (laneOf side) t).metaRow capacity := rescanBest_eq hg hu hl ht hhead
    cases e : rescanBest u l (f.metaRow capacity) side t with
    | none =>
      rw [e, Option.getD_none] at hscan
      exact ⟨m, rfl, TablesShow.repairBest hl ho (hscan ▸ hm)⟩
    | some r =>
      rw [e, Option.getD_some] at hscan
      obtain ⟨m', em, hm'⟩ := metas_update hdb hm r
      refine ⟨m', ?_, TablesShow.repairBest hl ho (hscan ▸ hm')⟩
      simp only [em]
      rfl
  · rw [if_neg hhead, repairBest_head hhead]
    exact ⟨m, rfl, hl, ho, hm⟩

theorem linkNext_orderId (f : Flat) (s v y : Nat) :
    ((f.linkNext s v).ord y).orderId = (f.ord y).orderId := by
  simp only [Flat.linkNext]
  split <;> rfl

theorem linkPrev_orderId (f : Flat) (s v y : Nat) :
    ((f.linkPrev s v).ord y).orderId = (f.ord y).orderId := by
  simp only [Flat.linkPrev]
  split <;> rfl

/-- A removed order's neighbours are linked to each other, and its row goes. -/
theorem rows_run (hdb : db.Lawful) (ho : OrdersShow o f n) (hs : Sparse f L q n) {slot : Nat}
    (hq : Queued q slot) {x : Order} (hx : f.ord slot = x) : ∃ o₁ o₂ o₃,
      linkNext o x.prev x.next "prev order" "prev update" = pure o₁ ∧
      linkPrev o₁ x.next x.prev "next order" "next update" = pure o₂ ∧
      db.delete o₂ (rowOf slot) = some o₃ ∧
      OrdersShow o₃ (((f.linkNext x.prev x.next).linkPrev x.next x.prev).setOrd slot Order.zero) n := by
  subst hx
  have hlink : ∀ s, (s ≠ NIL → Queued q s) → s ≠ NIL → (f.ord s).orderId ≠ 0 :=
    fun s hs' hne => hs.rep.queued_id_ne (hs' hne)
  obtain ⟨o₁, e₁, ho₁⟩ := ho.linkNext hdb (s := (f.ord slot).prev)
    (hlink _ (hs.rep.prev_queued hq)) (f.ord slot).next "prev order" "prev update"
  obtain ⟨o₂, e₂, ho₂⟩ := ho₁.linkPrev hdb (s := (f.ord slot).next)
    (by rw [linkNext_orderId]; exact hlink _ (hs.rep.next_queued hq)) (f.ord slot).prev
    "next order" "next update"
  obtain ⟨o₃, e₃, ho₃⟩ := ho₂.delete hdb (s := slot)
    (by rw [linkPrev_orderId, linkNext_orderId]; exact hs.rep.queued_id_ne hq)
  exact ⟨o₁, o₂, o₃, e₁, e₂, e₃, ho₃⟩

theorem applyCancelMt_run (hdb : db.Lawful) (hu : u.Knows f) (h : TablesShow capacity l o m f n)
    (hs : Sparse f L q n) {orderId : Int} {slot : Nat} (hslot : f.ids orderId = some slot) :
    ∃ l' o' m' u', applyCancelMt (l, o, m) orderId u = .ok (l', o', m') u' ∧
      u'.Knows (f.delete slot) ∧ TablesShow capacity l' o' m' (f.delete slot) n := by
  obtain ⟨hq, hid⟩ := (hs.rep.ids orderId slot).mp hslot
  have ht := hs.rep.tick_lt hq
  have hside := hs.rep.side_le hq
  have hg := hs.rep.grid_ok
  have hu' := hu.remove orderId
  have hget := h.orders.rowOf_get (hs.rep.queued_id_ne hq)
  have hrow : slotOf (rowOf slot) = slot :=
    slotOf_rowOf (Nat.le_of_lt (Nat.lt_of_lt_of_le (hs.rep.queued_lt hq) hs.rep.hwm_le))
  have hdelete : f.delete slot = (((f.setIds (f.ids.remove orderId)).unlink slot
      (laneOf (f.ord slot).side) (f.grid.tickOf (f.ord slot).price)
      (i64 ((f.ord slot).qty - (f.ord slot).filled))).setOrd slot Order.zero).repairBest
      (laneOf (f.ord slot).side) (f.grid.tickOf (f.ord slot).price) := by
    rw [Flat.delete, Flat.unlinked, Book.marked_withdrawn, hid]
  obtain ⟨x, hx⟩ : ∃ x, f.ord slot = x := ⟨_, rfl⟩
  obtain ⟨o₁, o₂, o₃, e₁, e₂, e₃, ho₃⟩ := rows_run hdb h.orders hs hq hx
  rw [hx] at ht hside hget hdelete
  set t := f.grid.tickOf x.price with htdef
  have hlvl := levels_run hu' h.levels hside ht
  obtain ⟨lvl, hlvldef⟩ : ∃ lvl, popped ((f.setIds (f.ids.remove orderId)).lvl (laneOf x.side) t)
    slot x = lvl := ⟨_, rfl⟩
  obtain ⟨l', el, hl'⟩ := levels_update hdb hu' h.levels hside ht lvl
  obtain ⟨g, hgdef⟩ : ∃ g, ((f.setIds (f.ids.remove orderId)).unlink slot (laneOf x.side) t
    (i64 (x.qty - x.filled))).setOrd slot Order.zero = g := ⟨_, rfl⟩
  have hset : (f.setIds (f.ids.remove orderId)).ord slot = x := hx
  have hlvls : g.lvl = (f.setLvl (laneOf x.side) t lvl).lvl := by
    rw [← hgdef, ← hlvldef, Flat.unlink, hset]
    rfl
  have hords : g.ord = (((f.linkNext x.prev x.next).linkPrev x.next x.prev).setOrd slot
      Order.zero).ord := by
    rw [← hgdef, Flat.unlink, hset]
    rfl
  have hhead : (g.lvl (laneOf x.side) t).head = lvl.head := by
    rw [hlvls]
    simp [Flat.setLvl]
  have hgrid : g.grid = f.grid := hgdef ▸ rfl
  have hgu : Knows { u with ids := u.ids.remove orderId } g := by
    rw [← hgdef]
    exact ⟨hu'.priceMin, hu'.tick, hu'.nLevels, hu'.ids⟩
  have hgl : LevelsShow l' g := fun i => by
    rw [hl', Flat.levelRow, Flat.levelRow, hlvls, hgrid]
    rfl
  have hgo : OrdersShow o₃ g n := ⟨fun i => by
    rw [ho₃.get]
    cases i with
    | zero => rfl
    | succ s => rw [Flat.orderRow, Flat.orderRow, hords], ho₃.nextId⟩
  have hgm : db.get m 1 = some (g.metaRow capacity) := by
    rw [h.metas, ← hgdef]
    rfl
  obtain ⟨m', em, hshow⟩ := repair_run hdb hgu hgl hgo hgm (hgrid ▸ hg) x.side (hgrid ▸ ht)
  rw [hhead] at em
  rw [hgdef] at hdelete
  refine ⟨l', o₃, m', { u with ids := u.ids.remove orderId }, ?_, hdelete ▸ hgu.repairBest _ _,
    hdelete ▸ hshow⟩
  unfold applyCancelMt
  dsimp only
  rw [bind_ok (removeId_run hu hslot _), hget, hrow]
  simp only [expect, pure_bind]
  rw [bind_ok (tickOf_run hu' hg.tick_pos _), get_bind]
  simp only [e₁, e₂, pure_bind, e₃]
  rw [show (f.setIds (f.ids.remove orderId)).grid.tickOf x.price = t from rfl, hlvl]
  simp only [pure_bind]
  rw [hlvldef, el]
  exact em

/-- The book is at a version whose tables show `m`. -/
structure Shows (capacity : Nat) (u : UltimaBook db) (m : Tape) : Prop where
  knows : u.Knows m.flat
  tables : ∃ l o ms, u.Current ⟨some l, some o, some ms⟩ ∧
    TablesShow capacity l o ms m.flat m.next

/-- The same of a book whose table of orders need not have been opened yet. -/
structure Opens (capacity : Nat) (u : UltimaBook db) (m : Tape) : Prop where
  knows : u.Knows m.flat
  tables : ∃ l os o ms, u.Current ⟨some l, os, some ms⟩ ∧ db.openTable os = some o ∧
    TablesShow capacity l o ms m.flat m.next

theorem Shows.opens (hdb : db.Lawful) {m : Tape} (h : u.Shows capacity m) : u.Opens capacity m := by
  obtain ⟨hk, l, o, ms, hu, ht⟩ := h
  exact ⟨hk, l, some o, o, ms, hu, hdb.openTable_some o, ht⟩

theorem Same.knows {u c : UltimaBook db} (h : Same u c) (hc : c.Knows f) : u.Knows f := by
  rw [h]
  exact ⟨hc.priceMin, hc.tick, hc.nLevels, hc.ids⟩

/-- A transaction whose body shows `f` in the end commits it. -/
theorem transaction_shows (hdb : db.Lawful)
    {body : UltimaTables db → Run (UltimaBook db) (UltimaTables db)} {T : UltimaTables db}
    (hu : u.Current T) (hb : Blind (body T)) {c : UltimaBook db}
    (hrun : body T u = .ok ⟨some l, some o, some m⟩ c) (hk : c.Knows f)
    (hshow : TablesShow capacity l o m f n) :
    ∃ u₁, transaction body u = .ok () u₁ ∧ u₁.Shows capacity ⟨f, n⟩ := by
  obtain ⟨u₁, e, hu₁, hsame⟩ := transaction_back hdb hu.latest hu.head hb hrun
  exact ⟨u₁, e, hsame.knows hk, l, o, m, hu₁, hshow⟩

theorem map_ok {α β : Type} {x : Run (UltimaBook db) α} {g : α → β} {a : α} {u' : UltimaBook db}
    (h : x u = .ok a u') : (g <$> x) u = .ok (g a) u' := by
  rw [map_eq_pure_bind, bind_ok h]
  rfl

/-- Every call a store relies on runs; the tables show the step even if the slot
of a new order is the sentinel. -/
theorem apply_run (hdb : db.Lawful) {m : Tape} (hm : m.Holds L) {op : Op}
    (hadm : op.Admitted m.flat.grid L) (hroom : m.next ≤ NIL)
    (hu : u.Opens capacity m) : ∃ u', apply op u = .ok () u' ∧ u'.Shows capacity (m.step op) := by
  obtain ⟨q, hs⟩ := hm
  obtain ⟨hk, l, os, o, ms, hcur, ho, hshow⟩ := hu
  have hcancel : ∀ orderId ∈ L.ids, ∃ slot, m.flat.ids orderId = some slot ∧
      ∃ u', cancel orderId u = .ok () u' ∧ u'.Shows capacity ⟨m.flat.delete slot, m.next⟩ := by
    intro orderId hid
    obtain ⟨slot, e, -, -⟩ := hs.rep.ids_isSome hid
    obtain ⟨l', o', ms', u', erun, hk', hshow'⟩ := applyCancelMt_run hdb hk hshow hs e
    refine ⟨slot, e, transaction_shows hdb hcur (applyCancel_blind _ _) ?_ hk' hshow'⟩
    rw [applyCancel_eq hdb ho]
    exact map_ok erun
  cases op with
  | insert orderId price qty side =>
    obtain ⟨l', o', ms', u', erun, hk', hshow'⟩ := applyInsertMt_run hdb hk hshow hs hroom hadm
    refine transaction_shows hdb hcur (applyInsert_blind _ _ _ _ _) ?_ hk' hshow'
    rw [applyInsert_eq hdb ho]
    exact map_ok erun
  | update orderId fillQty =>
    obtain ⟨slot, e, -, -⟩ := hs.rep.ids_isSome hadm.1
    obtain ⟨l', o', erun, hk', hshow'⟩ := applyUpdateMt_run hdb hk hshow hs e fillQty
    simp only [Tape.step, e]
    refine transaction_shows hdb hcur (applyUpdate_blind _ _ _) ?_ hk' hshow'
    rw [applyUpdate_eq hdb ho]
    exact map_ok erun
  | cancel orderId =>
    obtain ⟨slot, e, h⟩ := hcancel orderId hadm
    simp only [Tape.step, e]
    exact h
  | fill orderId =>
    obtain ⟨slot, e, h⟩ := hcancel orderId hadm
    simp only [Tape.step, e]
    exact h

/-- A run of such calls. -/
theorem run_shows (hdb : db.Lawful) {g : Grid} {m : Tape} {ops : List Op} (hfg : m.flat.grid = g)
    (hm : m.Holds L) (hadm : Admitted g L ops) (hroom : m.next + inserts ops ≤ NIL)
    (hu : u.Opens capacity m) : ∃ u', run ops u = .ok () u' ∧ u'.Opens capacity (m.steps ops) ∧
      (ops ≠ [] → u'.Shows capacity (m.steps ops)) ∧ (m.steps ops).Holds (L.after ops) ∧
      (m.steps ops).flat.grid = g := by
  induction ops generalizing m L u with
  | nil => exact ⟨u, rfl, hu, fun h => absurd rfl h, hm, hfg⟩
  | cons op ops ih =>
    rw [inserts, List.map_cons, List.sum_cons] at hroom
    obtain ⟨u₁, e₁, h₁⟩ := apply_run hdb hm (hfg ▸ hadm.1) (by omega) hu
    obtain ⟨u', e', hopens, hshows, hrest⟩ := ih ((m.step_grid op).trans hfg)
      (hm.step (hfg ▸ hadm.1) (by omega)) hadm.2
      (by rw [m.step_next]; unfold inserts; omega) (h₁.opens hdb)
    refine ⟨u', runAll_cons_eq_ok.mpr ⟨u₁, e₁, e'⟩, hopens, fun _ => ?_, hrest⟩
    cases ops with
    | nil => cases e'; exact h₁
    | cons op' ops => exact hshows (List.cons_ne_nil _ _)

/-- The levels table on its way to show `f`: the rows before `row` are there. -/
def Seeding (f : Flat) (l : db.Table LevelRec) (row : Nat) : Prop :=
  db.nextId l = row ∧ ∀ i, db.get l i = if i < row then f.levelRow i else none

theorem seedLane_run (hdb : db.Lawful) (hlvl : ∀ x t, f.lvl x t = PriceLevel.EMPTY) (side : Nat) {t k : Nat}
    (hside : side ≤ 1) (ht : t + k = f.grid.nLevels)
    (hl : Seeding f l (side * f.grid.nLevels + t + 1)) (u : UltimaBook db) :
    ∃ l', seedLane l side t k u = .ok l' u ∧
      Seeding f l' (side * f.grid.nLevels + f.grid.nLevels + 1) := by
  induction k generalizing l t with
  | zero =>
    obtain rfl : t = f.grid.nLevels := ht
    exact ⟨l, rfl, hl⟩
  | succ k ih =>
    obtain ⟨l₁, e, hnext, hget⟩ := hdb.insert_ok l (side, t, PriceLevel.EMPTY)
    rw [hl.1] at hnext hget
    have hrow := f.levelRow_at hside (show t < f.grid.nLevels by omega)
    have hl₁ : Seeding f l₁ (side * f.grid.nLevels + (t + 1) + 1) := by
      refine ⟨by omega, fun i => ?_⟩
      rw [hget, hl.2]
      split
      · rename_i hi
        rw [if_pos (by omega), hi, hrow, hlvl]
      · rename_i hi
        split
        · rw [if_pos (by omega)]
        · rw [if_neg (by omega)]
    obtain ⟨l', e', hl'⟩ := ih (t := t + 1) (by omega) hl₁
    refine ⟨l', ?_, hl'⟩
    rw [seedLane, e]
    exact e'

/-- The memory of a book without orders. -/
def blankTape (cfg : SmrConfig) : Tape := ⟨(Book.new cfg).view, 0⟩

theorem blankTape_holds {cfg : SmrConfig} (hg : cfg.grid.Ok) : (blankTape cfg).Holds [] := by
  obtain ⟨hord, hlvl⟩ := Book.new_blank cfg
  exact ⟨_, Sparse.empty hg hlvl hord (fun _ => rfl) rfl rfl rfl rfl⟩

/-- A new book has its levels and scalars, and no orders. -/
theorem new_opens (hdb : db.Lawful) (cfg : SmrConfig) :
    ∃ u, new db cfg = .ok u ∧ u.Opens (u32 cfg.cap) (blankTape cfg) := by
  obtain ⟨hord, hlvl⟩ := Book.new_blank cfg
  obtain ⟨hlatest, hhead⟩ := hdb.create_at (UltimaTables.empty db)
  obtain ⟨l₀, e₀, hnext₀, hget₀⟩ := @Db.Lawful.openTable_none db hdb LevelRec
  obtain ⟨o, eo, hnexto, hgeto⟩ := @Db.Lawful.openTable_none db hdb Order
  obtain ⟨m₀, em₀, hnextm, -⟩ := @Db.Lawful.openTable_none db hdb MetaRec
  set f := (Book.new cfg).view
  have hl₀ : Seeding f l₀ (0 * f.grid.nLevels + 0 + 1) := by
    refine ⟨by omega, fun i => ?_⟩
    rw [hget₀]
    split
    · rename_i hi
      rw [Flat.levelRow, if_pos (.inl (by omega))]
    · rfl
  obtain ⟨l₁, e₁, hl₁⟩ := seedLane_run hdb hlvl 0 (by omega) (Nat.zero_add _) hl₀ (empty db cfg)
  obtain ⟨l₂, e₂, hl₂⟩ := seedLane_run hdb hlvl 1 (t := 0) (Nat.le_refl _) (Nat.zero_add _)
    (l := l₁) (by simpa using hl₁) (empty db cfg)
  obtain ⟨m₁, em₁, -, hgetm⟩ := hdb.insert_ok m₀
    ⟨cfg.priceMin, cfg.tick, cfg.levels, u32 cfg.cap, 0, -1, -1⟩
  have hrun : seed cfg (UltimaTables.empty db) (empty db cfg) =
      .ok ⟨some l₂, none, some m₁⟩ (empty db cfg) := by
    rw [show f.grid.nLevels = cfg.levels from rfl] at e₁ e₂
    simp only [seed, UltimaTables.empty, openTable, e₀, em₀, expect, pure_bind]
    rw [bind_ok e₁, bind_ok e₂, em₁]
    rfl
  obtain ⟨u, e, hu, hsame⟩ := transaction_back hdb hlatest hhead (seed_blind cfg _) hrun
  refine ⟨u, by rw [new, e], ?_, l₂, none, o, m₁, hu, eo, fun i => ?_, ⟨fun i => ?_, hnexto⟩, ?_⟩
  · exact hsame.knows ⟨rfl, rfl, rfl, fun _ => rfl⟩
  · rw [hl₂.2]
    split
    · rfl
    · have hn : (blankTape cfg).flat.grid.nLevels = f.grid.nLevels := rfl
      exact (if_pos (.inr (by omega))).symm
  · rw [hgeto]
    cases i with
    | zero => rfl
    | succ s => exact (if_pos (congrArg Order.orderId (hord s))).symm
  · rw [hgetm, if_pos hnextm.symm]
    rfl

/-- From a new book, a run of calls a store relies on, with at most as many
inserts as there are slot numbers. -/
theorem run_new (hdb : db.Lawful) {cfg : SmrConfig} (hg : cfg.grid.Ok) (h₀ : new db cfg = .ok u)
    {ops : List Op} (hadm : Admitted cfg.grid [] ops) (hins : inserts ops ≤ NIL) :
    ∃ u', run ops u = .ok () u' ∧
      (ops ≠ [] → u'.Shows (u32 cfg.cap) ((blankTape cfg).steps ops)) ∧
      ((blankTape cfg).steps ops).Holds (Ledger.after [] ops) ∧
      ((blankTape cfg).steps ops).flat.grid = cfg.grid := by
  obtain ⟨u₀, e₀, hopens⟩ := new_opens hdb cfg
  rw [h₀] at e₀
  cases e₀
  obtain ⟨u', e, -, hrest⟩ := @run_shows db [] (u32 cfg.cap) u hdb cfg.grid (blankTape cfg) ops rfl
    (blankTape_holds hg) hadm (by simpa [blankTape] using hins) hopens
  exact ⟨u', e, hrest⟩

end UltimaBook

end HiPerf
