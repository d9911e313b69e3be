import HiPerf.Book.Flat
import HiPerf.Lib.Fifo
import Mathlib.Data.List.Perm.Subperm

/-!
Each level's queue of slots against the ledger: the chain through the slots
shows the level's orders in time priority, with the level's count and quantity.
Placing an order, filling it and unlinking it keep this at every level.
-/

namespace HiPerf

open Machine Fifo

/-- The slots `l` are level `t` of lane `x`, in time priority. -/
structure LevelRep (f : Flat) (L : Ledger) (x : Lane) (t : Nat) (l : List Nat) : Prop where
  fifo : IsFifo NIL f.next f.prev (f.lvl x t).head (f.lvl x t).tail l
  recs : l.map (fun s => (f.ord s).resting) = L.atLevel f.grid x t
  count : (f.lvl x t).count = l.length
  qty : (f.lvl x t).qtyTotal = L.levelQty f.grid x t
  below : ∀ s ∈ l, s < f.hwm

/-- Every level shows its queue. -/
def Queues (f : Flat) (L : Ledger) (q : Lane → Nat → List Nat) : Prop :=
  ∀ x t, LevelRep f L x t (q x t)

/-- `q` with `s` added behind level `t` of lane `x`. -/
def pushQ (q : Lane → Nat → List Nat) (x : Lane) (t s : Nat) : Lane → Nat → List Nat :=
  fun y u => if y = x ∧ u = t then q y u ++ [s] else q y u

/-- `q` with `s` taken out. -/
def dropQ (q : Lane → Nat → List Nat) (s : Nat) : Lane → Nat → List Nat :=
  fun y u => (q y u).erase s

namespace LevelRep

variable {f f' : Flat} {L L' : Ledger} {x : Lane} {t : Nat} {l : List Nat}

theorem resting_mem (h : LevelRep f L x t l) {s : Nat} (hs : s ∈ l) :
    (f.ord s).resting ∈ L.atLevel f.grid x t := by
  rw [← h.recs]; exact List.mem_map_of_mem hs

theorem at_level (h : LevelRep f L x t l) {s : Nat} (hs : s ∈ l) :
    laneOf (f.ord s).side = x ∧ f.grid.tickOf (f.ord s).price = t :=
  of_decide_eq_true (List.mem_filter.mp (h.resting_mem hs)).2

theorem mem_ledger (h : LevelRep f L x t l) {s : Nat} (hs : s ∈ l) : (f.ord s).resting ∈ L :=
  List.mem_of_mem_filter (h.resting_mem hs)

theorem ids_nodup (h : LevelRep f L x t l) (hn : L.ids.Nodup) :
    (l.map fun s => (f.ord s).orderId).Nodup := by
  have e : (l.map fun s => (f.ord s).orderId) = (L.atLevel f.grid x t).map Resting.orderId := by
    rw [← h.recs, List.map_map]; rfl
  rw [e]
  exact hn.sublist (List.filter_sublist.map _)

theorem nodup (h : LevelRep f L x t l) (hn : L.ids.Nodup) : l.Nodup :=
  (h.ids_nodup hn).of_map

/-- A level does not notice what happens elsewhere. -/
theorem frame (h : LevelRep f L x t l) (hg : f'.grid = f.grid) (hlvl : f'.lvl x t = f.lvl x t)
    (hhwm : f.hwm ≤ f'.hwm) (hord : ∀ s ∈ l, f'.ord s = f.ord s)
    (hL : L'.atLevel f.grid x t = L.atLevel f.grid x t) : LevelRep f' L' x t l where
  fifo := by
    rw [hlvl]
    exact h.fifo.congr (fun s hs => by simp only [Flat.next, hord s hs])
      fun s hs => by simp only [Flat.prev, hord s hs]
  recs := by
    rw [hg, hL, ← h.recs]
    exact List.map_congr_left fun s hs => by simp only [hord s hs]
  count := hlvl ▸ h.count
  qty := by rw [hlvl, h.qty, hg]; simp only [Ledger.levelQty, hL]
  below s hs := Nat.lt_of_lt_of_le (h.below s hs) hhwm

end LevelRep

namespace Queues

variable {f f' : Flat} {L L' : Ledger} {q : Lane → Nat → List Nat}

theorem frame (h : Queues f L q) (hg : f'.grid = f.grid) (hlvl : f'.lvl = f.lvl)
    (hhwm : f.hwm ≤ f'.hwm) (hord : ∀ x t, ∀ s ∈ q x t, f'.ord s = f.ord s) : Queues f' L q :=
  fun x t => (h x t).frame hg (by rw [hlvl]) hhwm (hord x t) rfl

theorem unique (h : Queues f L q) {x y : Lane} {t u s : Nat} (hs : s ∈ q x t)
    (hs' : s ∈ q y u) : x = y ∧ t = u := by
  obtain ⟨rfl, rfl⟩ := (h x t).at_level hs
  exact (h y u).at_level hs'

/-- A queued slot is in the queue its own fields name. -/
theorem own (h : Queues f L q) {x : Lane} {t s : Nat} (hs : s ∈ q x t) :
    s ∈ q (laneOf (f.ord s).side) (f.grid.tickOf (f.ord s).price) := by
  obtain ⟨rfl, rfl⟩ := (h x t).at_level hs
  exact hs

/-- An id is queued in one slot. -/
theorem slot_unique (h : Queues f L q) (hn : L.ids.Nodup) {x y : Lane} {t u s s' : Nat}
    (hs : s ∈ q x t) (hs' : s' ∈ q y u) (e : (f.ord s).orderId = (f.ord s').orderId) :
    s = s' := by
  have er : (f.ord s).resting = (f.ord s').resting :=
    List.inj_on_of_nodup_map (f := Resting.orderId) hn ((h x t).mem_ledger hs)
      ((h y u).mem_ledger hs') e
  obtain ⟨hx, ht⟩ := (h x t).at_level hs
  obtain ⟨hy, hu⟩ := (h y u).at_level hs'
  have eside : (f.ord s).side = (f.ord s').side := congrArg Resting.side er
  have eprice : (f.ord s).price = (f.ord s').price := congrArg Resting.price er
  obtain rfl : x = y := by rw [← hx, ← hy, eside]
  obtain rfl : t = u := by rw [← ht, ← hu, eprice]
  exact List.inj_on_of_nodup_map (f := fun s => (f.ord s).orderId) ((h x t).ids_nodup hn)
    hs hs' e

/-- Every resting order is queued. -/
theorem exists_slot (h : Queues f L q) {r : Resting} (hr : r ∈ L) :
    ∃ s ∈ q (laneOf r.side) (f.grid.tickOf r.price), (f.ord s).resting = r := by
  have hmem : r ∈ L.atLevel f.grid (laneOf r.side) (f.grid.tickOf r.price) :=
    List.mem_filter.mpr ⟨hr, by simp [Resting.At]⟩
  rw [← (h _ _).recs] at hmem
  exact List.mem_map.mp hmem

theorem tail_mem (h : Queues f L q) {x : Lane} {t : Nat} (ht : (f.lvl x t).tail ≠ NIL) :
    (f.lvl x t).tail ∈ q x t := (h x t).fifo.tail_mem ht

/-- A level holds no more slots than have ever been used. -/
theorem length_le (h : Queues f L q) (hn : L.ids.Nodup) (x : Lane) (t : Nat) :
    (q x t).length ≤ f.hwm := by
  have hsub : q x t ⊆ List.range f.hwm := fun s hs => List.mem_range.mpr ((h x t).below s hs)
  simpa using (List.Nodup.subperm ((h x t).nodup hn) hsub).length_le

/-- A slot that is not queued leaves room in every queue. -/
theorem length_lt (h : Queues f L q) (hn : L.ids.Nodup) {x : Lane} {t slot : Nat}
    (hs : slot < f.hwm) (hfree : slot ∉ q x t) : (q x t).length < f.hwm := by
  have hsub : slot :: q x t ⊆ List.range f.hwm := by
    intro s hs'
    rcases List.mem_cons.mp hs' with rfl | hs'
    · exact List.mem_range.mpr hs
    · exact List.mem_range.mpr ((h x t).below s hs')
  have hnd : (slot :: q x t).Nodup := List.nodup_cons.mpr ⟨hfree, (h x t).nodup hn⟩
  have hlen := (List.Nodup.subperm hnd hsub).length_le
  rwa [List.length_cons, List.length_range] at hlen

theorem occupied_iff (h : Queues f L q) (x : Lane) (t : Nat) :
    (f.lvl x t).head ≠ NIL ↔ L.atLevel f.grid x t ≠ [] := by
  rw [ne_eq, (h x t).fifo.head_eq_nil_iff, ← (h x t).recs]
  simp

end Queues

theorem place_ord (f : Flat) (slot : Nat) (r : Resting) (y : Nat) :
    (f.place slot r).ord y =
      let tail := (f.lvl (laneOf r.side) (f.grid.tickOf r.price)).tail
      let o := if y = slot then ⟨r.orderId, r.price, r.qty, r.filled, NIL, tail, r.side⟩
        else f.ord y
      if y = tail ∧ tail ≠ NIL then { o with next := slot } else o := rfl

theorem place_lvl_self (f : Flat) (slot : Nat) (r : Resting) :
    (f.place slot r).lvl (laneOf r.side) (f.grid.tickOf r.price) =
      let l := f.lvl (laneOf r.side) (f.grid.tickOf r.price)
      { head := if l.tail = NIL then slot else l.head
        tail := slot
        qtyTotal := i64 (l.qtyTotal + r.qty)
        count := u32 (l.count + 1) } := by
  simp [Flat.place, Flat.linkNext, Flat.setLvl]

theorem place_lvl_ne (f : Flat) (slot : Nat) (r : Resting) {x : Lane} {t : Nat}
    (h : ¬ (x = laneOf r.side ∧ t = f.grid.tickOf r.price)) :
    (f.place slot r).lvl x t = f.lvl x t := by
  simp only [Flat.place, Flat.linkNext, Flat.setLvl, Flat.setOrd, h, if_false]

section place

variable {f : Flat} {L : Ledger} {q : Lane → Nat → List Nat} {slot : Nat} {r : Resting}

theorem atLevel_place (L : Ledger) (r : Resting) (g : Grid) (x : Lane) (t : Nat) :
    (L ++ [r] : Ledger).atLevel g x t = L.atLevel g x t ++ if r.At g x t then [r] else [] := by
  simp only [Ledger.atLevel, List.filter_append, List.filter_cons, List.filter_nil]

theorem Queues.place_new (h : Queues f L q) (hslot : slot ≠ NIL) (hfree : ∀ x t, slot ∉ q x t) :
    (f.place slot r).ord slot = ⟨r.orderId, r.price, r.qty, r.filled, NIL,
      (f.lvl (laneOf r.side) (f.grid.tickOf r.price)).tail, r.side⟩ := by
  have hst : slot ≠ (f.lvl (laneOf r.side) (f.grid.tickOf r.price)).tail := by
    intro e
    by_cases ht : (f.lvl (laneOf r.side) (f.grid.tickOf r.price)).tail = NIL
    · exact hslot (e.trans ht)
    · exact hfree _ _ (e ▸ h.tail_mem ht)
  rw [place_ord]
  simp [hst]

/-- Of its queue only the tail learns of the new order. -/
theorem Queues.place_old (h : Queues f L q) (hfree : ∀ x t, slot ∉ q x t) {s : Nat}
    (hs : s ∈ q (laneOf r.side) (f.grid.tickOf r.price)) :
    (f.place slot r).ord s =
      if s = (f.lvl (laneOf r.side) (f.grid.tickOf r.price)).tail then
        { f.ord s with next := slot } else f.ord s := by
  have hne : s ≠ slot := fun e => hfree _ _ (e ▸ hs)
  have hnil := (h _ _).fifo.ne_nil hs
  rw [place_ord]
  by_cases e : s = (f.lvl (laneOf r.side) (f.grid.tickOf r.price)).tail
  · have ht : s = (f.lvl (laneOf r.side) (f.grid.tickOf r.price)).tail ∧
      (f.lvl (laneOf r.side) (f.grid.tickOf r.price)).tail ≠ NIL := ⟨e, e ▸ hnil⟩
    simp only [hne, if_false, if_pos ht, if_pos e]
  · have ht : ¬ (s = (f.lvl (laneOf r.side) (f.grid.tickOf r.price)).tail ∧
      (f.lvl (laneOf r.side) (f.grid.tickOf r.price)).tail ≠ NIL) := fun h => e h.1
    simp only [hne, if_false, if_neg ht, if_neg e]

theorem Queues.place_self (h : Queues f L q) (hv : L.Valid f.grid) (hhwm : f.hwm ≤ NIL)
    (hs : slot < f.hwm) (hfree : ∀ x t, slot ∉ q x t) (hr0 : r.filled = 0) (hr1 : 1 ≤ r.qty)
    (hsum : L.levelQty f.grid (laneOf r.side) (f.grid.tickOf r.price) + r.qty ≤
      9223372036854775807) :
    LevelRep (f.place slot r) (L ++ [r]) (laneOf r.side) (f.grid.tickOf r.price)
      (q (laneOf r.side) (f.grid.tickOf r.price) ++ [slot]) := by
  have hslot : slot ≠ NIL := by omega
  have hx := h (laneOf r.side) (f.grid.tickOf r.price)
  have hat : r.At f.grid (laneOf r.side) (f.grid.tickOf r.price) = true := by
    simp [Resting.At]
  have hnew := h.place_new (r := r) hslot hfree
  have hold := fun s => h.place_old (r := r) hfree (s := s)
  have hg : (f.place slot r).grid = f.grid := rfl
  constructor
  case fifo =>
    rw [place_lvl_self]
    refine hx.fifo.push (hx.nodup hv.nodup) hslot (by simp [Flat.next, hnew])
      (by simp [Flat.prev, hnew]) (fun s hs => ?_) fun s hs => ?_
    · simp only [Flat.next, hold s hs]; split <;> rfl
    · simp only [Flat.prev, hold s hs]; split <;> rfl
  case recs =>
    rw [List.map_append, hg, atLevel_place, hat, if_pos rfl, ← hx.recs]
    congr 1
    · refine List.map_congr_left fun s hs => ?_
      rw [hold s hs]; split <;> rfl
    · simp [hnew, Order.resting]
  case count =>
    have hlen := h.length_lt hv.nodup hs (hfree (laneOf r.side) (f.grid.tickOf r.price))
    rw [place_lvl_self, List.length_append, List.length_singleton]
    simp only [hx.count]
    exact u32_eq_self (n := (q (laneOf r.side) (f.grid.tickOf r.price)).length + 1)
      (by simp only [NIL] at hhwm; omega)
  case qty =>
    have e := Ledger.levelQty_mid L [] r f.grid (laneOf r.side) (f.grid.tickOf r.price)
    rw [List.append_nil, hat, if_pos rfl] at e
    have hnn := Ledger.levelQty_nonneg hv (laneOf r.side) (f.grid.tickOf r.price)
    rw [place_lvl_self, hg, e]
    simp only [hx.qty, Resting.remaining, hr0, sub_zero]
    exact i64_eq_self ⟨by omega, by omega⟩
  case below =>
    intro s hs'
    rcases List.mem_append.mp hs' with hs' | hs'
    · exact hx.below s hs'
    · exact List.mem_singleton.mp hs' ▸ hs

theorem Queues.place_other (h : Queues f L q) (hfree : ∀ x t, slot ∉ q x t) {x : Lane} {t : Nat}
    (hxt : ¬ (x = laneOf r.side ∧ t = f.grid.tickOf r.price)) :
    LevelRep (f.place slot r) (L ++ [r]) x t (q x t) := by
  have hat : r.At f.grid x t = false := by
    simp only [Resting.At, decide_eq_false_iff_not]
    exact fun e => hxt ⟨e.1.symm, e.2.symm⟩
  refine (h x t).frame rfl (place_lvl_ne f slot r hxt) (Nat.le_refl _) (fun s hs => ?_) ?_
  · have hne : s ≠ slot := fun e => hfree x t (e ▸ hs)
    rw [place_ord]
    have hnt : ¬ (s = (f.lvl (laneOf r.side) (f.grid.tickOf r.price)).tail ∧
        (f.lvl (laneOf r.side) (f.grid.tickOf r.price)).tail ≠ NIL) := by
      rintro ⟨rfl, ht⟩
      exact hxt (h.unique hs (h.tail_mem ht))
    simp only [hne, if_false, hnt]
  · rw [atLevel_place, hat]
    simp

/-- Placing a new order appends it to its own queue and no other. -/
theorem Queues.place (h : Queues f L q) (hv : L.Valid f.grid) (hhwm : f.hwm ≤ NIL)
    (hs : slot < f.hwm) (hfree : ∀ x t, slot ∉ q x t) (hr0 : r.filled = 0) (hr1 : 1 ≤ r.qty)
    (hsum : L.levelQty f.grid (laneOf r.side) (f.grid.tickOf r.price) + r.qty ≤
      9223372036854775807) :
    Queues (f.place slot r) (L ++ [r])
      (pushQ q (laneOf r.side) (f.grid.tickOf r.price) slot) := by
  intro x t
  by_cases hxt : x = laneOf r.side ∧ t = f.grid.tickOf r.price
  · rw [pushQ, if_pos hxt]
    obtain ⟨rfl, rfl⟩ := hxt
    exact h.place_self hv hhwm hs hfree hr0 hr1 hsum
  · rw [pushQ, if_neg hxt]
    exact h.place_other hfree hxt

end place

/-- A partial fill changes its own order's record and its level's quantity. -/
theorem Queues.fillSlot {f : Flat} {L : Ledger} {q : Lane → Nat → List Nat} (h : Queues f L q)
    (hv : L.Valid f.grid) {x : Lane} {t slot : Nat} (hs : slot ∈ q x t) {n : Int} (hn : 0 ≤ n) :
    Queues (f.fillSlot slot n) (L.apply (.update (f.ord slot).orderId n)) q := by
  obtain ⟨rfl, rfl⟩ := (h x t).at_level hs
  set x := laneOf (f.ord slot).side
  set t := f.grid.tickOf (f.ord slot).price
  have hr := (h x t).mem_ledger hs
  have hle := hv.filled_le _ hr
  have hlo := hv.filled_nonneg _ hr
  have hq64 := (hv.i64 _ hr).2.2
  simp only [Order.resting] at hle hlo hq64
  have hadd : i64 ((f.ord slot).qty - (f.ord slot).filled) =
      (f.ord slot).qty - (f.ord slot).filled :=
    i64_eq_self (by unfold InI64 at hq64 ⊢; omega)
  set add := min n ((f.ord slot).qty - (f.ord slot).filled) with hadd'
  have hfilled : i64 ((f.ord slot).filled + add) = (f.ord slot).filled + add :=
    i64_eq_self (by unfold InI64 at hq64 ⊢; omega)
  have hord : ∀ s, (f.fillSlot slot n).ord s =
      if s = slot then { f.ord slot with filled := (f.ord slot).filled + add } else f.ord s := by
    intro s
    simp only [Flat.fillSlot, Flat.setOrd, Flat.setLvl, hadd, ← hadd', hfilled]
  have hlvl : ∀ y u, (f.fillSlot slot n).lvl y u = if y = x ∧ u = t then
      { f.lvl x t with qtyTotal := i64 ((f.lvl x t).qtyTotal - add) } else f.lvl y u := by
    intro y u
    simp only [Flat.fillSlot, Flat.setOrd, Flat.setLvl, hadd, ← hadd', x, t]
  intro y u
  have hyu := h y u
  refine ⟨?_, ?_, ?_, ?_, hyu.below⟩
  · have hends : ((f.fillSlot slot n).lvl y u).head = (f.lvl y u).head ∧
        ((f.fillSlot slot n).lvl y u).tail = (f.lvl y u).tail := by
      rw [hlvl]; split
      · rename_i e; rw [e.1, e.2]; exact ⟨rfl, rfl⟩
      · exact ⟨rfl, rfl⟩
    rw [hends.1, hends.2]
    refine hyu.fifo.congr (fun s _ => ?_) fun s _ => ?_
    · simp only [Flat.next, hord]; split
      · rename_i e; rw [e]
      · rfl
    · simp only [Flat.prev, hord]; split
      · rename_i e; rw [e]
      · rfl
  · rw [show (f.fillSlot slot n).grid = f.grid from rfl, Ledger.atLevel_update, ← hyu.recs,
      List.map_map]
    refine List.map_congr_left fun s hsq => ?_
    simp only [Function.comp_apply, hord]
    by_cases es : s = slot
    · subst es; simp [Order.resting, Resting.fillBy, hadd']
    · have : (f.ord s).orderId ≠ (f.ord slot).orderId :=
        fun e => es (h.slot_unique hv.nodup hsq hs e)
      simp [es, Order.resting, this]
  · rw [hlvl]; split
    · rename_i e; rw [e.1, e.2]; exact (h x t).count
    · exact hyu.count
  · have e := Ledger.levelQty_update hv.nodup hr n f.grid y u
    simp only [Order.resting] at e
    rw [hlvl, show (f.fillSlot slot n).grid = f.grid from rfl, e]
    by_cases eyu : y = x ∧ u = t
    · obtain ⟨rfl, rfl⟩ := eyu
      have hat : (f.ord slot).resting.At f.grid x t = true := by
        simp [Resting.At, Order.resting, x, t]
      have hrem := hv.remaining_le hr hat
      have hmax := hv.qty_fits x t
      simp only [Resting.remaining, Order.resting] at hrem hat
      simp only [and_self, if_true, hat, (h x t).qty]
      exact i64_eq_self (by unfold InI64; omega)
    · have hat : (f.ord slot).resting.At f.grid y u = false := by
        simp only [Resting.At, decide_eq_false_iff_not]
        exact fun e => eyu ⟨e.1.symm, e.2.symm⟩
      simp only [Order.resting] at hat
      simp only [eyu, if_false, hat, Bool.false_eq_true, hyu.qty, sub_zero]

section unlink

variable (f : Flat) (slot : Nat) (x : Lane) (t : Nat) (rem : Int)

theorem unlink_ord (y : Nat) :
    (f.unlink slot x t rem).ord y =
      let o := f.ord slot
      let p := if y = o.prev ∧ o.prev ≠ NIL then { f.ord y with next := o.next } else f.ord y
      if y = o.next ∧ o.next ≠ NIL then { p with prev := o.prev } else p := rfl

theorem unlink_resting (y : Nat) :
    ((f.unlink slot x t rem).ord y).resting = (f.ord y).resting := by
  rw [unlink_ord]
  dsimp only
  split_ifs <;> rfl

theorem unlink_next {y : Nat} (hy : y ≠ NIL) :
    (f.unlink slot x t rem).next y = if y = f.prev slot then f.next slot else f.next y := by
  rw [Flat.next, unlink_ord]
  by_cases e : y = (f.ord slot).prev
  · have e' : y = (f.ord slot).prev ∧ (f.ord slot).prev ≠ NIL := ⟨e, e ▸ hy⟩
    dsimp only
    rw [if_pos e', if_pos (show y = f.prev slot from e)]
    split_ifs <;> rfl
  · have e' : ¬ (y = (f.ord slot).prev ∧ (f.ord slot).prev ≠ NIL) := fun h => e h.1
    dsimp only
    rw [if_neg e', if_neg (show ¬ y = f.prev slot from e)]
    split_ifs <;> rfl

theorem unlink_prev {y : Nat} (hy : y ≠ NIL) :
    (f.unlink slot x t rem).prev y = if y = f.next slot then f.prev slot else f.prev y := by
  rw [Flat.prev, unlink_ord]
  by_cases e : y = (f.ord slot).next
  · have e' : y = (f.ord slot).next ∧ (f.ord slot).next ≠ NIL := ⟨e, e ▸ hy⟩
    dsimp only
    rw [if_pos e', if_pos (show y = f.next slot from e)]
    rfl
  · have e' : ¬ (y = (f.ord slot).next ∧ (f.ord slot).next ≠ NIL) := fun h => e h.1
    dsimp only
    rw [if_neg e', if_neg (show ¬ y = f.next slot from e)]
    split_ifs <;> rfl

theorem unlink_lvl (y : Lane) (u : Nat) :
    (f.unlink slot x t rem).lvl y u = if y = x ∧ u = t then
      { head := if (f.lvl x t).head = slot then f.next slot else (f.lvl x t).head
        tail := if (f.lvl x t).tail = slot then f.prev slot else (f.lvl x t).tail
        qtyTotal := i64 ((f.lvl x t).qtyTotal - rem)
        count := u32 ((f.lvl x t).count - 1) } else f.lvl y u := rfl

end unlink

/-- `f` is `f₀`, but for what the record of `slot` holds besides its links. -/
structure SameBut (f₀ f : Flat) (slot : Nat) : Prop where
  grid : f.grid = f₀.grid
  lvl : f.lvl = f₀.lvl
  hwm : f.hwm = f₀.hwm
  ord : ∀ s, s ≠ slot → f.ord s = f₀.ord s
  next : f.next slot = f₀.next slot
  prev : f.prev slot = f₀.prev slot

section unlink

variable {f₀ f : Flat} {L : Ledger} {q : Lane → Nat → List Nat} {x : Lane} {t slot : Nat}
  {rem : Int}

theorem SameBut.unlink_next (hf : SameBut f₀ f slot) {s : Nat} (hne : s ≠ slot) (hnil : s ≠ NIL) :
    (f.unlink slot x t rem).next s =
      if s = f₀.prev slot then f₀.next slot else f₀.next s := by
  rw [HiPerf.unlink_next _ _ _ _ _ hnil, hf.prev, hf.next,
    show f.next s = f₀.next s by simp [Flat.next, hf.ord s hne]]

theorem SameBut.unlink_prev (hf : SameBut f₀ f slot) {s : Nat} (hne : s ≠ slot) (hnil : s ≠ NIL) :
    (f.unlink slot x t rem).prev s =
      if s = f₀.next slot then f₀.prev slot else f₀.prev s := by
  rw [HiPerf.unlink_prev _ _ _ _ _ hnil, hf.prev, hf.next,
    show f.prev s = f₀.prev s by simp [Flat.prev, hf.ord s hne]]

/-- Without the slot every queue shows its level of the ledger without the order. -/
theorem Queues.unlink_recs (h : Queues f₀ L q) (hv : L.Valid f₀.grid) (hs : slot ∈ q x t)
    (hf : SameBut f₀ f slot) (y : Lane) (u : Nat) :
    ((q y u).erase slot).map (fun s => ((f.unlink slot x t rem).ord s).resting) =
      (L.apply (.cancel (f₀.ord slot).orderId)).atLevel f₀.grid y u := by
  have hnd := (h y u).nodup hv.nodup
  have hrest : ∀ s, s ≠ slot →
      ((f.unlink slot x t rem).ord s).resting = (f₀.ord s).resting := by
    intro s hne
    rw [unlink_resting, hf.ord s hne]
  rw [Ledger.atLevel_cancel, ← (h y u).recs, List.filter_map, hnd.erase_eq_filter]
  rw [List.map_congr_left (g := fun s => (f₀.ord s).resting)
    fun s hs => hrest s (by simpa using (List.mem_filter.mp hs).2)]
  congr 1
  refine List.filter_congr fun s hsq => ?_
  have hid : s = slot ↔ (f₀.ord s).orderId = (f₀.ord slot).orderId :=
    ⟨fun e => e ▸ rfl, fun e => h.slot_unique hv.nodup hsq hs e⟩
  simp only [Function.comp_apply, Order.resting, ne_eq, ← hid, bne, beq_eq_decide, decide_not]

theorem Queues.unlink_self (h : Queues f₀ L q) (hv : L.Valid f₀.grid) (hhwm : f₀.hwm ≤ NIL)
    (hs : slot ∈ q x t) (hf : SameBut f₀ f slot) :
    LevelRep (f.unlink slot x t (f₀.ord slot).resting.remaining)
      (L.apply (.cancel (f₀.ord slot).orderId)) x t ((q x t).erase slot) := by
  have hr := (h x t).mem_ledger hs
  have hxt := h x t
  have hnd := hxt.nodup hv.nodup
  have hne : ∀ s ∈ (q x t).erase slot, s ≠ slot := fun s hs => ((hnd.mem_erase_iff).mp hs).1
  have hold : ∀ s ∈ (q x t).erase slot, s ∈ q x t := fun s hs => List.mem_of_mem_erase hs
  have hlvl : (f.unlink slot x t (f₀.ord slot).resting.remaining).lvl x t =
      { head := if (f₀.lvl x t).head = slot then f₀.next slot else (f₀.lvl x t).head
        tail := if (f₀.lvl x t).tail = slot then f₀.prev slot else (f₀.lvl x t).tail
        qtyTotal := i64 ((f₀.lvl x t).qtyTotal - (f₀.ord slot).resting.remaining)
        count := u32 ((f₀.lvl x t).count - 1) } := by
    rw [unlink_lvl, if_pos ⟨rfl, rfl⟩, hf.lvl, hf.next, hf.prev]
  have hg : (f.unlink slot x t (f₀.ord slot).resting.remaining).grid = f₀.grid := hf.grid
  constructor
  case fifo =>
    obtain ⟨a, c, eq⟩ := List.append_of_mem hs
    have hslot : slot ∉ a := by
      rw [eq] at hnd
      exact fun hm => (List.nodup_append.mp hnd).2.2 slot hm slot (by simp) rfl
    have herase : (q x t).erase slot = a ++ c := by
      rw [eq, List.erase_append_right _ hslot, List.erase_cons_head]
    have hfifo := hxt.fifo
    rw [eq] at hfifo
    rw [hlvl, herase]
    refine hfifo.remove (eq ▸ hnd) (fun s hs => ?_) fun s hs => ?_
    · exact hf.unlink_next (hne s (herase ▸ hs)) (hxt.fifo.ne_nil (hold s (herase ▸ hs)))
    · exact hf.unlink_prev (hne s (herase ▸ hs)) (hxt.fifo.ne_nil (hold s (herase ▸ hs)))
  case recs =>
    rw [hg]
    exact h.unlink_recs hv hs hf x t
  case count =>
    have hlen := h.length_le hv.nodup x t
    have hpos : 0 < (q x t).length := List.length_pos_of_mem hs
    rw [hlvl]
    simp only [List.length_erase_of_mem hs, hxt.count]
    have e : (((q x t).length : Int) - 1) = ((q x t).length - 1 : Nat) := by omega
    rw [e]
    exact u32_eq_self (by simp only [NIL] at hhwm; omega)
  case qty =>
    have hat : (f₀.ord slot).resting.At f₀.grid x t = true := decide_eq_true (hxt.at_level hs)
    have hrem := hv.remaining_le hr hat
    have hmax := hv.qty_fits x t
    have hle := hv.filled_le _ hr
    have hqty := Ledger.levelQty_cancel hv.nodup hr f₀.grid x t
    rw [if_pos hat] at hqty
    rw [hg]
    refine Eq.trans ?_ hqty.symm
    rw [hlvl, hxt.qty]
    simp only [Resting.remaining] at hrem ⊢
    exact i64_eq_self (by unfold InI64; omega)
  case below => exact fun s hs => hf.hwm ▸ hxt.below s (hold s hs)

theorem Queues.unlink_other (h : Queues f₀ L q) (hv : L.Valid f₀.grid) (hs : slot ∈ q x t)
    (hf : SameBut f₀ f slot) {y : Lane} {u : Nat} (hyx : ¬ (y = x ∧ u = t)) :
    LevelRep (f.unlink slot x t (f₀.ord slot).resting.remaining)
      (L.apply (.cancel (f₀.ord slot).orderId)) y u ((q y u).erase slot) := by
  have hyu := h y u
  have hns : slot ∉ q y u := fun hm => hyx (h.unique hm hs)
  have herase : (q y u).erase slot = q y u := List.erase_of_not_mem hns
  have hlvl : (f.unlink slot x t (f₀.ord slot).resting.remaining).lvl y u = f₀.lvl y u := by
    rw [unlink_lvl, if_neg hyx, hf.lvl]
  have hg : (f.unlink slot x t (f₀.ord slot).resting.remaining).grid = f₀.grid := hf.grid
  constructor
  case fifo =>
    rw [herase, hlvl]
    refine hyu.fifo.congr (fun s hsq => ?_) fun s hsq => ?_
    · have hnil := hyu.fifo.ne_nil hsq
      rw [hf.unlink_next (fun e => hns (e ▸ hsq)) hnil, if_neg]
      rintro rfl
      exact hyx (h.unique hsq ((h x t).fifo.prev_mem hs hnil))
    · have hnil := hyu.fifo.ne_nil hsq
      rw [hf.unlink_prev (fun e => hns (e ▸ hsq)) hnil, if_neg]
      rintro rfl
      exact hyx (h.unique hsq ((h x t).fifo.next_mem hs hnil))
  case recs =>
    rw [hg]
    exact h.unlink_recs hv hs hf y u
  case count => rw [hlvl, herase, hyu.count]
  case qty =>
    have hat : (f₀.ord slot).resting.At f₀.grid y u = false := by
      by_contra e
      simp only [Resting.At, decide_eq_false_iff_not, not_not] at e
      have hown := (h x t).at_level hs
      exact hyx ⟨e.1.symm.trans hown.1, e.2.symm.trans hown.2⟩
    have hqty := Ledger.levelQty_cancel hv.nodup ((h x t).mem_ledger hs) f₀.grid y u
    rw [hat, if_neg Bool.false_ne_true, sub_zero] at hqty
    rw [hg, hlvl, hyu.qty]
    exact hqty.symm
  case below => exact fun s hs => hf.hwm ▸ hyu.below s (List.mem_of_mem_erase hs)

/-- Unlinking a slot takes it out of its own queue and changes no other. What
else its record holds does not matter. -/
theorem Queues.unlink (h : Queues f₀ L q) (hv : L.Valid f₀.grid) (hhwm : f₀.hwm ≤ NIL)
    (hs : slot ∈ q x t) (hf : SameBut f₀ f slot) :
    Queues (f.unlink slot x t (f₀.ord slot).resting.remaining)
      (L.apply (.cancel (f₀.ord slot).orderId)) (dropQ q slot) := by
  intro y u
  by_cases hyx : y = x ∧ u = t
  · obtain ⟨rfl, rfl⟩ := hyx
    exact h.unlink_self hv hhwm hs hf
  · exact h.unlink_other hv hs hf hyx

end unlink

end HiPerf
