import HiPerf.Book.Model
import Mathlib.Algebra.Order.BigOperators.Group.List
import Mathlib.Data.List.Nodup

/-!
What a store is for, with no slots in it: the ledger of resting orders in order
of arrival. Time priority at a level is arrival order in the ledger. Which calls
are well-formed is a question about the ledger alone.
-/

namespace HiPerf

open Machine

/-- The two sides of the ladder. Every side other than 0 is kept with the asks. -/
inductive Lane where
  | bid
  | ask
  deriving DecidableEq, Repr

def laneOf (side : Nat) : Lane := if side = 0 then .bid else .ask

/-- Where prices sit on the ladder. -/
structure Grid where
  priceMin : Int
  tick : Int
  nLevels : Nat
  deriving DecidableEq, Repr

namespace Grid

/-- The level the code computes for a price. -/
def tickOf (g : Grid) (price : Int) : Nat := u32 ((i64 (price - g.priceMin)).tdiv g.tick)

/-- A ladder of 64-bit prices whose levels have signed 32-bit numbers. The
environment loaders let through fewer levels than that. -/
structure Ok (g : Grid) : Prop where
  tick_pos : 0 < g.tick
  tick_i64 : InI64 g.tick
  priceMin_i64 : InI64 g.priceMin
  levels_pos : 1 ≤ g.nLevels
  levels_le : g.nLevels ≤ 2147483647

/-- A price on the grid is filed at its own level when its offset fits. -/
theorem tickOf_onGrid {g : Grid} (hg : g.Ok) {price : Int} {t : Nat} (ht : t < g.nLevels)
    (hp : price = g.priceMin + t * g.tick) (hfit : InI64 (price - g.priceMin)) :
    g.tickOf price = t := by
  have hl := hg.levels_le
  have e : price - g.priceMin = t * g.tick := by omega
  rw [tickOf, i64_eq_self hfit, e, Int.mul_tdiv_cancel _ (by have := hg.tick_pos; omega)]
  exact u32_eq_self (by omega)

end Grid

def SmrConfig.grid (cfg : SmrConfig) : Grid := ⟨cfg.priceMin, cfg.tick, cfg.levels⟩

/-- A resting order, as a caller knows it. -/
structure Resting where
  orderId : Int
  price : Int
  qty : Int
  filled : Int
  side : Nat
  deriving DecidableEq, Repr

namespace Resting

def remaining (r : Resting) : Int := r.qty - r.filled

/-- `r` rests at level `t` of lane `x`. -/
def At (g : Grid) (x : Lane) (t : Nat) (r : Resting) : Bool :=
  decide (laneOf r.side = x ∧ g.tickOf r.price = t)

/-- A partial fill, capped at what remains. -/
def fillBy (fillQty : Int) (r : Resting) : Resting :=
  { r with filled := r.filled + min fillQty (r.qty - r.filled) }

@[simp] theorem fillBy_orderId (n : Int) (r : Resting) : (r.fillBy n).orderId = r.orderId := rfl

@[simp] theorem fillBy_at (n : Int) (r : Resting) (g : Grid) (x : Lane) (t : Nat) :
    (r.fillBy n).At g x t = r.At g x t := rfl

end Resting

/-- The resting orders, in order of arrival. -/
abbrev Ledger := List Resting

namespace Ledger

def ids (L : Ledger) : List Int := L.map Resting.orderId

/-- The orders at one level, in time priority. -/
def atLevel (L : Ledger) (g : Grid) (x : Lane) (t : Nat) : Ledger := L.filter (Resting.At g x t)

def levelQty (L : Ledger) (g : Grid) (x : Lane) (t : Nat) : Int :=
  ((L.atLevel g x t).map Resting.remaining).sum

/-- What a call does to the resting orders. -/
def apply (L : Ledger) : Op → Ledger
  | .insert orderId price qty side => L ++ [⟨orderId, price, qty, 0, side⟩]
  | .update orderId fillQty => L.map fun r => if r.orderId = orderId then r.fillBy fillQty else r
  | .cancel orderId => L.filter fun r => r.orderId ≠ orderId
  | .fill orderId => L.filter fun r => r.orderId ≠ orderId

/-- The resting orders after a sequence of calls. -/
def after (L : Ledger) (ops : List Op) : Ledger := ops.foldl apply L

@[simp] theorem after_nil (L : Ledger) : L.after [] = L := rfl

@[simp] theorem after_cons (L : Ledger) (op : Op) (ops : List Op) :
    L.after (op :: ops) = (L.apply op).after ops := rfl

theorem after_append (L : Ledger) (ops ops' : List Op) :
    L.after (ops ++ ops') = (L.after ops).after ops' := List.foldl_append

/-- What every resting order satisfies. -/
structure Valid (g : Grid) (L : Ledger) : Prop where
  nodup : L.ids.Nodup
  id_ne : ∀ r ∈ L, r.orderId ≠ 0
  side_le : ∀ r ∈ L, r.side ≤ 1
  tick_lt : ∀ r ∈ L, g.tickOf r.price < g.nLevels
  filled_nonneg : ∀ r ∈ L, 0 ≤ r.filled
  filled_le : ∀ r ∈ L, r.filled ≤ r.qty
  qty_pos : ∀ r ∈ L, 1 ≤ r.qty
  i64 : ∀ r ∈ L, InI64 r.orderId ∧ InI64 r.price ∧ InI64 r.qty
  qty_fits : ∀ x t, L.levelQty g x t ≤ 9223372036854775807

end Ledger

/-- The condition the claims put on a call, given the resting orders. Quantities,
prices and ids are the 64-bit values the calls take. -/
def Op.WellFormed (cfg : SmrConfig) (L : Ledger) : Op → Prop
  | .insert orderId price qty side =>
    (InI64 orderId ∧ InI64 price ∧ InI64 qty) ∧ orderId ≠ 0 ∧ orderId ∉ L.ids ∧
    (∃ t < cfg.levels, price = cfg.priceMin + t * cfg.tick) ∧ side ≤ 1 ∧ 1 ≤ qty ∧
    L.length < cfg.cap ∧
    L.levelQty cfg.grid (laneOf side) (cfg.grid.tickOf price) + qty ≤ 9223372036854775807
  | .update orderId fillQty => orderId ∈ L.ids ∧ 0 ≤ fillQty ∧ InI64 fillQty
  | .cancel orderId => orderId ∈ L.ids
  | .fill orderId => orderId ∈ L.ids

/-- A well-formed sequence of calls, from the given resting orders. -/
def WellFormed (cfg : SmrConfig) : Ledger → List Op → Prop
  | _, [] => True
  | L, op :: ops => op.WellFormed cfg L ∧ WellFormed cfg (L.apply op) ops

instance Op.decidableWellFormed (cfg : SmrConfig) (L : Ledger) :
    ∀ op : Op, Decidable (op.WellFormed cfg L)
  | .insert .. => by unfold Op.WellFormed; infer_instance
  | .update .. => inferInstanceAs (Decidable (_ ∧ _))
  | .cancel _ => inferInstanceAs (Decidable (_ ∈ _))
  | .fill _ => inferInstanceAs (Decidable (_ ∈ _))

instance decidableWellFormed (cfg : SmrConfig) :
    ∀ (L : Ledger) (ops : List Op), Decidable (WellFormed cfg L ops)
  | _, [] => isTrue trivial
  | L, op :: ops =>
    have := decidableWellFormed cfg (L.apply op) ops
    inferInstanceAs (Decidable (_ ∧ _))

/-- What the machine types add: the offset of a price from the bottom of the
ladder is a 64-bit value, and the slot numbers below the sentinel suffice. -/
def Op.Fits (cfg : SmrConfig) (L : Ledger) : Op → Prop
  | .insert _ price _ _ => InI64 (price - cfg.priceMin) ∧ L.length < NIL
  | _ => True

def Fits (cfg : SmrConfig) : Ledger → List Op → Prop
  | _, [] => True
  | L, op :: ops => op.Fits cfg L ∧ Fits cfg (L.apply op) ops

instance Op.decidableFits (cfg : SmrConfig) (L : Ledger) : ∀ op : Op, Decidable (op.Fits cfg L)
  | .insert .. => inferInstanceAs (Decidable (_ ∧ _))
  | .update .. => isTrue trivial
  | .cancel _ => isTrue trivial
  | .fill _ => isTrue trivial

instance decidableFits (cfg : SmrConfig) :
    ∀ (L : Ledger) (ops : List Op), Decidable (Fits cfg L ops)
  | _, [] => isTrue trivial
  | L, op :: ops =>
    have := decidableFits cfg (L.apply op) ops
    inferInstanceAs (Decidable (_ ∧ _))

/-- Every resting order sits on a level of the ladder. -/
def Ledger.OnGrid (cfg : SmrConfig) (L : Ledger) : Prop :=
  ∀ r ∈ L, (∃ t < cfg.levels, r.price = cfg.priceMin + t * cfg.tick) ∧
    InI64 (r.price - cfg.priceMin)

/-- What a store relies on in a call, apart from room for a new order. -/
def Op.Admitted (g : Grid) (L : Ledger) : Op → Prop
  | .insert orderId price qty side =>
    (InI64 orderId ∧ InI64 price ∧ InI64 qty) ∧ orderId ≠ 0 ∧ orderId ∉ L.ids ∧
    g.tickOf price < g.nLevels ∧ side ≤ 1 ∧ 1 ≤ qty ∧
    L.levelQty g (laneOf side) (g.tickOf price) + qty ≤ 9223372036854775807
  | .update orderId fillQty => orderId ∈ L.ids ∧ 0 ≤ fillQty
  | .cancel orderId => orderId ∈ L.ids
  | .fill orderId => orderId ∈ L.ids

namespace Ledger

/-- A resting id names one order. -/
theorem split {L : Ledger} (hn : L.ids.Nodup) {orderId : Int} (h : orderId ∈ L.ids) :
    ∃ A r B, L = A ++ r :: B ∧ r.orderId = orderId ∧
      (∀ x ∈ A, x.orderId ≠ orderId) ∧ ∀ x ∈ B, x.orderId ≠ orderId := by
  obtain ⟨r, hr, rfl⟩ := List.mem_map.mp h
  obtain ⟨A, B, rfl⟩ := List.append_of_mem hr
  simp only [ids, List.map_append, List.map_cons] at hn
  have hA := (List.nodup_append.mp hn).2.2
  have hB := (List.nodup_cons.mp (List.nodup_append.mp hn).2.1).1
  refine ⟨A, r, B, rfl, rfl, fun x hx => ?_, fun x hx e => ?_⟩
  · exact hA _ (List.mem_map_of_mem hx) _ List.mem_cons_self
  · exact hB (e ▸ List.mem_map_of_mem hx)

theorem apply_update_split {A B : Ledger} {r : Resting} (hA : ∀ x ∈ A, x.orderId ≠ r.orderId)
    (hB : ∀ x ∈ B, x.orderId ≠ r.orderId) (n : Int) :
    Ledger.apply (A ++ r :: B) (.update r.orderId n) = A ++ r.fillBy n :: B := by
  have keep : ∀ C : Ledger, (∀ x ∈ C, x.orderId ≠ r.orderId) →
      C.map (fun x => if x.orderId = r.orderId then x.fillBy n else x) = C := by
    intro C hC
    conv_rhs => rw [← List.map_id C]
    exact List.map_congr_left fun x hx => by simp [hC x hx]
  simp only [apply, List.map_append, List.map_cons, keep A hA, keep B hB, ↓reduceIte]

theorem filter_ids_ne {C : Ledger} {orderId : Int} (hC : ∀ x ∈ C, x.orderId ≠ orderId) :
    C.filter (fun x => x.orderId ≠ orderId) = C :=
  List.filter_eq_self.mpr fun x hx => by simpa using hC x hx

theorem apply_cancel_split {A B : Ledger} {r : Resting} (hA : ∀ x ∈ A, x.orderId ≠ r.orderId)
    (hB : ∀ x ∈ B, x.orderId ≠ r.orderId) :
    Ledger.apply (A ++ r :: B) (.cancel r.orderId) = A ++ B := by
  rw [apply, List.filter_append, List.filter_cons, filter_ids_ne hA, filter_ids_ne hB]
  simp

theorem apply_fill (L : Ledger) (orderId : Int) :
    L.apply (.fill orderId) = L.apply (.cancel orderId) := rfl

theorem levelQty_mid (A B : Ledger) (r : Resting) (g : Grid) (x : Lane) (t : Nat) :
    levelQty (A ++ r :: B) g x t =
      levelQty (A ++ B) g x t + if r.At g x t then r.remaining else 0 := by
  simp only [levelQty, atLevel, List.filter_append, List.filter_cons, List.map_append,
    List.sum_append]
  split
  · simp only [List.map_cons, List.sum_cons]; omega
  · omega

theorem levelQty_nonneg {g : Grid} {L : Ledger} (hv : L.Valid g) (x : Lane) (t : Nat) :
    0 ≤ L.levelQty g x t := by
  refine List.sum_nonneg ?_
  simp only [List.mem_map]
  rintro _ ⟨r, hr, rfl⟩
  have := hv.filled_le r (List.mem_of_mem_filter hr)
  simp only [Resting.remaining]
  omega

/-- The order with a resting id, between those that arrived before and after. -/
theorem split_mem {L : Ledger} (hn : L.ids.Nodup) {r : Resting} (hr : r ∈ L) :
    ∃ A B, L = A ++ r :: B ∧ (∀ x ∈ A, x.orderId ≠ r.orderId) ∧
      ∀ x ∈ B, x.orderId ≠ r.orderId := by
  obtain ⟨A, r', B, rfl, e, hA, hB⟩ := split hn (List.mem_map_of_mem hr)
  obtain rfl : r' = r := List.inj_on_of_nodup_map (f := Resting.orderId) hn (by simp) hr e
  exact ⟨A, B, rfl, hA, hB⟩

theorem levelQty_update {L : Ledger} (hn : L.ids.Nodup) {r : Resting} (hr : r ∈ L) (n : Int)
    (g : Grid) (x : Lane) (t : Nat) :
    (L.apply (.update r.orderId n)).levelQty g x t =
      L.levelQty g x t - if r.At g x t then min n (r.qty - r.filled) else 0 := by
  obtain ⟨A, B, rfl, hA, hB⟩ := split_mem hn hr
  rw [apply_update_split hA hB, levelQty_mid, levelQty_mid A B r, Resting.fillBy_at]
  simp only [Resting.remaining, Resting.fillBy]
  split <;> omega

theorem levelQty_cancel {L : Ledger} (hn : L.ids.Nodup) {r : Resting} (hr : r ∈ L)
    (g : Grid) (x : Lane) (t : Nat) :
    (L.apply (.cancel r.orderId)).levelQty g x t =
      L.levelQty g x t - if r.At g x t then r.remaining else 0 := by
  obtain ⟨A, B, rfl, hA, hB⟩ := split_mem hn hr
  rw [apply_cancel_split hA hB, levelQty_mid A B r]
  split <;> omega

theorem length_cancel {L : Ledger} (hn : L.ids.Nodup) {r : Resting} (hr : r ∈ L) :
    (L.apply (.cancel r.orderId)).length + 1 = L.length := by
  obtain ⟨A, B, rfl, hA, hB⟩ := split_mem hn hr
  rw [apply_cancel_split hA hB]
  simp only [List.length_append, List.length_cons]
  omega

theorem atLevel_update (L : Ledger) (orderId n : Int) (g : Grid) (x : Lane) (t : Nat) :
    (L.apply (.update orderId n)).atLevel g x t =
      (L.atLevel g x t).map fun r => if r.orderId = orderId then r.fillBy n else r := by
  simp only [apply, atLevel, List.filter_map]
  congr 1
  refine List.filter_congr fun r _ => ?_
  simp only [Function.comp_apply]
  split <;> simp

theorem atLevel_cancel (L : Ledger) (orderId : Int) (g : Grid) (x : Lane) (t : Nat) :
    (L.apply (.cancel orderId)).atLevel g x t =
      (L.atLevel g x t).filter fun r => r.orderId ≠ orderId := by
  simp only [apply, atLevel, List.filter_filter, Bool.and_comm]

theorem levelQty_le {L : Ledger} {m : Int} (hm : 0 ≤ m) (h : ∀ r ∈ L, r.remaining ≤ m) (g : Grid)
    (x : Lane) (t : Nat) : L.levelQty g x t ≤ L.length * m := by
  induction L with
  | nil => simp [levelQty, atLevel]
  | cons r L ih =>
    have e := levelQty_mid [] L r g x t
    simp only [List.nil_append] at e
    have hL := ih fun r hr => h r (List.mem_cons_of_mem _ hr)
    have hr := h r List.mem_cons_self
    rw [e, List.length_cons, Nat.cast_add, Int.add_mul]
    split <;> omega

theorem Valid.nil (g : Grid) : Valid g [] := by
  constructor <;> simp [ids, levelQty, atLevel]

theorem Valid.insert {g : Grid} {L : Ledger} (hv : L.Valid g) {orderId price qty : Int}
    {side : Nat} (h : (Op.insert orderId price qty side).Admitted g L) :
    Valid g (L.apply (.insert orderId price qty side)) := by
  obtain ⟨⟨hi, hp, hq⟩, h0, hnew, ht, hs, hqty, hsum⟩ := h
  have mem : ∀ r, r ∈ L ++ [⟨orderId, price, qty, 0, side⟩] →
      r ∈ L ∨ r = ⟨orderId, price, qty, 0, side⟩ := by simp
  constructor
  · simp only [apply, ids, List.map_append, List.map_cons, List.map_nil]
    exact List.nodup_append.mpr ⟨hv.nodup, by simp, by
      rintro a ha b hb rfl
      exact hnew (by simpa using (List.mem_singleton.mp hb) ▸ ha)⟩
  · intro r hr; rcases mem r hr with hr | rfl
    · exact hv.id_ne r hr
    · exact h0
  · intro r hr; rcases mem r hr with hr | rfl
    · exact hv.side_le r hr
    · exact hs
  · intro r hr; rcases mem r hr with hr | rfl
    · exact hv.tick_lt r hr
    · exact ht
  · intro r hr; rcases mem r hr with hr | rfl
    · exact hv.filled_nonneg r hr
    · exact le_refl 0
  · intro r hr; rcases mem r hr with hr | rfl
    · exact hv.filled_le r hr
    · exact (by omega : (0 : Int) ≤ qty)
  · intro r hr; rcases mem r hr with hr | rfl
    · exact hv.qty_pos r hr
    · exact hqty
  · intro r hr; rcases mem r hr with hr | rfl
    · exact hv.i64 r hr
    · exact ⟨hi, hp, hq⟩
  · intro x t
    have e := levelQty_mid L [] ⟨orderId, price, qty, 0, side⟩ g x t
    rw [List.append_nil] at e
    rw [apply, e]
    have hle := hv.qty_fits x t
    split
    · rename_i hat
      obtain ⟨rfl, rfl⟩ : laneOf side = x ∧ g.tickOf price = t := by
        simpa [Resting.At] using hat
      simp only [Resting.remaining]
      omega
    · omega

/-- The conditions on one order survive any change that keeps its id, price,
quantity and side and leaves its fill within bounds. -/
theorem Valid.replace {g : Grid} {A B : Ledger} {r r' : Resting} (hv : Valid g (A ++ r :: B))
    (hid : r'.orderId = r.orderId) (hprice : r'.price = r.price) (hqty : r'.qty = r.qty)
    (hside : r'.side = r.side) (hlo : r.filled ≤ r'.filled) (hhi : r'.filled ≤ r.qty) :
    Valid g (A ++ r' :: B) := by
  have mem : ∀ y, y ∈ A ++ r' :: B → y ∈ A ++ r :: B ∨ y = r' := by
    intro y; simp only [List.mem_append, List.mem_cons]; tauto
  have hr : r ∈ A ++ r :: B := by simp
  constructor
  · have := hv.nodup
    simpa only [ids, List.map_append, List.map_cons, hid] using this
  · intro y hy; rcases mem y hy with hy | rfl
    · exact hv.id_ne y hy
    · exact hid ▸ hv.id_ne r hr
  · intro y hy; rcases mem y hy with hy | rfl
    · exact hv.side_le y hy
    · exact hside ▸ hv.side_le r hr
  · intro y hy; rcases mem y hy with hy | rfl
    · exact hv.tick_lt y hy
    · exact hprice ▸ hv.tick_lt r hr
  · intro y hy; rcases mem y hy with hy | rfl
    · exact hv.filled_nonneg y hy
    · exact (hv.filled_nonneg r hr).trans hlo
  · intro y hy; rcases mem y hy with hy | rfl
    · exact hv.filled_le y hy
    · exact hqty ▸ hhi
  · intro y hy; rcases mem y hy with hy | rfl
    · exact hv.qty_pos y hy
    · exact hqty ▸ hv.qty_pos r hr
  · intro y hy; rcases mem y hy with hy | rfl
    · exact hv.i64 y hy
    · have := hv.i64 r hr; rwa [hid, hprice, hqty]
  · intro x t
    have hat : r'.At g x t = r.At g x t := by simp only [Resting.At, hside, hprice]
    have e := levelQty_mid A B r g x t
    have e' := levelQty_mid A B r' g x t
    have := hv.qty_fits x t
    rw [hat] at e'
    simp only [Resting.remaining, hqty] at e e'
    cases hr : r.At g x t <;> simp only [hr, Bool.false_eq_true, ↓reduceIte] at e e' <;> omega

theorem Valid.sublist {g : Grid} {A B : Ledger} {r : Resting} (hv : Valid g (A ++ r :: B)) :
    Valid g (A ++ B) := by
  have hsub : (A ++ B).Sublist (A ++ r :: B) := by simp
  have mem : ∀ y ∈ A ++ B, y ∈ A ++ r :: B := fun y hy => hsub.subset hy
  constructor
  · exact hv.nodup.sublist (hsub.map _)
  · exact fun y hy => hv.id_ne y (mem y hy)
  · exact fun y hy => hv.side_le y (mem y hy)
  · exact fun y hy => hv.tick_lt y (mem y hy)
  · exact fun y hy => hv.filled_nonneg y (mem y hy)
  · exact fun y hy => hv.filled_le y (mem y hy)
  · exact fun y hy => hv.qty_pos y (mem y hy)
  · exact fun y hy => hv.i64 y (mem y hy)
  · intro x t
    have e := levelQty_mid A B r g x t
    have := hv.qty_fits x t
    have hr := hv.filled_le r (by simp)
    simp only [Resting.remaining] at e
    split at e <;> omega

/-- What remains of an order is part of its level's quantity. -/
theorem Valid.remaining_le {g : Grid} {L : Ledger} (hv : L.Valid g) {r : Resting} (hr : r ∈ L)
    {x : Lane} {t : Nat} (hat : r.At g x t = true) : r.remaining ≤ L.levelQty g x t := by
  obtain ⟨A, B, rfl, _, _⟩ := split_mem hv.nodup hr
  have hnn := levelQty_nonneg hv.sublist x t
  rw [levelQty_mid, if_pos hat]
  omega

theorem Valid.apply {g : Grid} {L : Ledger} (hv : L.Valid g) {op : Op} (h : op.Admitted g L) :
    (L.apply op).Valid g := by
  cases op with
  | insert orderId price qty side => exact hv.insert h
  | update orderId n =>
    obtain ⟨A, r, B, rfl, rfl, hA, hB⟩ := split hv.nodup h.1
    rw [apply_update_split hA hB]
    have := hv.filled_le r (by simp)
    have := h.2
    exact hv.replace rfl rfl rfl rfl (by simp only [Resting.fillBy]; omega)
      (by simp only [Resting.fillBy]; omega)
  | cancel orderId =>
    obtain ⟨A, r, B, rfl, rfl, hA, hB⟩ := split hv.nodup h
    rw [apply_cancel_split hA hB]
    exact hv.sublist
  | fill orderId =>
    obtain ⟨A, r, B, rfl, rfl, hA, hB⟩ := split hv.nodup h
    rw [apply_fill, apply_cancel_split hA hB]
    exact hv.sublist

end Ledger

theorem Ledger.OnGrid.apply {cfg : SmrConfig} {L : Ledger} (h : L.OnGrid cfg) {op : Op}
    (hwf : op.WellFormed cfg L) (hfit : op.Fits cfg L) : (L.apply op).OnGrid cfg := by
  cases op with
  | insert orderId price qty side =>
    intro r hr
    rcases List.mem_append.mp hr with hr | hr
    · exact h r hr
    · rw [List.mem_singleton.mp hr]
      exact ⟨hwf.2.2.2.1, hfit.1⟩
  | update orderId n =>
    intro r hr
    obtain ⟨r', hr', rfl⟩ := List.mem_map.mp hr
    split <;> exact h r' hr'
  | cancel orderId => exact fun r hr => h r (List.mem_of_mem_filter hr)
  | fill orderId => exact fun r hr => h r (List.mem_of_mem_filter hr)

/-- On the grid, the computed level names the price. -/
theorem Ledger.OnGrid.tickOf_iff {cfg : SmrConfig} (hg : cfg.grid.Ok) {L : Ledger}
    (h : L.OnGrid cfg) {r : Resting} (hr : r ∈ L) {t : Nat} (ht : t < cfg.levels) :
    cfg.grid.tickOf r.price = t ↔ r.price = cfg.priceMin + t * cfg.tick := by
  obtain ⟨⟨u, hu, e⟩, hfit⟩ := h r hr
  constructor
  · rintro rfl
    rwa [Grid.tickOf_onGrid hg hu e hfit]
  · exact fun e => Grid.tickOf_onGrid hg ht e hfit

/-- How many orders the call puts in. -/
def Op.inserts : Op → Nat
  | .insert .. => 1
  | _ => 0

/-- How many orders are put in, resting at the end or not. -/
def inserts (ops : List Op) : Nat := (ops.map Op.inserts).sum

/-- The offset of a price from the bottom of the ladder is a 64-bit value. -/
def Op.OffsetFits (cfg : SmrConfig) : Op → Prop
  | .insert _ price _ _ => InI64 (price - cfg.priceMin)
  | _ => True

instance Op.decidableOffsetFits (cfg : SmrConfig) : ∀ op : Op, Decidable (op.OffsetFits cfg)
  | .insert .. => inferInstanceAs (Decidable (_ ∧ _))
  | .update .. => isTrue trivial
  | .cancel _ => isTrue trivial
  | .fill _ => isTrue trivial

theorem Op.Fits.offset {cfg : SmrConfig} {L : Ledger} {op : Op} (h : op.Fits cfg L) :
    op.OffsetFits cfg := by
  cases op with
  | insert orderId price qty side => exact h.1
  | update orderId n => trivial
  | cancel orderId => trivial
  | fill orderId => trivial

theorem Op.WellFormed.admitted_of {cfg : SmrConfig} (hg : cfg.grid.Ok) {L : Ledger} {op : Op}
    (hwf : op.WellFormed cfg L) (hfit : op.OffsetFits cfg) : op.Admitted cfg.grid L := by
  cases op with
  | insert orderId price qty side =>
    obtain ⟨hi, h0, hnew, ⟨t, ht, hp⟩, hs, hq, _, hsum⟩ := hwf
    have e := Grid.tickOf_onGrid hg ht hp hfit
    exact ⟨hi, h0, hnew, e ▸ ht, hs, hq, hsum⟩
  | update orderId n => exact ⟨hwf.1, hwf.2.1⟩
  | cancel orderId => exact hwf
  | fill orderId => exact hwf

/-- A well-formed call that fits the machine types is one a store relies on. -/
theorem Op.WellFormed.admitted {cfg : SmrConfig} (hg : cfg.grid.Ok) {L : Ledger} {op : Op}
    (hwf : op.WellFormed cfg L) (hfit : op.Fits cfg L) : op.Admitted cfg.grid L :=
  hwf.admitted_of hg hfit.offset

/-- Each of the calls is one a store relies on. -/
def Admitted (g : Grid) : Ledger → List Op → Prop
  | _, [] => True
  | L, op :: ops => op.Admitted g L ∧ Admitted g (L.apply op) ops

theorem WellFormed.admitted_of {cfg : SmrConfig} (hg : cfg.grid.Ok) {L : Ledger} {ops : List Op}
    (hwf : WellFormed cfg L ops) (hfit : ∀ op ∈ ops, op.OffsetFits cfg) :
    Admitted cfg.grid L ops := by
  induction ops generalizing L with
  | nil => trivial
  | cons op ops ih =>
    exact ⟨hwf.1.admitted_of hg (hfit op (by simp)), ih hwf.2 fun o ho => hfit o (by simp [ho])⟩

end HiPerf
