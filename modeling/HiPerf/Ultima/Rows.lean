import HiPerf.Ultima.Sparse
import HiPerf.Ultima.Transaction

/-!
Tables that show a memory: a row for every level, a row for every resting order,
one row of scalars. Each write to a table is a write to the memory.
-/

namespace HiPerf

open Machine Tables Exec

namespace Flat

/-- The orders table: slot `s` is row `s + 1`. -/
def orderRow (f : Flat) : Nat → Option Order
  | 0 => none
  | s + 1 => if (f.ord s).orderId = 0 then none else some (f.ord s)

/-- The levels table: bids, then asks. -/
def levelRow (f : Flat) (i : Nat) : Option LevelRec :=
  if i = 0 ∨ 2 * f.grid.nLevels < i then none
  else if i ≤ f.grid.nLevels then some (0, i - 1, f.lvl .bid (i - 1))
  else some (1, i - 1 - f.grid.nLevels, f.lvl .ask (i - 1 - f.grid.nLevels))

def metaRow (f : Flat) (capacity : Nat) : MetaRec :=
  ⟨f.grid.priceMin, f.grid.tick, f.grid.nLevels, capacity, f.hwm, f.bestBid, f.bestAsk⟩

theorem levelRow_at (f : Flat) {side t : Nat} (hs : side ≤ 1) (ht : t < f.grid.nLevels) :
    f.levelRow (side * f.grid.nLevels + t + 1) = some (side, t, f.lvl (laneOf side) t) := by
  obtain rfl | rfl : side = 0 ∨ side = 1 := by omega
  · rw [levelRow, if_neg (by omega), if_pos (by omega)]
    simp [laneOf]
  · rw [levelRow, if_neg (by omega), if_neg (by omega)]
    have e : 1 * f.grid.nLevels + t + 1 - 1 - f.grid.nLevels = t := by omega
    rw [e]
    rfl

theorem levelRow_setLvl (f : Flat) {side t : Nat} (hs : side ≤ 1) (ht : t < f.grid.nLevels)
    (l : PriceLevel) (i : Nat) : (f.setLvl (laneOf side) t l).levelRow i =
      if i = side * f.grid.nLevels + t + 1 then some (side, t, l) else f.levelRow i := by
  have hgrid : (f.setLvl (laneOf side) t l).grid = f.grid := rfl
  have hside : side = 0 ∨ side = 1 := by omega
  split
  · rename_i e
    have hrow := (f.setLvl (laneOf side) t l).levelRow_at hs (by rw [hgrid]; exact ht)
    rw [hgrid, ← e] at hrow
    rw [hrow]
    simp [setLvl]
  · rename_i hne
    have hkeep : ∀ x u, ¬ (x = laneOf side ∧ u = t) →
        (f.setLvl (laneOf side) t l).lvl x u = f.lvl x u := fun x u h => if_neg h
    simp only [levelRow, hgrid]
    by_cases h₁ : i = 0 ∨ 2 * f.grid.nLevels < i
    · rw [if_pos h₁, if_pos h₁]
    · rw [if_neg h₁, if_neg h₁]
      by_cases h₂ : i ≤ f.grid.nLevels
      · rw [if_pos h₂, if_pos h₂, hkeep]
        rintro ⟨hx, hu⟩
        obtain rfl | rfl := hside
        · omega
        · cases hx
      · rw [if_neg h₂, if_neg h₂, hkeep]
        rintro ⟨hx, hu⟩
        obtain rfl | rfl := hside
        · cases hx
        · omega

theorem orderRow_setOrd (f : Flat) (s : Nat) (o : Order) (i : Nat) :
    (f.setOrd s o).orderRow i =
      if i = s + 1 then if o.orderId = 0 then none else some o else f.orderRow i := by
  cases i with
  | zero => rfl
  | succ i =>
    simp only [orderRow, setOrd, Nat.add_right_cancel_iff]
    by_cases e : i = s
    · simp [e]
    · simp [e]

theorem orderRow_rowOf {f : Flat} {s : Nat} (hs : (f.ord s).orderId ≠ 0) :
    f.orderRow (rowOf s) = some (f.ord s) := if_neg hs

end Flat

variable {db : Db} {f : Flat} {n : Nat} {l : db.Table LevelRec} {o : db.Table Order}

/-- The levels table shows `f`. -/
def LevelsShow (l : db.Table LevelRec) (f : Flat) : Prop := ∀ i, db.get l i = f.levelRow i

/-- The orders table shows `f`; its next row is that of slot `n`. -/
structure OrdersShow (o : db.Table Order) (f : Flat) (n : Nat) : Prop where
  get : ∀ i, db.get o i = f.orderRow i
  nextId : db.nextId o = n + 1

namespace LevelsShow

theorem at_ (h : LevelsShow l f) {side t : Nat} (hs : side ≤ 1) (ht : t < f.grid.nLevels) :
    db.get l (side * f.grid.nLevels + t + 1) = some (side, t, f.lvl (laneOf side) t) := by
  rw [h, f.levelRow_at hs ht]

theorem update (hdb : db.Lawful) (h : LevelsShow l f) {side t : Nat} (hs : side ≤ 1)
    (ht : t < f.grid.nLevels) (lvl : PriceLevel) :
    ∃ l', db.update l (side * f.grid.nLevels + t + 1) (side, t, lvl) = some l' ∧
      LevelsShow l' (f.setLvl (laneOf side) t lvl) := by
  obtain ⟨l', e, -, hget⟩ := hdb.update_ok l (side * f.grid.nLevels + t + 1) (side, t, lvl)
    (by rw [h.at_ hs ht]; exact Option.some_ne_none _)
  refine ⟨l', e, fun i => ?_⟩
  rw [hget, f.levelRow_setLvl hs ht, h]

end LevelsShow

namespace OrdersShow

theorem rowOf_get (h : OrdersShow o f n) {s : Nat} (hs : (f.ord s).orderId ≠ 0) :
    db.get o (rowOf s) = some (f.ord s) := by
  rw [h.get, f.orderRow_rowOf hs]

theorem insert (hdb : db.Lawful) (h : OrdersShow o f n) {x : Order} (hx : x.orderId ≠ 0) :
    ∃ o', db.insert o x = some (n + 1, o') ∧ OrdersShow o' (f.setOrd n x) (n + 1) := by
  obtain ⟨o', e, hnext, hget⟩ := hdb.insert_ok o x
  rw [h.nextId] at e hnext hget
  refine ⟨o', e, fun i => ?_, hnext⟩
  rw [hget, f.orderRow_setOrd, if_neg hx, h.get]

theorem update (hdb : db.Lawful) (h : OrdersShow o f n) {s : Nat} (hs : (f.ord s).orderId ≠ 0)
    {x : Order} (hx : x.orderId ≠ 0) :
    ∃ o', db.update o (rowOf s) x = some o' ∧ OrdersShow o' (f.setOrd s x) n := by
  obtain ⟨o', e, hnext, hget⟩ := hdb.update_ok o (rowOf s) x
    (by rw [h.rowOf_get hs]; exact Option.some_ne_none _)
  refine ⟨o', e, fun i => ?_, hnext.trans h.nextId⟩
  rw [hget, f.orderRow_setOrd, if_neg hx, h.get]
  rfl

theorem delete (hdb : db.Lawful) (h : OrdersShow o f n) {s : Nat} (hs : (f.ord s).orderId ≠ 0) :
    ∃ o', db.delete o (rowOf s) = some o' ∧ OrdersShow o' (f.setOrd s Order.zero) n := by
  obtain ⟨o', e, hnext, hget⟩ := hdb.delete_ok o (rowOf s)
    (by rw [h.rowOf_get hs]; exact Option.some_ne_none _)
  refine ⟨o', e, fun i => ?_, hnext.trans h.nextId⟩
  rw [hget, f.orderRow_setOrd, if_pos (show Order.zero.orderId = 0 from rfl), h.get]
  rfl

/-- Writing a link of a row, unless there is no row. -/
theorem linkNext (hdb : db.Lawful) (h : OrdersShow o f n) {s : Nat}
    (hs : s ≠ NIL → (f.ord s).orderId ≠ 0) (v : Nat) (text text' : String) :
    ∃ o', UltimaBook.linkNext o s v text text' = pure o' ∧ OrdersShow o' (f.linkNext s v) n := by
  by_cases hnil : s = NIL
  · subst hnil
    refine ⟨o, if_neg (not_not.mpr rfl), ?_⟩
    rw [Book.linkNext_nil]
    exact h
  · obtain ⟨o', e, h'⟩ := h.update hdb (hs hnil) (x := { f.ord s with next := v }) (hs hnil)
    refine ⟨o', ?_, Book.linkNext_eq f hnil v ▸ h'⟩
    rw [UltimaBook.linkNext, if_pos hnil, h.rowOf_get (hs hnil)]
    exact congrArg (expect text') e

theorem linkPrev (hdb : db.Lawful) (h : OrdersShow o f n) {s : Nat}
    (hs : s ≠ NIL → (f.ord s).orderId ≠ 0) (v : Nat) (text text' : String) :
    ∃ o', UltimaBook.linkPrev o s v text text' = pure o' ∧ OrdersShow o' (f.linkPrev s v) n := by
  by_cases hnil : s = NIL
  · subst hnil
    refine ⟨o, if_neg (not_not.mpr rfl), ?_⟩
    rw [Book.linkPrev_nil]
    exact h
  · obtain ⟨o', e, h'⟩ := h.update hdb (hs hnil) (x := { f.ord s with prev := v }) (hs hnil)
    refine ⟨o', ?_, Book.linkPrev_eq f hnil v ▸ h'⟩
    rw [UltimaBook.linkPrev, if_pos hnil, h.rowOf_get (hs hnil)]
    exact congrArg (expect text') e

end OrdersShow

end HiPerf
