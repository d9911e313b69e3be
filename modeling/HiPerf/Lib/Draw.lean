import Mathlib.Data.List.Count
import Mathlib.Data.List.Perm.Basic

/-!
Drawing from an unordered list by swapping the drawn cell with the last one,
and streams whose members are of one kind and the other in turn.
-/

namespace Draw

variable {α : Type}

/-- Take out cell `v`; the last cell moves into its place. -/
def swapRemove (l : List α) (v : Nat) : List α :=
  match l.getLast? with
  | some x => (l.set v x).dropLast
  | none => l

theorem swapRemove_mid (a b : List α) (x y : α) :
    swapRemove (a ++ x :: (b ++ [y])) a.length = a ++ y :: b := by
  have e : a ++ x :: (b ++ [y]) = (a ++ x :: b) ++ [y] := by simp
  have hset : ((a ++ x :: b) ++ [y]).set a.length y = (a ++ y :: b) ++ [y] := by
    simp
  rw [swapRemove, e, List.getLast?_concat]
  simp only [hset, List.dropLast_concat]

theorem swapRemove_last (a : List α) (x : α) : swapRemove (a ++ [x]) a.length = a := by
  rw [swapRemove, List.getLast?_concat]
  simp

/-- What is drawn is the cell, and what is left is the rest. -/
theorem swapRemove_perm {l : List α} {v : Nat} {x : α} (h : l[v]? = some x) :
    l.Perm (x :: swapRemove l v) := by
  obtain ⟨hv, hx⟩ := List.getElem?_eq_some_iff.mp h
  have hsplit : l = l.take v ++ x :: l.drop (v + 1) := by
    rw [← hx, List.getElem_cons_drop, List.take_append_drop]
  have hlen : (l.take v).length = v := by simp; omega
  generalize l.take v = a at hsplit hlen
  generalize l.drop (v + 1) = c at hsplit
  subst hsplit hlen
  rcases List.eq_nil_or_concat c with rfl | ⟨b, y, rfl⟩
  · rw [swapRemove_last]
    exact List.perm_append_singleton x a
  · rw [List.concat_eq_append, swapRemove_mid]
    refine List.perm_middle.trans (List.Perm.cons x (List.Perm.append_left a ?_))
    exact List.perm_append_singleton y b

/-- The kinds of the members take turns, starting with `b`. -/
def Alternating (p : α → Bool) : Bool → List α → Prop
  | _, [] => True
  | b, x :: l => p x = b ∧ Alternating p (!b) l

variable {p : α → Bool}

theorem Alternating.append {b : Bool} {l : List α} {x : α} (h : Alternating p b l)
    (hx : p x = (if l.length % 2 = 0 then b else !b)) : Alternating p b (l ++ [x]) := by
  induction l generalizing b with
  | nil => exact ⟨by simpa using hx, trivial⟩
  | cons y l ih =>
    refine ⟨h.1, ih h.2 ?_⟩
    rw [hx, List.length_cons]
    rcases Nat.mod_two_eq_zero_or_one l.length with e | e
    · rw [if_neg (by omega), if_pos e]
    · rw [if_pos (by omega), if_neg (by omega), Bool.not_not]

/-- Neither kind takes more than every other place. -/
theorem Alternating.count {b : Bool} {l : List α} (h : Alternating p b l) :
    l.countP p = (l.length + if b then 1 else 0) / 2 := by
  induction l generalizing b with
  | nil => cases b <;> simp
  | cons x l ih =>
    obtain ⟨hx, hl⟩ := h
    rw [List.countP_cons, ih hl, hx, List.length_cons]
    cases b with
    | false => simp
    | true => simp only [Bool.not_true, Bool.false_eq_true, if_false, if_true]; omega

theorem Alternating.infix {b : Bool} {a w c : List α} (h : Alternating p b (a ++ w ++ c)) :
    ∃ b', Alternating p b' w := by
  induction a generalizing b with
  | nil =>
    refine ⟨b, ?_⟩
    rw [List.nil_append] at h
    induction w generalizing b with
    | nil => trivial
    | cons x w ih => exact ⟨h.1, ih h.2⟩
  | cons x a ih => exact ih h.2

/-- In any window, a kind, or a part of it, takes half of the places at most,
rounded up. -/
theorem Alternating.window {b : Bool} {a w c : List α} (h : Alternating p b (a ++ w ++ c))
    {k : α → Bool} (hk : (∀ x, k x = true → p x = true) ∨ ∀ x, k x = true → p x = false) :
    w.countP k ≤ w.length / 2 + 1 := by
  obtain ⟨b', hw⟩ := h.infix
  have hcount := hw.count
  rcases hk with hk | hk
  · have hle : w.countP k ≤ w.countP p := List.countP_mono_left fun x _ => hk x
    split at hcount <;> omega
  · have hle : w.countP k ≤ w.countP (fun x => !p x) :=
      List.countP_mono_left fun x _ hx => by simp [hk x hx]
    have htotal := List.length_eq_countP_add_countP p (l := w)
    have hnot : w.countP (fun x => !p x) = w.countP (fun x => ¬ p x) :=
      List.countP_congr fun x _ => by simp
    split at hcount <;> omega

end Draw
