import Mathlib.Data.List.Induction
import Mathlib.Data.List.Sort
import Mathlib.Tactic.Common

/-!
The last of the items that have a key, and the ordered map that inserting the
items in turn leaves.
-/

namespace Latest

open Std

section

variable {κ : Type} [Ord κ] [LawfulEqOrd κ]

theorem ne_of_ascends {a b : κ} (h : compare a b = .lt) : a ≠ b := by
  rintro rfl
  rw [ReflOrd.compare_self] at h
  cases h

/-- Ascending lists of the same keys are the same list. -/
theorem eq_of_ascending [TransOrd κ] {l l' : List κ} (h : l.Pairwise (compare · · = .lt))
    (h' : l'.Pairwise (compare · · = .lt)) (hmem : ∀ k, k ∈ l ↔ k ∈ l') : l = l' := by
  have hperm := (List.perm_ext_iff_of_nodup (h.imp ne_of_ascends) (h'.imp ne_of_ascends)).mpr hmem
  refine hperm.eq_of_pairwise (fun a b _ _ hab hba => ?_) h h'
  rw [OrientedOrd.eq_swap, hba] at hab
  cases hab

end

variable {α β κ : Type} [DecidableEq κ] {skip : α → Bool} {key : α → κ} {k : κ} {x : α} {l : List α}

/-- The last item of key `k` that is not skipped. -/
def last (skip : α → Bool) (key : α → κ) (l : List α) (k : κ) : Option α :=
  (l.filter fun x => !skip x && key x = k).getLast?

theorem last_append (l l' : List α) :
    last skip key (l ++ l') k = (last skip key l' k).or (last skip key l k) := by
  rw [last, List.filter_append, List.getLast?_append]
  rfl

theorem last_singleton (x : α) :
    last skip key [x] k = if skip x = false ∧ key x = k then some x else none := by
  by_cases h : skip x = false ∧ key x = k
  · simp [last, h]
  · rw [if_neg h, last, List.filter_eq_nil_iff.mpr (by simpa using h)]
    rfl

theorem last_mem (h : last skip key l k = some x) : x ∈ l ∧ skip x = false ∧ key x = k := by
  have hx := List.mem_of_getLast? h
  simpa using hx

theorem last_eq_none_iff : last skip key l k = none ↔ ∀ x ∈ l, skip x = false → key x ≠ k := by
  simp [last]

/-- Where the items of a key agree, any of them is the last. -/
theorem last_eq_of_unique (hx : x ∈ l) (hskip : skip x = false) (hkey : key x = k)
    (huniq : ∀ y ∈ l, key y = k → y = x) : last skip key l k = some x := by
  cases h : last skip key l k with
  | none => exact absurd hkey (last_eq_none_iff.mp h x hx hskip)
  | some y =>
    obtain ⟨hy, -, hk⟩ := last_mem h
    rw [huniq y hy hk]

theorem last_filter (p : κ → Bool) :
    last skip key (l.filter fun x => p (key x)) k = if p k then last skip key l k else none := by
  rw [last, List.filter_filter]
  by_cases hp : p k
  · rw [if_pos hp, last]
    congr 2
    funext x
    by_cases hk : key x = k
    · simp [hk, hp]
    · simp [hk]
  · rw [if_neg hp, List.filter_eq_nil_iff.mpr]
    · rfl
    · rintro x - h
      simp only [Bool.and_eq_true, decide_eq_true_eq] at h
      exact hp (h.1.2 ▸ h.2)

variable [Ord κ] [TransOrd κ] [LawfulEqOrd κ]

/-- Inserting the items in turn leaves the last one of each key. -/
theorem collect_get (val : α → β) (l : List α) :
    (l.foldl (fun (map : ExtTreeMap κ β) x => if skip x then map else map.insert (key x) (val x))
      ∅)[k]? = (last skip key l k).map val := by
  induction l using List.reverseRecOn with
  | nil => simp [last]
  | append_singleton l x ih =>
    rw [List.foldl_append, last_append, last_singleton]
    simp only [List.foldl_cons, List.foldl_nil]
    cases hskip : skip x with
    | true => simpa using ih
    | false =>
      rw [if_neg Bool.false_ne_true, ExtTreeMap.getElem?_insert]
      by_cases hk : key x = k
      · simp [hk]
      · rw [if_neg (fun h => hk (LawfulEqOrd.eq_of_compare h)), ih]
        simp [hk]

end Latest
