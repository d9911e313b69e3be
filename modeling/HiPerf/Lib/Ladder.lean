import Mathlib.Data.Int.Basic
import Mathlib.Order.Basic

/-!
The outermost occupied level of a ladder, kept as an index with -1 for none: an
insertion compares with it, a removal that empties it searches inwards from it.
-/

namespace Ladder

variable {occ occ' : Nat → Prop} {n : Nat} {b : Int}

/-- `b` is the highest occupied level below `n`, or -1. -/
def IsHighest (occ : Nat → Prop) (n : Nat) (b : Int) : Prop :=
  (b = -1 ∧ ∀ t < n, ¬ occ t) ∨ ∃ t < n, b = t ∧ occ t ∧ ∀ u, t < u → u < n → ¬ occ u

/-- `b` is the lowest occupied level below `n`, or -1. -/
def IsLowest (occ : Nat → Prop) (n : Nat) (b : Int) : Prop :=
  (b = -1 ∧ ∀ t < n, ¬ occ t) ∨ ∃ t < n, b = t ∧ occ t ∧ ∀ u < t, ¬ occ u

theorem IsHighest.unique {b' : Int} (h : IsHighest occ n b) (h' : IsHighest occ n b') :
    b = b' := by
  rcases h with ⟨rfl, h⟩ | ⟨t, ht, rfl, ho, hm⟩ <;>
    rcases h' with ⟨rfl, h'⟩ | ⟨t', ht', rfl, ho', hm'⟩
  · rfl
  · exact absurd ho' (h t' ht')
  · exact absurd ho (h' t ht)
  · rcases Nat.lt_trichotomy t t' with hlt | rfl | hlt
    · exact absurd ho' (hm t' hlt ht')
    · rfl
    · exact absurd ho (hm' t hlt ht)

theorem IsLowest.unique {b' : Int} (h : IsLowest occ n b) (h' : IsLowest occ n b') : b = b' := by
  rcases h with ⟨rfl, h⟩ | ⟨t, ht, rfl, ho, hm⟩ <;>
    rcases h' with ⟨rfl, h'⟩ | ⟨t', ht', rfl, ho', hm'⟩
  · rfl
  · exact absurd ho' (h t' ht')
  · exact absurd ho (h' t ht)
  · rcases Nat.lt_trichotomy t t' with hlt | rfl | hlt
    · exact absurd ho (hm' t hlt)
    · rfl
    · exact absurd ho' (hm t' hlt)

theorem IsHighest.congr (h : IsHighest occ n b) (hocc : ∀ t < n, occ' t ↔ occ t) :
    IsHighest occ' n b := by
  rcases h with ⟨rfl, h⟩ | ⟨t, ht, rfl, ho, hm⟩
  · exact .inl ⟨rfl, fun t ht => (hocc t ht).not.mpr (h t ht)⟩
  · exact .inr ⟨t, ht, rfl, (hocc t ht).mpr ho, fun u hu hn => (hocc u hn).not.mpr (hm u hu hn)⟩

theorem IsLowest.congr (h : IsLowest occ n b) (hocc : ∀ t < n, occ' t ↔ occ t) :
    IsLowest occ' n b := by
  rcases h with ⟨rfl, h⟩ | ⟨t, ht, rfl, ho, hm⟩
  · exact .inl ⟨rfl, fun t ht => (hocc t ht).not.mpr (h t ht)⟩
  · exact .inr ⟨t, ht, rfl, (hocc t ht).mpr ho,
      fun u hu => (hocc u (Nat.lt_trans hu ht)).not.mpr (hm u hu)⟩

/-- Occupying level `t` raises the highest to it at most. -/
theorem IsHighest.insert (h : IsHighest occ n b) {t : Nat} (ht : t < n)
    (hocc : ∀ u, occ' u ↔ occ u ∨ u = t) :
    IsHighest occ' n (if b < 0 ∨ b < t then t else b) := by
  rcases h with ⟨rfl, h⟩ | ⟨u, hu, rfl, ho, hm⟩
  · refine .inr ⟨t, ht, by simp, (hocc t).mpr (.inr rfl), fun v hv hn hv' => ?_⟩
    rcases (hocc v).mp hv' with hv' | rfl
    · exact h v hn hv'
    · omega
  · by_cases hlt : u < t
    · refine .inr ⟨t, ht, by simp [hlt], (hocc t).mpr (.inr rfl), fun v hv hn hv' => ?_⟩
      rcases (hocc v).mp hv' with hv' | rfl
      · exact hm v (by omega) hn hv'
      · omega
    · refine .inr ⟨u, hu, if_neg (by omega), (hocc u).mpr (.inl ho), fun v hv hn hv' => ?_⟩
      rcases (hocc v).mp hv' with hv' | rfl
      · exact hm v hv hn hv'
      · omega

/-- Occupying level `t` lowers the lowest to it at most. -/
theorem IsLowest.insert (h : IsLowest occ n b) {t : Nat} (ht : t < n)
    (hocc : ∀ u, occ' u ↔ occ u ∨ u = t) :
    IsLowest occ' n (if b < 0 ∨ (t : Int) < b then t else b) := by
  rcases h with ⟨rfl, h⟩ | ⟨u, hu, rfl, ho, hm⟩
  · refine .inr ⟨t, ht, by simp, (hocc t).mpr (.inr rfl), fun v hv hv' => ?_⟩
    rcases (hocc v).mp hv' with hv' | rfl
    · exact h v (by omega) hv'
    · omega
  · by_cases hlt : t < u
    · refine .inr ⟨t, ht, by simp [hlt], (hocc t).mpr (.inr rfl), fun v hv hv' => ?_⟩
      rcases (hocc v).mp hv' with hv' | rfl
      · exact hm v (by omega) hv'
      · omega
    · refine .inr ⟨u, hu, if_neg (by omega), (hocc u).mpr (.inl ho), fun v hv hv' => ?_⟩
      rcases (hocc v).mp hv' with hv' | rfl
      · exact hm v hv hv'
      · omega

section
variable [DecidablePred occ']

/-- The first occupied level from `t` downwards, or -1. -/
def scanDown (occ : Nat → Prop) [DecidablePred occ] : Nat → Int
  | 0 => if occ 0 then (0 : Nat) else -1
  | t + 1 => if occ (t + 1) then (t + 1 : Nat) else scanDown occ t

/-- The first occupied level among the `k` from `t` upwards, or -1. -/
def scanUp (occ : Nat → Prop) [DecidablePred occ] (t : Nat) : Nat → Int
  | 0 => -1
  | k + 1 => if occ t then t else scanUp occ (t + 1) k

theorem scanDown_isHighest (t : Nat) : IsHighest occ' (t + 1) (scanDown occ' t) := by
  induction t with
  | zero =>
    simp only [scanDown]
    split
    · exact .inr ⟨0, by omega, rfl, ‹_›, fun u hu hn => by omega⟩
    · rename_i hno
      exact .inl ⟨rfl, fun u hu => (show u = 0 by omega) ▸ hno⟩
  | succ t ih =>
    simp only [scanDown]
    split
    · exact .inr ⟨t + 1, by omega, rfl, ‹_›, fun u hu hn => by omega⟩
    · rename_i hno
      have last : ∀ u, u < t + 1 + 1 → u < t + 1 ∨ u = t + 1 := by omega
      rcases ih with ⟨e, h⟩ | ⟨v, hv, e, ho, hm⟩
      · exact .inl ⟨e, fun u hu => (last u hu).elim (h u) fun e => e ▸ hno⟩
      · exact .inr ⟨v, by omega, e, ho, fun u hu hn => (last u hn).elim (hm u hu) fun e => e ▸ hno⟩

theorem scanUp_isLowest (t k : Nat) (hbelow : ∀ u < t, ¬ occ' u) :
    IsLowest occ' (t + k) (scanUp occ' t k) := by
  induction k generalizing t with
  | zero => exact .inl ⟨rfl, hbelow⟩
  | succ k ih =>
    simp only [scanUp]
    split
    · exact .inr ⟨t, by omega, rfl, ‹_›, hbelow⟩
    · rename_i hno
      have last : ∀ u, u < t + 1 → u < t ∨ u = t := by omega
      have := ih (t + 1) fun u hu => (last u hu).elim (hbelow u) fun e => e ▸ hno
      rwa [show t + (k + 1) = t + 1 + k by omega]

/-- Removal at level `t`: only if the cached level was emptied is there
anything to search, and the search need not look above it. -/
theorem IsHighest.remove (h : IsHighest occ n b) {t : Nat} (ht : t < n) (hot : occ t)
    (hocc : ∀ u, u ≠ t → (occ' u ↔ occ u)) :
    IsHighest occ' n (if b ≠ t ∨ occ' t then b else scanDown occ' t) := by
  rcases h with ⟨_, h⟩ | ⟨u, hu, rfl, ho, hm⟩
  · exact absurd hot (h t ht)
  · by_cases hstay : occ' t
    · rw [if_pos (.inr hstay)]
      refine IsHighest.congr (.inr ⟨u, hu, rfl, ho, hm⟩) fun v _ => ?_
      by_cases hv : v = t
      · subst hv; exact ⟨fun _ => hot, fun _ => hstay⟩
      · exact hocc v hv
    · by_cases hut : u = t
      · subst hut
        have hif : ¬ ((u : Int) ≠ u ∨ occ' u) := by simp [hstay]
        rw [if_neg hif]
        have above : ∀ v, u < v → v < n → ¬ occ' v :=
          fun v hv hn => (hocc v (by omega)).not.mpr (hm v hv hn)
        have last : ∀ v, v < n → v < u + 1 ∨ u < v := by omega
        have hscan : IsHighest occ' (u + 1) (scanDown occ' u) := scanDown_isHighest u
        rcases hscan with ⟨e, h⟩ | ⟨w, hw, e, how, hmw⟩
        · exact .inl ⟨e, fun v hv => (last v hv).elim (h v) fun hlt => above v hlt hv⟩
        · exact .inr ⟨w, by omega, e, how,
            fun v hv hn => (last v hn).elim (hmw v hv) fun hlt => above v hlt hn⟩
      · rw [if_pos (.inl (by omega))]
        have hot' : t < u := by
          rcases Nat.lt_trichotomy t u with h | h | h
          · exact h
          · omega
          · exact absurd hot (hm t h ht)
        exact .inr ⟨u, hu, rfl, (hocc u hut).mpr ho,
          fun v hv hn => (hocc v (by omega)).not.mpr (hm v hv hn)⟩

theorem IsLowest.remove (h : IsLowest occ n b) {t : Nat} (ht : t < n) (hot : occ t)
    (hocc : ∀ u, u ≠ t → (occ' u ↔ occ u)) :
    IsLowest occ' n (if b ≠ t ∨ occ' t then b else scanUp occ' t (n - t)) := by
  rcases h with ⟨_, h⟩ | ⟨u, hu, rfl, ho, hm⟩
  · exact absurd hot (h t ht)
  · by_cases hstay : occ' t
    · rw [if_pos (.inr hstay)]
      refine IsLowest.congr (.inr ⟨u, hu, rfl, ho, hm⟩) fun v _ => ?_
      by_cases hv : v = t
      · subst hv; exact ⟨fun _ => hot, fun _ => hstay⟩
      · exact hocc v hv
    · by_cases hut : u = t
      · subst hut
        have hif : ¬ ((u : Int) ≠ u ∨ occ' u) := by simp [hstay]
        rw [if_neg hif]
        have hbelow : ∀ v < u, ¬ occ' v := fun v hv => (hocc v (by omega)).not.mpr (hm v hv)
        have hscan := scanUp_isLowest u (n - u) hbelow
        rwa [Nat.add_sub_of_le (Nat.le_of_lt ht)] at hscan
      · rw [if_pos (.inl (by omega))]
        have hlt : u < t := by
          rcases Nat.lt_trichotomy t u with h | h | h
          · exact absurd hot (hm t h)
          · omega
          · exact h
        exact .inr ⟨u, hu, rfl, (hocc u hut).mpr ho,
          fun v hv => (hocc v (by omega)).not.mpr (hm v hv)⟩

end

end Ladder
