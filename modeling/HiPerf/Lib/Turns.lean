import Mathlib.Data.List.Basic
import Mathlib.Tactic.Common

/-!
A system that takes one turn after another, where a turn that cannot be taken has
no next state: what turns keep, a run keeps; where some own turn can always be taken
and each leaves less work, a run can be completed, and is no longer than its work.
-/

namespace Turns

variable {ι σ : Type}

/-- The turns one after the other, as long as each can be taken. -/
def run (step : ι → σ → Option σ) : List ι → σ → Option σ
  | [], s => some s
  | i :: is, s => (step i s).bind (run step is)

variable {step : ι → σ → Option σ} {I : σ → Prop} {own : ι → Bool} {work : σ → Nat} {s s' : σ}

theorem run_cons_eq_some {i : ι} {is : List ι} :
    run step (i :: is) s = some s' ↔ ∃ t, step i s = some t ∧ run step is t = some s' :=
  Option.bind_eq_some_iff

/-- A run makes no more turns of its own than there is work, which other turns add to. -/
theorem bounded (hkeeps : ∀ i s s', I s → step i s = some s' → I s')
    (hown : ∀ i s s', I s → own i = true → step i s = some s' → work s' < work s) {c : Nat}
    (hother : ∀ i s s', I s → own i = false → step i s = some s' → work s' ≤ work s + c)
    {is : List ι} (h : I s) (e : run step is s = some s') :
    is.countP own + work s' ≤ work s + c * is.countP (fun i => !own i) := by
  induction is generalizing s with
  | nil =>
    cases e
    simp
  | cons i is ih =>
    obtain ⟨t, hstep, hrun⟩ := run_cons_eq_some.mp e
    have hrest := ih (hkeeps i s t h hstep) hrun
    cases hi : own i with
    | true =>
      have hless := hown i s t h hi hstep
      simp only [List.countP_cons, hi, Bool.not_true, Bool.false_eq_true, if_true, if_false,
        Nat.add_zero]
      omega
    | false =>
      have hmore := hother i s t h hi hstep
      simp only [List.countP_cons, hi, Bool.not_false, Bool.false_eq_true, if_true, if_false,
        Nat.mul_add, Nat.mul_one]
      omega

/-- Where an own turn can be taken until the end, the end can be reached. -/
theorem completes (hkeeps : ∀ i s s', I s → step i s = some s' → I s')
    (hown : ∀ i s s', I s → own i = true → step i s = some s' → work s' < work s)
    {Done : σ → Prop} (hmoves : ∀ s, I s → ¬ Done s → ∃ i s', own i = true ∧ step i s = some s')
    (h : I s) : ∃ is s', (∀ i ∈ is, own i = true) ∧ run step is s = some s' ∧ I s' ∧ Done s' := by
  induction hwork : work s using Nat.strongRecOn generalizing s with
  | ind n ih =>
    by_cases hdone : Done s
    · exact ⟨[], s, nofun, rfl, h, hdone⟩
    · obtain ⟨i, t, hi, hstep⟩ := hmoves s h hdone
      have hless := hown i s t h hi hstep
      obtain ⟨is, s', his, hrun, h', hdone'⟩ := ih _ (hwork ▸ hless) (hkeeps i s t h hstep) rfl
      exact ⟨i :: is, s', List.forall_mem_cons.mpr ⟨hi, his⟩, run_cons_eq_some.mpr ⟨t, hstep, hrun⟩,
        h', hdone'⟩

end Turns
