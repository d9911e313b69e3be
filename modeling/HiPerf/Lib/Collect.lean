import HiPerf.Lib.Lockstep

/-!
A program run several times for what it gives.
-/

namespace Exec

variable {ε σ τ α : Type} {strict : Prop} {I : σ → τ → Prop}

/-- What `n` runs of a program give, the first one first. -/
def collect (x : EStateM ε σ α) : Nat → EStateM ε σ (List α)
  | 0 => pure []
  | n + 1 => do
    let as ← collect x n
    let a ← x
    return as ++ [a]

theorem collect_succ_eq_ok {x : EStateM ε σ α} {n : Nat} {s s' : σ} {bs : List α} :
    collect x (n + 1) s = .ok bs s' ↔ ∃ as a s₁, collect x n s = .ok as s₁ ∧ x s₁ = .ok a s' ∧
      bs = as ++ [a] := by
  rw [collect, bind_eq_ok]
  constructor
  · rintro ⟨as, s₁, e, h⟩
    obtain ⟨a, s₂, e', h⟩ := bind_eq_ok.mp h
    cases h
    exact ⟨as, a, s₁, e, e', rfl⟩
  · rintro ⟨as, a, s₁, e, e', rfl⟩
    exact ⟨as, s₁, e, (bind_ok e' _)⟩

/-- Programs in lockstep give the same however often they are run. -/
theorem Lockstep.collect {x : EStateM ε σ α} {y : EStateM ε τ α} (h : Lockstep strict I x y)
    (n : Nat) : Lockstep strict I (Exec.collect x n) (Exec.collect y n) := by
  induction n with
  | zero => exact Lockstep.pure []
  | succ n ih => exact ih.bind fun as => h.bind fun a => Lockstep.pure _

end Exec
