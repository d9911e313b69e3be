import HiPerf.Lib.Exec
import Mathlib.Order.Defs.Unbundled

/-!
What a program keeps whether or not it stops: a preorder between the state it
starts in and the state it leaves behind.
-/

namespace Exec

variable {ε σ α β : Type} {R : σ → σ → Prop}

/-- The state a program leaves behind. -/
def last (x : EStateM ε σ α) (s : σ) : σ :=
  match x s with
  | .ok _ s' => s'
  | .error _ s' => s'

def Along (R : σ → σ → Prop) (x : EStateM ε σ α) : Prop := ∀ s, R s (last x s)

theorem last_ok {x : EStateM ε σ α} {s s' : σ} {a : α} (h : x s = .ok a s') : last x s = s' := by
  simp only [last, h]

theorem last_error {x : EStateM ε σ α} {s s' : σ} {e : ε} (h : x s = .error e s') :
    last x s = s' := by
  simp only [last, h]

namespace Along

variable {x y : EStateM ε σ α} {k : α → EStateM ε σ β}

theorem pure [Std.Refl R] (a : α) : Along R (pure a : EStateM ε σ α) := fun s => refl_of R s

theorem throw [Std.Refl R] (e : ε) : Along R (throw e : EStateM ε σ α) := fun s => refl_of R s

theorem bind [IsTrans σ R] (hx : Along R x) (hk : ∀ a, Along R (k a)) : Along R (x >>= k) := by
  intro s
  have h := hx s
  cases e : x s with
  | ok a s₁ =>
    rw [last_ok e] at h
    have e' : last (x >>= k) s = last (k a) s₁ := by simp only [last, bind_ok e]
    rw [e']
    exact trans_of R h (hk a s₁)
  | error p s₁ =>
    rw [last_error e] at h
    rw [last_error (bind_error e k)]
    exact h

theorem ite {c : Prop} [Decidable c] (hx : Along R x) (hy : Along R y) :
    Along R (if c then x else y) := by
  split
  · exact hx
  · exact hy

theorem modify {g : σ → σ} (h : ∀ s, R s (g s)) : Along R (modify g : EStateM ε σ PUnit) := h

theorem get_bind {l : σ → EStateM ε σ β} (h : ∀ s, Along R (l s)) :
    Along R ((get : EStateM ε σ σ) >>= l) := fun s => h s s

/-- A program that only looks at the state. -/
theorem read [Std.Refl R] (h : ∀ s, last x s = s) : Along R x := fun s => by
  rw [h s]
  exact refl_of R s

theorem runAll [Std.Refl R] [IsTrans σ R] {ι : Type} {step : ι → EStateM ε σ PUnit}
    (h : ∀ i, Along R (step i)) (is : List ι) : Along R (runAll step is) := by
  induction is with
  | nil => exact pure _
  | cons i is ih => exact (h i).bind fun _ => ih

end Along

/-- What holds before a program still holds after it, if it ends. -/
def Preserves (I : σ → Prop) (x : EStateM ε σ α) : Prop := ∀ s a s', I s → x s = .ok a s' → I s'

namespace Preserves

variable {I : σ → Prop} {x y : EStateM ε σ α} {k : α → EStateM ε σ β}

theorem pure (a : α) : Preserves I (pure a : EStateM ε σ α) := by
  intro s b s' hs e
  cases e
  exact hs

theorem throw (e : ε) : Preserves I (throw e : EStateM ε σ α) := fun _ _ _ _ e => (nomatch e)

theorem bind (hx : Preserves I x) (hk : ∀ a, Preserves I (k a)) : Preserves I (x >>= k) := by
  intro s b s' hs e
  obtain ⟨a, s₁, e₁, e₂⟩ := bind_eq_ok.mp e
  exact hk a s₁ b s' (hx s a s₁ hs e₁) e₂

theorem ite {c : Prop} [Decidable c] (hx : c → Preserves I x) (hy : ¬ c → Preserves I y) :
    Preserves I (if c then x else y) := by
  split
  · exact hx ‹_›
  · exact hy ‹_›

theorem modify {g : σ → σ} (h : ∀ s, I s → I (g s)) :
    Preserves I (modify g : EStateM ε σ PUnit) := by
  intro s a s' hs e
  cases e
  exact h s hs

theorem get_bind {l : σ → EStateM ε σ β} (h : ∀ s, I s → Preserves I (l s)) :
    Preserves I ((get : EStateM ε σ σ) >>= l) := fun s b s' hs e => h s hs s b s' hs e

end Preserves

/-- From every state with `P` the program ends, with `Q` of its result and state. -/
def Ends (P : σ → Prop) (x : EStateM ε σ α) (Q : α → σ → Prop) : Prop :=
  ∀ s, P s → ∃ a s', x s = .ok a s' ∧ Q a s'

namespace Ends

variable {P : σ → Prop} {Q : α → σ → Prop} {x : EStateM ε σ α}

theorem pure {a : α} (h : ∀ s, P s → Q a s) : Ends P (pure a : EStateM ε σ α) Q :=
  fun s hs => ⟨a, s, rfl, h s hs⟩

theorem bind {k : α → EStateM ε σ β} {Q' : β → σ → Prop} (hx : Ends P x Q)
    (hk : ∀ a, Ends (Q a) (k a) Q') : Ends P (x >>= k) Q' := by
  intro s hs
  obtain ⟨a, s₁, e₁, h₁⟩ := hx s hs
  obtain ⟨b, s₂, e₂, h₂⟩ := hk a s₁ h₁
  exact ⟨b, s₂, by rw [bind_ok e₁, e₂], h₂⟩

theorem ite {c : Prop} [Decidable c] {y : EStateM ε σ α} (hx : c → Ends P x Q)
    (hy : ¬ c → Ends P y Q) : Ends P (if c then x else y) Q := by
  split
  · exact hx ‹_›
  · exact hy ‹_›

theorem modify {Q : PUnit → σ → Prop} {g : σ → σ} (h : ∀ s, P s → Q ⟨⟩ (g s)) :
    Ends P (modify g : EStateM ε σ PUnit) Q := fun s hs => ⟨⟨⟩, g s, rfl, h s hs⟩

theorem get_bind {l : σ → EStateM ε σ β} {Q : β → σ → Prop} (h : ∀ s, P s → Ends P (l s) Q) :
    Ends P ((get : EStateM ε σ σ) >>= l) Q := fun s hs => h s hs s hs

end Ends

end Exec
