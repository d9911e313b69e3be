import Mathlib.Data.List.Induction

/-!
Programs that change a state and may stop part-way: `EStateM`, where a stop
keeps the state it stopped in. The rules run a program one command at a time.
-/

namespace Exec

variable {ε σ α β : Type} {s s' : σ} {e : ε}

theorem bind_ok {x : EStateM ε σ α} {a : α} (h : x s = .ok a s') (f : α → EStateM ε σ β) :
    (x >>= f) s = f a s' := by
  change EStateM.bind x f s = _
  simp [EStateM.bind, h]

theorem bind_error {x : EStateM ε σ α} (h : x s = .error e s') (f : α → EStateM ε σ β) :
    (x >>= f) s = .error e s' := by
  change EStateM.bind x f s = _
  simp [EStateM.bind, h]

/-- A program that went through went through both of its parts. -/
theorem bind_eq_ok {x : EStateM ε σ α} {f : α → EStateM ε σ β} {b : β} :
    (x >>= f) s = .ok b s' ↔ ∃ a s₁, x s = .ok a s₁ ∧ f a s₁ = .ok b s' := by
  cases h : x s with
  | ok a s₁ => simp [bind_ok h]
  | error e s₁ => simp [bind_error h]

@[simp] theorem pure_run (a : α) : (pure a : EStateM ε σ α) s = .ok a s := rfl

@[simp] theorem get_run : (get : EStateM ε σ σ) s = .ok s s := rfl

@[simp] theorem set_run (t : σ) : (set t : EStateM ε σ PUnit) s = .ok ⟨⟩ t := rfl

@[simp] theorem modify_run (f : σ → σ) : (modify f : EStateM ε σ PUnit) s = .ok ⟨⟩ (f s) := rfl

@[simp] theorem throw_run : (throw e : EStateM ε σ α) s = .error e s := rfl

@[simp] theorem ite_run (c : Prop) [Decidable c] (x y : EStateM ε σ α) :
    (if c then x else y) s = if c then x s else y s := by
  split <;> rfl

@[simp] theorem get_bind (f : σ → EStateM ε σ β) : ((get : EStateM ε σ σ) >>= f) s = f s s := rfl

@[simp] theorem modify_bind (g : σ → σ) (f : PUnit → EStateM ε σ β) :
    ((modify g : EStateM ε σ PUnit) >>= f) s = f ⟨⟩ (g s) := rfl

@[simp] theorem set_bind (t : σ) (f : PUnit → EStateM ε σ β) :
    ((set t : EStateM ε σ PUnit) >>= f) s = f ⟨⟩ t := rfl

@[simp] theorem pure_bind_run (a : α) (f : α → EStateM ε σ β) :
    ((pure a : EStateM ε σ α) >>= f) s = f a s := rfl

@[simp] theorem throw_bind (f : α → EStateM ε σ β) :
    ((throw e : EStateM ε σ α) >>= f) s = .error e s := rfl

/-- Run one command after another. -/
def runAll {ι : Type} (step : ι → EStateM ε σ PUnit) : List ι → EStateM ε σ PUnit
  | [] => pure ⟨⟩
  | i :: is => step i >>= fun _ => runAll step is

variable {ι : Type} {step : ι → EStateM ε σ PUnit}

@[simp] theorem runAll_nil : runAll step [] s = .ok ⟨⟩ s := rfl

theorem runAll_append (is js : List ι) :
    runAll step (is ++ js) = runAll step is >>= fun _ => runAll step js := by
  induction is with
  | nil => rfl
  | cons i is ih =>
    funext s
    simp only [List.cons_append, runAll, ih]
    cases h : step i s with
    | ok a s₁ => rw [bind_ok h]; simp only [bind_assoc]; rw [bind_ok h]
    | error e s₁ => rw [bind_error h]; simp only [bind_assoc]; rw [bind_error h]

theorem runAll_cons_eq_ok {i : ι} {is : List ι} :
    runAll step (i :: is) s = .ok ⟨⟩ s' ↔
      ∃ s₁, step i s = .ok ⟨⟩ s₁ ∧ runAll step is s₁ = .ok ⟨⟩ s' := by
  simp only [runAll, bind_eq_ok]
  exact ⟨fun ⟨_, s₁, h⟩ => ⟨s₁, h⟩, fun ⟨s₁, h⟩ => ⟨_, s₁, h⟩⟩

theorem runAll_append_eq_ok {is js : List ι} :
    runAll step (is ++ js) s = .ok ⟨⟩ s' ↔
      ∃ s₁, runAll step is s = .ok ⟨⟩ s₁ ∧ runAll step js s₁ = .ok ⟨⟩ s' := by
  simp only [runAll_append, bind_eq_ok]
  exact ⟨fun ⟨_, s₁, h⟩ => ⟨s₁, h⟩, fun ⟨s₁, h⟩ => ⟨_, s₁, h⟩⟩

/-- What every command keeps, a whole run keeps. -/
theorem runAll_induct {P : List ι → σ → Prop} (h0 : P [] s)
    (hstep : ∀ is i s₁ s₂, P is s₁ → step i s₁ = .ok ⟨⟩ s₂ → P (is ++ [i]) s₂)
    {is : List ι} (h : runAll step is s = .ok ⟨⟩ s') : P is s' := by
  induction is using List.reverseRecOn generalizing s' with
  | nil => cases h; exact h0
  | append_singleton is i ih =>
    obtain ⟨s₁, h₁, h₂⟩ := runAll_append_eq_ok.mp h
    obtain ⟨s₂, h₂, h₃⟩ := runAll_cons_eq_ok.mp h₂
    cases h₃
    exact hstep is i s₁ s' (ih h₁) h₂

section Runs

variable {τ : Type} {I : σ → τ → Prop} {t t₁ t₂ : τ}

/-- From every state that shows `t`, program `x` ends with `a` in a state that
shows `t'`. What a state shows is up to the relation `I`. -/
def Runs (I : σ → τ → Prop) (x : EStateM ε σ α) (t : τ) (a : α) (t' : τ) : Prop :=
  ∀ s, I s t → ∃ s', x s = .ok a s' ∧ I s' t'

theorem Runs.pure (a : α) : Runs I (pure a : EStateM ε σ α) t a t := fun s hs => ⟨s, rfl, hs⟩

theorem Runs.bind {x : EStateM ε σ α} {k : α → EStateM ε σ β} {a : α} {b : β}
    (hx : Runs I x t a t₁) (hk : Runs I (k a) t₁ b t₂) : Runs I (x >>= k) t b t₂ := by
  intro s hs
  obtain ⟨s₁, e₁, hs₁⟩ := hx s hs
  obtain ⟨s₂, e₂, hs₂⟩ := hk s₁ hs₁
  exact ⟨s₂, by rw [bind_ok e₁, e₂], hs₂⟩

theorem Runs.ite {c : Prop} [Decidable c] {x y : EStateM ε σ α} {a : α}
    (hx : c → Runs I x t a t₁) (hy : ¬ c → Runs I y t a t₁) :
    Runs I (if c then x else y) t a t₁ := by
  split
  · exact hx ‹_›
  · exact hy ‹_›

theorem Runs.modify {g : σ → σ} (h : ∀ s, I s t → I (g s) t₁) :
    Runs I (modify g : EStateM ε σ PUnit) t ⟨⟩ t₁ := fun s hs => ⟨g s, rfl, h s hs⟩

/-- The program may use the state it reads, knowing what it shows. -/
theorem Runs.get_bind {k : σ → EStateM ε σ β} {b : β}
    (hk : ∀ s, I s t → Runs I (k s) t b t₁) :
    Runs I ((get : EStateM ε σ σ) >>= k) t b t₁ := fun s hs => hk s hs s hs

theorem Runs.runAll {ι : Type} {step : ι → EStateM ε σ PUnit} {next : ι → τ → τ}
    {ok : τ → List ι → Prop}
    (hok : ∀ t i is, ok t (i :: is) → Runs I (step i) t ⟨⟩ (next i t) ∧ ok (next i t) is)
    (is : List ι) (t : τ) (h : ok t is) :
    Runs I (runAll step is) t ⟨⟩ (is.foldl (fun t i => next i t) t) := by
  induction is generalizing t with
  | nil => exact Runs.pure _
  | cons i is ih =>
    obtain ⟨h₁, h₂⟩ := hok t i is h
    exact h₁.bind (ih _ h₂)

end Runs

end Exec
