import HiPerf.Lib.Exec

/-!
Two programs side by side. From related states they give the same result and
end in related states. A strict pair also stops together; in any other pair the
first program may stop where the second goes on.
-/

namespace Exec

variable {ε σ τ α β : Type} {strict : Prop} {I : σ → τ → Prop}

/-- From states related by `J`, whatever `x` does, `y` does, and under `strict`
also the other way round; the states they end in are related by `I`. -/
def Meets (strict : Prop) (J I : σ → τ → Prop) (x : EStateM ε σ α) (y : EStateM ε τ α) : Prop :=
  ∀ s t, J s t →
    (∀ a s', x s = .ok a s' → ∃ t', y t = .ok a t' ∧ I s' t') ∧
    (strict → ∀ a t', y t = .ok a t' → ∃ s', x s = .ok a s' ∧ I s' t')

/-- Program `x` is followed by program `y`: whatever `x` does, `y` does, and
under `strict` also the other way round. -/
def Lockstep (strict : Prop) (I : σ → τ → Prop) (x : EStateM ε σ α) (y : EStateM ε τ α) : Prop :=
  ∀ s t, I s t →
    (∀ a s', x s = .ok a s' → ∃ t', y t = .ok a t' ∧ I s' t') ∧
    (strict → ∀ a t', y t = .ok a t' → ∃ s', x s = .ok a s' ∧ I s' t')

theorem Meets.bind {J I' : σ → τ → Prop} {x : EStateM ε σ α} {y : EStateM ε τ α}
    {k : α → EStateM ε σ β} {l : α → EStateM ε τ β} (h : Meets strict J I x y)
    (hk : ∀ a, Meets strict I I' (k a) (l a)) : Meets strict J I' (x >>= k) (y >>= l) := by
  intro s t hst
  obtain ⟨hx, hy⟩ := h s t hst
  refine ⟨fun b s' e => ?_, fun hs b t' e => ?_⟩
  · obtain ⟨a, s₁, e₁, e₂⟩ := bind_eq_ok.mp e
    obtain ⟨t₁, e₁', h₁⟩ := hx a s₁ e₁
    obtain ⟨t', e₂', h₂⟩ := (hk a s₁ t₁ h₁).1 b s' e₂
    exact ⟨t', bind_eq_ok.mpr ⟨a, t₁, e₁', e₂'⟩, h₂⟩
  · obtain ⟨a, t₁, e₁, e₂⟩ := bind_eq_ok.mp e
    obtain ⟨s₁, e₁', h₁⟩ := hy hs a t₁ e₁
    obtain ⟨s', e₂', h₂⟩ := (hk a s₁ t₁ h₁).2 hs b t' e₂
    exact ⟨s', bind_eq_ok.mpr ⟨a, s₁, e₁', e₂'⟩, h₂⟩

/-- More may be known of the states before, and of those after from how the second program ended. -/
theorem Meets.learn {J J' I I' : σ → τ → Prop} {x : EStateM ε σ α} {y : EStateM ε τ α}
    (h : Meets strict J I x y) (hJ : ∀ s t, J' s t → J s t)
    (hI : ∀ t a s' t', y t = .ok a t' → I s' t' → I' s' t') : Meets strict J' I' x y := by
  intro s t hst
  obtain ⟨hx, hy⟩ := h s t (hJ s t hst)
  refine ⟨fun a s' e => ?_, fun hs a t' e => ?_⟩
  · obtain ⟨t', e', h'⟩ := hx a s' e
    exact ⟨t', e', hI t a s' t' e' h'⟩
  · obtain ⟨s', e', h'⟩ := hy hs a t' e
    exact ⟨s', e', hI t a s' t' e h'⟩

/-- Both programs of a strict pair end, or both stop. -/
theorem Meets.cases {J : σ → τ → Prop} {x : EStateM ε σ α} {y : EStateM ε τ α}
    (h : Meets strict J I x y) (hs : strict) {s : σ} {t : τ} (hst : J s t) :
    (∃ a s' t', x s = .ok a s' ∧ y t = .ok a t' ∧ I s' t') ∨
      ∃ e s' e' t', x s = .error e s' ∧ y t = .error e' t' := by
  obtain ⟨hx, hy⟩ := h s t hst
  cases ex : x s with
  | ok a s' =>
    obtain ⟨t', ey, h'⟩ := hx a s' ex
    exact .inl ⟨a, s', t', rfl, ey, h'⟩
  | error e s' =>
    cases ey : y t with
    | ok a t' =>
      obtain ⟨s₁, e₁, -⟩ := hy hs a t' ey
      rw [ex] at e₁
      cases e₁
    | error e' t' => exact .inr ⟨e, s', e', t', rfl, rfl⟩

/-- Two runs that both stop are alike, however they stop. -/
theorem both_stop {r : EStateM.Result ε σ α} {r' : EStateM.Result ε τ α} {e e' : ε} {s : σ} {t : τ}
    (h : r = .error e s) (h' : r' = .error e' t) :
    (∀ a s', r = .ok a s' → ∃ t', r' = .ok a t' ∧ I s' t') ∧
    (strict → ∀ a t', r' = .ok a t' → ∃ s', r = .ok a s' ∧ I s' t') := by
  subst h h'
  constructor
  · intro a s' e
    cases e
  · intro hs a t' e
    cases e

theorem Meets.ite {J : σ → τ → Prop} {c c' : Prop} [Decidable c] [Decidable c'] {x x' : EStateM ε σ α}
    {y y' : EStateM ε τ α} (hc : c ↔ c') (h : c → Meets strict J I x y)
    (h' : ¬ c → Meets strict J I x' y') :
    Meets strict J I (if c then x else x') (if c' then y else y') := by
  by_cases e : c
  · rw [if_pos e, if_pos (hc.mp e)]; exact h e
  · rw [if_neg e, if_neg (mt hc.mpr e)]; exact h' e

/-- What follows a stop does not matter. -/
theorem Meets.throw_bind {J : σ → τ → Prop} (e e' : ε) (k : β → EStateM ε σ α)
    (l : β → EStateM ε τ α) : Meets strict J I (throw e >>= k) (throw e' >>= l) :=
  fun _ _ _ => both_stop rfl rfl

/-- Both programs end, with the same result and related states, or both stop. -/
theorem Meets.of_cases {J : σ → τ → Prop} {x : EStateM ε σ α} {y : EStateM ε τ α}
    (h : ∀ s t, J s t → (∃ a s' t', x s = .ok a s' ∧ y t = .ok a t' ∧ I s' t') ∨
      (∃ e s' e' t', x s = .error e s' ∧ y t = .error e' t')) : Meets strict J I x y := by
  intro s t hst
  obtain ⟨a, s', t', ex, ey, h'⟩ | ⟨_, s', _, t', ex, ey⟩ := h s t hst
  · refine ⟨fun b s₁ e => ?_, fun _ b t₁ e => ?_⟩
    · rw [ex] at e; cases e; exact ⟨t', ey, h'⟩
    · rw [ey] at e; cases e; exact ⟨s', ex, h'⟩
  · exact both_stop ex ey

namespace Lockstep

theorem of_cases {x : EStateM ε σ α} {y : EStateM ε τ α}
    (h : ∀ s t, I s t → (∃ a s' t', x s = .ok a s' ∧ y t = .ok a t' ∧ I s' t') ∨
      (∃ e s' e' t', x s = .error e s' ∧ y t = .error e' t')) : Lockstep strict I x y :=
  Meets.of_cases h

theorem pure (a : α) : Lockstep strict I (pure a : EStateM ε σ α) (pure a) :=
  of_cases fun s t h => .inl ⟨a, s, t, rfl, rfl, h⟩

theorem throw (e e' : ε) : Lockstep strict I (throw e : EStateM ε σ α) (throw e') :=
  of_cases fun s t _ => .inr ⟨e, s, e', t, rfl, rfl⟩

theorem bind {x : EStateM ε σ α} {y : EStateM ε τ α} {k : α → EStateM ε σ β}
    {l : α → EStateM ε τ β} (h : Lockstep strict I x y) (hk : ∀ a, Lockstep strict I (k a) (l a)) :
    Lockstep strict I (x >>= k) (y >>= l) := Meets.bind h hk

theorem ite {c c' : Prop} [Decidable c] [Decidable c'] {x x' : EStateM ε σ α}
    {y y' : EStateM ε τ α} (hc : c ↔ c') (h : c → Lockstep strict I x y)
    (h' : ¬ c → Lockstep strict I x' y') :
    Lockstep strict I (if c then x else x') (if c' then y else y') := by
  by_cases e : c
  · rw [if_pos e, if_pos (hc.mp e)]; exact h e
  · rw [if_neg e, if_neg (mt hc.mpr e)]; exact h' e

theorem modify {g : σ → σ} {g' : τ → τ} (h : ∀ s t, I s t → I (g s) (g' t)) :
    Lockstep strict I (modify g : EStateM ε σ PUnit) (modify g') :=
  of_cases fun s t hst => .inl ⟨⟨⟩, g s, g' t, rfl, rfl, h s t hst⟩

/-- Both programs may use the states they read, knowing these are related. -/
theorem get_bind {k : σ → EStateM ε σ β} {l : τ → EStateM ε τ β}
    (h : ∀ s t, I s t → Lockstep strict I (k s) (l t)) :
    Lockstep strict I ((get : EStateM ε σ σ) >>= k) ((get : EStateM ε τ τ) >>= l) :=
  fun s t hst => h s t hst s t hst

theorem runAll {ι κ : Type} {step : ι → EStateM ε σ PUnit} {step' : κ → EStateM ε τ PUnit}
    {f : ι → List κ} (h : ∀ i, Lockstep strict I (step i) (Exec.runAll step' (f i))) (is : List ι) :
    Lockstep strict I (Exec.runAll step is) (Exec.runAll step' (is.flatMap f)) := by
  induction is with
  | nil => exact pure _
  | cons i is ih =>
    rw [List.flatMap_cons, runAll_append]
    exact (h i).bind fun _ => ih

theorem each {ι : Type} {step : ι → EStateM ε σ PUnit} {step' : ι → EStateM ε τ PUnit}
    (h : ∀ i, Lockstep strict I (step i) (step' i)) (is : List ι) :
    Lockstep strict I (Exec.runAll step is) (Exec.runAll step' is) := by
  induction is with
  | nil => exact pure _
  | cons i is ih => exact (h i).bind fun _ => ih

/-- It does not matter what the first program does in unrelated states. -/
theorem congr_left {x x' : EStateM ε σ α} {y : EStateM ε τ α} (h : Lockstep strict I x y)
    (hx : ∀ s t, I s t → x' s = x s) : Lockstep strict I x' y := by
  intro s t hst
  rw [hx s t hst]
  exact h s t hst

/-- What the first program reaches, the second reaches too. -/
theorem forth {x : EStateM ε σ α} {y : EStateM ε τ α} (h : Lockstep strict I x y) {s s' : σ} {t : τ}
    (hst : I s t) {a : α} (e : x s = .ok a s') : ∃ t', y t = .ok a t' ∧ I s' t' :=
  (h s t hst).1 a s' e

theorem back {x : EStateM ε σ α} {y : EStateM ε τ α} (h : Lockstep strict I x y) (hs : strict)
    {s : σ} {t t' : τ} (hst : I s t) {a : α} (e : y t = .ok a t') :
    ∃ s', x s = .ok a s' ∧ I s' t' :=
  (h s t hst).2 hs a t' e

end Lockstep

end Exec
