import Mathlib.Data.List.Nodup
import Mathlib.Data.List.Perm.Subperm
import Mathlib.Logic.Function.Basic
import Mathlib.Tactic.Common

/-!
Linear probing with deletion by backward shift. A table has `n` places in a
circle and every entry has a home; an entry stands at its home or further on.
The table is settled by a rank when every place between an entry and its home
holds an entry of lower rank. Then the entries and their ranks determine the
table, an entry of highest rank may be put at the first free place, and closing
the gap that a removed entry leaves keeps the table settled.
-/

namespace Probe

variable {α : Type} {n : Nat}

/-- How far place `p` is after place `h`. -/
def ahead (n h p : Nat) : Nat := if h ≤ p then p - h else p + n - h

/-- The place after `i`. -/
def next (n i : Nat) : Nat := if i + 1 = n then 0 else i + 1

section Ahead

variable {h i j p q : Nat}

theorem next_lt (hi : i < n) : next n i < n := by
  unfold next
  split <;> omega

theorem ahead_lt (hh : h < n) (hp : p < n) : ahead n h p < n := by
  unfold ahead
  split <;> omega

theorem ahead_self (n h : Nat) : ahead n h h = 0 := by simp [ahead]

theorem ahead_pos (hh : h < n) (hne : h ≠ p) : 0 < ahead n h p := by
  unfold ahead
  split <;> omega

theorem ahead_inj (hh : h < n) (hp : p < n) (hq : q < n) (e : ahead n h p = ahead n h q) : p = q := by
  unfold ahead at e
  split_ifs at e <;> omega

theorem ahead_next (hi : i < n) (hp : p < n) (hne : i ≠ p) : ahead n i p = ahead n (next n i) p + 1 := by
  unfold ahead next
  split_ifs <;> omega

theorem ahead_to_next (hi : i < n) (hlt : ahead n i j + 1 < n) :
    ahead n i (next n j) = ahead n i j + 1 := by
  unfold ahead next at *
  split_ifs at * <;> omega

/-- A place on the way splits the distance. -/
theorem ahead_split (hh : h < n) (hp : p < n) (hq : q < n) (hle : ahead n h q ≤ ahead n h p) :
    ahead n h p = ahead n h q + ahead n q p := by
  unfold ahead at *
  split_ifs at * <;> omega

theorem ahead_add (hh : h < n) (hq : q < n) (hlt : ahead n h q + ahead n q p < n) :
    ahead n h p = ahead n h q + ahead n q p := by
  unfold ahead at *
  split_ifs at * <;> omega

/-- Where `p` is not closer to `h` than to `q`, `q` is on the way. -/
theorem ahead_between (hh : h < n) (hp : p < n) (hq : q < n) (hle : ahead n q p ≤ ahead n h p) :
    ahead n h p = ahead n h q + ahead n q p := by
  unfold ahead at *
  split_ifs at * <;> omega

end Ahead

section Seek

/-- The first place from `i` on where `stop` holds. -/
def seek (step : Nat → Nat) (stop : Nat → Bool) : Nat → Nat → Option Nat
  | 0, _ => none
  | fuel + 1, i => if stop i then some i else seek step stop fuel (step i)

theorem seek_congr {step step' : Nat → Nat} {stop : Nat → Bool} (hlt : ∀ i < n, step i < n)
    (hstep : ∀ i < n, step i = step' i) {i : Nat} (hi : i < n) (fuel : Nat) :
    seek step stop fuel i = seek step' stop fuel i := by
  induction fuel generalizing i with
  | zero => rfl
  | succ fuel ih =>
    rw [seek, seek, ih (hlt i hi), hstep i hi]

theorem seek_stops {stop : Nat → Bool} {i p fuel : Nat} (hi : i < n) (hp : p < n)
    (hstop : stop p = true) (hfuel : ahead n i p < fuel) :
    ∃ q < n, seek (next n) stop fuel i = some q ∧ stop q = true ∧
      ∀ r < n, ahead n i r < ahead n i q → stop r = false := by
  induction fuel generalizing i with
  | zero => omega
  | succ fuel ih =>
    cases hs : stop i with
    | true =>
      refine ⟨i, hi, by rw [seek, if_pos hs], hs, fun r _ hr => ?_⟩
      rw [ahead_self] at hr
      omega
    | false =>
      have hip : i ≠ p := by
        rintro rfl
        rw [hstop] at hs
        cases hs
      have hd := ahead_next hi hp hip
      obtain ⟨q, hq, e, hsq, hmin⟩ := ih (next_lt hi) (by omega)
      refine ⟨q, hq, by rw [seek, hs]; exact e, hsq, fun r hr hlt => ?_⟩
      by_cases hir : i = r
      · rw [← hir, hs]
      · have hiq : i ≠ q := by
          rintro rfl
          rw [hsq] at hs
          cases hs
        have hdr := ahead_next hi hr hir
        have hdq := ahead_next hi hq hiq
        exact hmin r hr (by omega)

end Seek

variable {home rank : α → Nat} {T T' : Nat → Option α} {i j p q : Nat} {x y z : α}

/-- Every place between an entry and its home holds an entry of lower rank. -/
def Settled (n : Nat) (home rank : α → Nat) (T : Nat → Option α) : Prop :=
  ∀ p < n, ∀ y, T p = some y → ∀ q < n, ahead n (home y) q < ahead n (home y) p →
    ∃ z, T q = some z ∧ rank z < rank y

/-- Place `x` at `i`, or free it. -/
def place (T : Nat → Option α) (i : Nat) (o : Option α) : Nat → Option α :=
  fun p => if p = i then o else T p

theorem place_self (T : Nat → Option α) (i : Nat) (o : Option α) : place T i o i = o := if_pos rfl

theorem place_ne (T : Nat → Option α) (o : Option α) (h : p ≠ i) : place T i o p = T p := if_neg h

/-- The entries that have a place. -/
def Has (n : Nat) (T : Nat → Option α) (y : α) : Prop := ∃ p < n, T p = some y

theorem settled_empty : Settled n home rank fun _ => none := nofun

theorem Settled.mono {rank' : α → Nat} (h : Settled n home rank T)
    (hrank : ∀ z y, Has n T z → Has n T y → rank z < rank y → rank' z < rank' y) :
    Settled n home rank' T := by
  intro p hp y hy q hq hlt
  obtain ⟨z, hz, hzy⟩ := h p hp y hy q hq hlt
  exact ⟨z, hz, hrank z y ⟨q, hq, hz⟩ ⟨p, hp, hy⟩ hzy⟩

theorem Settled.injective (hhome : ∀ x, home x < n) (h : Settled n home rank T) (hp : p < n) (hq : q < n)
    (hy : T p = some y) (hy' : T q = some y) : p = q := by
  have hle : ∀ {p q}, p < n → q < n → T p = some y → T q = some y →
      ahead n (home y) q ≤ ahead n (home y) p := by
    intro p q hp hq hy hy'
    by_contra hlt
    obtain ⟨z, hz, hrank⟩ := h q hq y hy' p hp (by omega)
    rw [hy] at hz
    cases hz
    exact Nat.lt_irrefl _ hrank
  exact ahead_inj (hhome y) hp hq (Nat.le_antisymm (hle hq hp hy' hy) (hle hp hq hy hy'))

/-- A table of fewer entries than places has a free one. -/
theorem Settled.exists_free (hhome : ∀ x, home x < n) (h : Settled n home rank T) {L : List α}
    (hmem : ∀ y, Has n T y → y ∈ L) (hlen : L.length < n) : ∃ p < n, T p = none := by
  by_contra hfull
  have hsome : ∀ p < n, ∃ y, T p = some y := fun p hp =>
    Option.ne_none_iff_exists'.mp fun h0 => hfull ⟨p, hp, h0⟩
  have hnodup : ((List.range n).map T).Nodup := by
    refine List.Nodup.map_on (fun p hp q hq e => ?_) List.nodup_range
    rw [List.mem_range] at hp hq
    obtain ⟨y, hy⟩ := hsome p hp
    exact h.injective hhome hp hq hy (e ▸ hy)
  have hsub : (List.range n).map T ⊆ L.map some := by
    intro o ho
    obtain ⟨p, hp, rfl⟩ := List.mem_map.mp ho
    rw [List.mem_range] at hp
    obtain ⟨y, hy⟩ := hsome p hp
    rw [hy]
    exact List.mem_map_of_mem (hmem y ⟨p, hp, hy⟩)
  have hle := (List.subperm_of_subset hnodup hsub).length_le
  rw [List.length_map, List.length_map, List.length_range] at hle
  omega

theorem Settled.same (hhome : ∀ x, home x < n) (h : Settled n home rank T) (h' : Settled n home rank T')
    (hmem : ∀ y, Has n T y → Has n T' y)
    (hlow : ∀ z, rank z < rank y → ∀ q < n, T q = some z ↔ T' q = some z)
    (hp : p < n) (hy : T p = some y) : T' p = some y := by
  obtain ⟨p', hp', hy'⟩ := hmem y ⟨p, hp, hy⟩
  obtain hlt | heq | hgt := Nat.lt_trichotomy (ahead n (home y) p) (ahead n (home y) p')
  · obtain ⟨z, hz, hrank⟩ := h' p' hp' y hy' p hp hlt
    have hz' := (hlow z hrank p hp).mpr hz
    rw [hy] at hz'
    cases hz'
    exact absurd hrank (Nat.lt_irrefl _)
  · obtain rfl := ahead_inj (hhome y) hp hp' heq
    exact hy'
  · obtain ⟨z, hz, hrank⟩ := h p hp y hy p' hp' hgt
    have hz' := (hlow z hrank p' hp').mp hz
    rw [hy'] at hz'
    cases hz'
    exact absurd hrank (Nat.lt_irrefl _)

/-- The entries and their ranks determine the table. -/
theorem Settled.unique (hhome : ∀ x, home x < n) (h : Settled n home rank T) (h' : Settled n home rank T')
    (hmem : ∀ y, Has n T y ↔ Has n T' y) (hp : p < n) : T p = T' p := by
  have hall : ∀ m, ∀ y, rank y = m → ∀ p < n, T p = some y ↔ T' p = some y := by
    intro m
    induction m using Nat.strongRecOn with
    | ind m ih =>
      rintro y rfl p hp
      have hlow : ∀ z, rank z < rank y → ∀ q < n, T q = some z ↔ T' q = some z :=
        fun z hz => ih (rank z) hz z rfl
      exact ⟨h.same hhome h' (fun y => (hmem y).mp) hlow hp,
        h'.same hhome h (fun y => (hmem y).mpr) (fun z hz q hq => (hlow z hz q hq).symm) hp⟩
  ext y
  exact hall _ y rfl p hp

/-- An entry of highest rank goes to the first free place from its home on. -/
theorem Settled.put (h : Settled n home rank T) (hi : i < n) (hfree : T i = none)
    (hfirst : ∀ q < n, ahead n (home x) q < ahead n (home x) i → T q ≠ none)
    (hrank : ∀ z, Has n T z → rank z < rank x) : Settled n home rank (place T i (some x)) := by
  intro p hp y hy q hq hlt
  by_cases hpi : p = i
  · subst hpi
    rw [place_self] at hy
    cases hy
    obtain ⟨z, hz⟩ := Option.ne_none_iff_exists'.mp (hfirst q hq hlt)
    have hqp : q ≠ p := by
      rintro rfl
      exact Nat.lt_irrefl _ hlt
    exact ⟨z, (place_ne T _ hqp).trans hz, hrank z ⟨q, hq, hz⟩⟩
  · rw [place_ne _ _ hpi] at hy
    obtain ⟨z, hz, hzy⟩ := h p hp y hy q hq hlt
    have hqi : q ≠ i := by
      rintro rfl
      rw [hfree] at hz
      cases hz
    exact ⟨z, (place_ne T _ hqi).trans hz, hzy⟩

theorem has_put (hi : i < n) (hfree : T i = none) :
    Has n (place T i (some x)) y ↔ y = x ∨ Has n T y := by
  constructor
  · rintro ⟨p, hp, hy⟩
    by_cases hpi : p = i
    · rw [hpi, place_self] at hy
      cases hy
      exact .inl rfl
    · rw [place_ne _ _ hpi] at hy
      exact .inr ⟨p, hp, hy⟩
  · rintro (rfl | ⟨p, hp, hy⟩)
    · exact ⟨i, hi, place_self _ _ _⟩
    · have hpi : p ≠ i := by
        rintro rfl
        rw [hfree] at hy
        cases hy
      exact ⟨p, hp, (place_ne _ _ hpi).trans hy⟩

/-- Place `i` is free, and the places up to `j` are checked: an entry that has
`i` on its way is further on. -/
structure Holed (n : Nat) (home rank : α → Nat) (T : Nat → Option α) (i j : Nat) : Prop where
  hole : T i = none
  path : ∀ p < n, ∀ y, T p = some y → ∀ q < n, ahead n (home y) q < ahead n (home y) p →
    (∃ z, T q = some z ∧ rank z < rank y) ∨ (q = i ∧ ahead n i j < ahead n i p)

variable (hhome : ∀ x, home x < n)

theorem Settled.remove (h : Settled n home rank T) (hi : i < n) :
    Holed n home rank (place T i none) i i := by
  refine ⟨place_self T i none, fun p hp y hy q hq hlt => ?_⟩
  have hpi : p ≠ i := by
    rintro rfl
    rw [place_self] at hy
    cases hy
  rw [place_ne _ _ hpi] at hy
  by_cases hqi : q = i
  · rw [ahead_self]
    exact .inr ⟨hqi, ahead_pos hi (Ne.symm hpi)⟩
  · obtain ⟨z, hz, hzy⟩ := h p hp y hy q hq hlt
    exact .inl ⟨z, (place_ne T _ hqi).trans hz, hzy⟩

theorem has_move (hi : i < n) (hj : j < n) (hfree : T i = none) (hx : T j = some x) :
    Has n (place (place T i (some x)) j none) y ↔ Has n T y := by
  have hij : i ≠ j := by
    rintro rfl
    rw [hfree] at hx
    cases hx
  constructor
  · rintro ⟨p, hp, hy⟩
    by_cases hpj : p = j
    · rw [hpj, place_self] at hy
      cases hy
    rw [place_ne _ _ hpj] at hy
    by_cases hpi : p = i
    · rw [hpi, place_self] at hy
      cases hy
      exact ⟨j, hj, hx⟩
    · rw [place_ne _ _ hpi] at hy
      exact ⟨p, hp, hy⟩
  · rintro ⟨p, hp, hy⟩
    by_cases hpj : p = j
    · rw [hpj, hx] at hy
      cases hy
      exact ⟨i, hi, (place_ne _ _ hij).trans (place_self _ _ _)⟩
    · have hpi : p ≠ i := by
        rintro rfl
        rw [hfree] at hy
        cases hy
      exact ⟨p, hp, (place_ne _ _ hpj).trans ((place_ne _ _ hpi).trans hy)⟩

include hhome

theorem Settled.has_remove (h : Settled n home rank T) (hi : i < n) (hx : T i = some x) :
    Has n (place T i none) y ↔ y ≠ x ∧ Has n T y := by
  constructor
  · rintro ⟨p, hp, hy⟩
    by_cases hpi : p = i
    · rw [hpi, place_self] at hy
      cases hy
    rw [place_ne _ _ hpi] at hy
    refine ⟨?_, p, hp, hy⟩
    rintro rfl
    exact hpi (h.injective hhome hp hi hy hx)
  · rintro ⟨hne, p, hp, hy⟩
    have hpi : p ≠ i := by
      rintro rfl
      rw [hx] at hy
      cases hy
      exact hne rfl
    exact ⟨p, hp, (place_ne _ _ hpi).trans hy⟩

/-- An entry past the next place has that place on its way too. -/
theorem Holed.passes (h : Holed n home rank T i j) (hi : i < n) (hj : j < n) (hp : p < n)
    (hy : T p = some y) (hlt : ahead n (home y) i < ahead n (home y) p) (hpast : ahead n i j < ahead n i p)
    (hne : p ≠ next n j) :
    ahead n i (next n j) < ahead n i p ∧ ∃ z, T (next n j) = some z ∧ rank z < rank y := by
  have hbound := ahead_lt hi hp
  have hnext : ahead n i (next n j) = ahead n i j + 1 := ahead_to_next hi (by omega)
  have hlt' : ahead n i (next n j) < ahead n i p := by
    refine Nat.lt_of_le_of_ne (by omega) fun e => hne (ahead_inj hi hp (next_lt hj) e.symm)
  have hsplit := ahead_split (hhome y) hp hi (Nat.le_of_lt hlt)
  have hbound' := ahead_lt (hhome y) hp
  have hway : ahead n (home y) (next n j) = ahead n (home y) i + ahead n i (next n j) :=
    ahead_add (hhome y) hi (by omega)
  obtain hz | ⟨he, -⟩ := h.path p hp y hy (next n j) (next_lt hj) (by omega)
  · exact ⟨hlt', hz⟩
  · rw [he, ahead_self] at hnext
    omega

/-- At a free place the gap is closed. -/
theorem Holed.close (h : Holed n home rank T i j) (hi : i < n) (hj : j < n)
    (hfree : T (next n j) = none) : Settled n home rank T := by
  intro p hp y hy q hq hlt
  obtain hz | ⟨rfl, hpast⟩ := h.path p hp y hy q hq hlt
  · exact hz
  · have hne : p ≠ next n j := by
      rintro rfl
      rw [hfree] at hy
      cases hy
    obtain ⟨-, z, hz, -⟩ := h.passes hhome hq hj hp hy hlt hpast hne
    rw [hfree] at hz
    cases hz

/-- An entry whose home is after the gap stays. -/
theorem Holed.keep (h : Holed n home rank T i j) (hi : i < n) (hj : j < n)
    (hx : T (next n j) = some x) (hafter : ahead n (home x) (next n j) < ahead n i (next n j)) :
    Holed n home rank T i (next n j) := by
  refine ⟨h.hole, fun p hp y hy q hq hlt => ?_⟩
  obtain hz | ⟨rfl, hpast⟩ := h.path p hp y hy q hq hlt
  · exact .inl hz
  · have hne : p ≠ next n j := by
      rintro rfl
      rw [hx] at hy
      cases hy
      have hsplit := ahead_split (hhome x) hp hq (Nat.le_of_lt hlt)
      omega
    exact .inr ⟨rfl, (h.passes hhome hq hj hp hy hlt hpast hne).1⟩

/-- Any other entry moves into the gap, and leaves one behind. -/
theorem Holed.move (h : Holed n home rank T i j) (hi : i < n) (hj : j < n)
    (hx : T (next n j) = some x) (hbefore : ahead n i (next n j) ≤ ahead n (home x) (next n j)) :
    Holed n home rank (place (place T i (some x)) (next n j) none) (next n j) (next n j) := by
  have hj' := next_lt hj
  have hij : next n j ≠ i := fun e => by
    rw [e, h.hole] at hx
    cases hx
  have hpos := ahead_pos hi (Ne.symm hij)
  refine ⟨place_self _ _ none, fun p hp y hy q hq hlt => ?_⟩
  have hpj : p ≠ next n j := by
    rintro rfl
    rw [place_self] at hy
    cases hy
  rw [place_ne _ _ hpj] at hy
  by_cases hqj : q = next n j
  · rw [hqj, ahead_self]
    exact .inr ⟨rfl, ahead_pos hj' (Ne.symm hpj)⟩
  rw [place_ne _ _ hqj]
  by_cases hpi : p = i
  · -- the entry that moved: its way got shorter
    subst hpi
    rw [place_self] at hy
    cases hy
    have hsplit := ahead_between (hhome x) hj' hp hbefore
    have hqp : q ≠ p := by
      rintro rfl
      exact Nat.lt_irrefl _ hlt
    rw [place_ne _ _ hqp]
    obtain hz | ⟨he, -⟩ := h.path _ hj' x hx q hq (by omega)
    · exact .inl hz
    · exact absurd he hqp
  · rw [place_ne _ _ hpi] at hy
    obtain ⟨z, hz, hzy⟩ | ⟨rfl, hpast⟩ := h.path p hp y hy q hq hlt
    · have hqi : q ≠ i := by
        rintro rfl
        rw [h.hole] at hz
        cases hz
      rw [place_ne _ _ hqi]
      exact .inl ⟨z, hz, hzy⟩
    · -- the entry that moved stands on the way instead
      obtain ⟨-, z, hz, hzy⟩ := h.passes hhome hq hj hp hy hlt hpast hpj
      rw [hx] at hz
      cases hz
      exact .inl ⟨x, place_self _ _ _, hzy⟩

end Probe
