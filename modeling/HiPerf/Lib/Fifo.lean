import Mathlib.Data.List.Basic
import Mathlib.Data.List.Nodup

/-!
Intrusive lists: cells linked through their own `next` and `prev` fields, with
a sentinel for the absent cell. `IsChain` is what following `next` visits;
`IsFifo` is a queue with both ends and both directions. The update rules say
what a push at the tail and a removal anywhere must write.
-/

namespace Fifo

variable {α : Type} {nil : α} {next next' prev prev' : α → α}

/-- Following `next` from `h` visits exactly `l` and stops at `nil`. -/
def IsChain (nil : α) (next : α → α) : α → List α → Prop
  | h, [] => h = nil
  | h, s :: l => h = s ∧ s ≠ nil ∧ IsChain nil next (next s) l

/-- A chain is determined by its first cell. -/
theorem IsChain.unique {h : α} {l l' : List α} (hc : IsChain nil next h l)
    (hc' : IsChain nil next h l') : l = l' := by
  induction l generalizing h l' with
  | nil =>
    cases l' with
    | nil => rfl
    | cons s l' => exact absurd (hc'.1.symm.trans hc) hc'.2.1
  | cons s l ih =>
    cases l' with
    | nil => exact absurd (hc.1.symm.trans hc') hc.2.1
    | cons s' l' =>
      obtain ⟨rfl, _, hl⟩ := hc
      obtain ⟨rfl, _, hl'⟩ := hc'
      rw [ih hl hl']

theorem IsChain.congr {h : α} {l : List α} (hc : IsChain nil next h l)
    (hn : ∀ s ∈ l, next' s = next s) : IsChain nil next' h l := by
  induction l generalizing h with
  | nil => exact hc
  | cons s l ih =>
    obtain ⟨rfl, hs, hl⟩ := hc
    refine ⟨rfl, hs, ?_⟩
    rw [hn h List.mem_cons_self]
    exact ih hl fun x hx => hn x (List.mem_cons_of_mem _ hx)

theorem IsChain.eq_nil_iff {h : α} {l : List α} (hc : IsChain nil next h l) :
    h = nil ↔ l = [] := by
  cases l with
  | nil => exact ⟨fun _ => rfl, fun _ => hc⟩
  | cons s l => exact ⟨fun e => absurd (hc.1.symm.trans e) hc.2.1, fun e => by cases e⟩

theorem IsChain.push {h s : α} {l : List α} (hc : IsChain nil next h l) (hs : s ≠ nil)
    (hn : ∀ x ∈ l, next' x = next x) (hh : next' s = h) :
    IsChain nil next' s (s :: l) :=
  ⟨rfl, hs, hh ▸ hc.congr hn⟩

/-- Only the last cell of a chain links to `nil`. -/
theorem IsChain.next_eq_nil {h : α} {l : List α} (hc : IsChain nil next h l)
    {x y : α} (hx : x ∈ l) (hy : y ∈ l) (hxn : next x = nil) (hyn : next y = nil) : x = y := by
  induction l generalizing h with
  | nil => cases hx
  | cons s l ih =>
    obtain ⟨rfl, _, hl⟩ := hc
    have stop : ∀ z ∈ l, next h ≠ nil := by
      intro z hz e
      rw [hl.eq_nil_iff.mp e] at hz
      cases hz
    rcases List.mem_cons.mp hx with rfl | hx'
    · rcases List.mem_cons.mp hy with rfl | hy'
      · rfl
      · exact absurd hxn (stop y hy')
    · rcases List.mem_cons.mp hy with rfl | hy'
      · exact absurd hyn (stop x hx')
      · exact ih hl hx' hy'

/-- Follow `next` from `h` for at most `n` cells. -/
def walk [DecidableEq α] (nil : α) (next : α → α) : Nat → α → List α
  | 0, _ => []
  | n + 1, h => if h = nil then [] else h :: walk nil next n (next h)

theorem IsChain.walk_eq [DecidableEq α] {h : α} {l : List α} (hc : IsChain nil next h l) {n : Nat}
    (hn : l.length ≤ n) : walk nil next n h = l := by
  induction l generalizing h n with
  | nil =>
    cases n with
    | zero => rfl
    | succ n => exact if_pos hc
  | cons s l ih =>
    obtain ⟨rfl, hs, hl⟩ := hc
    cases n with
    | zero => simp at hn
    | succ n =>
      rw [walk, if_neg hs, ih hl (by simpa using hn)]

theorem nil_not_mem_walk [DecidableEq α] (n : Nat) (h : α) : nil ∉ walk nil next n h := by
  induction n generalizing h with
  | zero => simp [walk]
  | succ n ih =>
    rw [walk]
    split
    · simp
    · rename_i hne
      simp [ih, Ne.symm hne]

/-- `l` is the queue from `head` to `tail`, each cell linked to the cell after
it and to the cell before it. -/
structure IsFifo (nil : α) (next prev : α → α) (head tail : α) (l : List α) : Prop where
  nil_not_mem : nil ∉ l
  head_eq : head = l.headD nil
  tail_eq : tail = l.getLastD nil
  link : ∀ a s c, l = a ++ s :: c → next s = c.headD nil ∧ prev s = a.getLastD nil

namespace IsFifo

variable {head tail : α} {l : List α}

theorem empty : IsFifo nil next prev nil nil [] :=
  ⟨by simp, rfl, rfl, by simp⟩

theorem congr (h : IsFifo nil next prev head tail l)
    (hn : ∀ s ∈ l, next' s = next s) (hp : ∀ s ∈ l, prev' s = prev s) :
    IsFifo nil next' prev' head tail l where
  nil_not_mem := h.nil_not_mem
  head_eq := h.head_eq
  tail_eq := h.tail_eq
  link a s c e := by
    have hs : s ∈ l := by simp [e]
    rw [hn s hs, hp s hs]
    exact h.link a s c e

theorem ne_nil (h : IsFifo nil next prev head tail l) {s : α} (hs : s ∈ l) : s ≠ nil :=
  fun e => h.nil_not_mem (e ▸ hs)

theorem head_eq_nil_iff (h : IsFifo nil next prev head tail l) : head = nil ↔ l = [] := by
  rw [h.head_eq]
  cases l with
  | nil => simp
  | cons s l => simpa using h.ne_nil List.mem_cons_self

theorem tail_eq_nil_iff (h : IsFifo nil next prev head tail l) : tail = nil ↔ l = [] := by
  rw [h.tail_eq]
  rcases List.eq_nil_or_concat l with rfl | ⟨a, s, rfl⟩
  · simp
  · simpa using h.ne_nil (s := s) (by simp)

theorem tail_mem (h : IsFifo nil next prev head tail l) (ht : tail ≠ nil) : tail ∈ l := by
  rcases List.eq_nil_or_concat l with rfl | ⟨a, s, rfl⟩
  · exact absurd h.tail_eq ht
  · rw [h.tail_eq]; simp

/-- The tail has no successor. -/
theorem tail_next (h : IsFifo nil next prev head tail l) (ht : tail ≠ nil) : next tail = nil := by
  rcases List.eq_nil_or_concat l with rfl | ⟨a, s, rfl⟩
  · exact absurd h.tail_eq ht
  · rw [show tail = s by rw [h.tail_eq]; simp]
    exact (h.link a s [] (by simp)).1

theorem next_mem (h : IsFifo nil next prev head tail l) {s : α} (hs : s ∈ l)
    (hn : next s ≠ nil) : next s ∈ l := by
  obtain ⟨a, c, rfl⟩ := List.append_of_mem hs
  have e := (h.link a s c rfl).1
  cases c with
  | nil => exact absurd e hn
  | cons x c => rw [e]; simp

theorem prev_mem (h : IsFifo nil next prev head tail l) {s : α} (hs : s ∈ l)
    (hp : prev s ≠ nil) : prev s ∈ l := by
  obtain ⟨a, c, rfl⟩ := List.append_of_mem hs
  have e := (h.link a s c rfl).2
  rcases List.eq_nil_or_concat a with rfl | ⟨a, x, rfl⟩
  · exact absurd e hp
  · rw [e]; simp

/-- Every suffix of a queue is a chain from its first cell. -/
theorem chain_suffix (h : IsFifo nil next prev head tail l) (a c : List α) (e : l = a ++ c) :
    IsChain nil next (c.headD nil) c := by
  induction c generalizing a with
  | nil => rfl
  | cons s c ih =>
    refine ⟨rfl, h.ne_nil (by simp [e]), ?_⟩
    rw [(h.link a s c e).1]
    exact ih (a ++ [s]) (by simp [e])

theorem chain (h : IsFifo nil next prev head tail l) : IsChain nil next head l := by
  rw [h.head_eq]
  exact h.chain_suffix [] l rfl

/-- The cell before the removed one is the last of `a`, never one of `c`. -/
theorem not_mem_of_getLastD {a c : List α} {s y : α} (hnodup : (a ++ s :: c).Nodup)
    (hnil : nil ∉ a ++ s :: c) (hy : y ∈ c) : y ≠ a.getLastD nil := by
  rintro rfl
  rcases List.eq_nil_or_concat a with rfl | ⟨a, z, rfl⟩
  · exact hnil (by simp [show nil ∈ c from hy])
  · rw [List.concat_eq_append, List.getLastD_concat] at hy
    exact (List.nodup_append.mp hnodup).2.2 z (by simp) z (List.mem_cons_of_mem _ hy) rfl

/-- The cell after the removed one is the first of `c`, never one of `a`. -/
theorem not_mem_of_headD {a c : List α} {s y : α} (hnodup : (a ++ s :: c).Nodup)
    (hnil : nil ∉ a ++ s :: c) (hy : y ∈ a) : y ≠ c.headD nil := by
  rintro rfl
  cases c with
  | nil => exact hnil (List.mem_append_left _ hy)
  | cons z c => exact (List.nodup_append.mp hnodup).2.2 z hy z (by simp) rfl

variable [DecidableEq α]

/-- Adding a cell behind the tail: the new cell links back to the old tail,
and the old tail, if there is one, links to it. -/
theorem push (h : IsFifo nil next prev head tail l) (hnodup : l.Nodup) {s : α} (hs : s ≠ nil)
    (hns : next' s = nil) (hps : prev' s = tail)
    (hn : ∀ x ∈ l, next' x = if x = tail then s else next x) (hp : ∀ x ∈ l, prev' x = prev x) :
    IsFifo nil next' prev' (if tail = nil then s else head) s (l ++ [s]) where
  nil_not_mem := by simp [h.nil_not_mem, hs.symm]
  head_eq := by
    by_cases ht : tail = nil
    · simp [ht, h.tail_eq_nil_iff.mp ht]
    · have hne : l ≠ [] := fun e => ht (h.tail_eq_nil_iff.mpr e)
      cases l with
      | nil => exact absurd rfl hne
      | cons x l => simpa [ht] using h.head_eq
  tail_eq := by simp
  link a x c e := by
    rcases List.eq_nil_or_concat c with rfl | ⟨c, y, rfl⟩
    · obtain ⟨rfl, e'⟩ := List.append_inj' e rfl
      obtain rfl : s = x := by simpa using e'
      exact ⟨hns, hps.trans h.tail_eq⟩
    · have e' : l ++ [s] = (a ++ x :: c) ++ [y] := by simpa using e
      obtain ⟨rfl, ey⟩ := List.append_inj' e' rfl
      obtain rfl : s = y := by simpa using ey
      obtain ⟨hnx, hpx⟩ := h.link a x c rfl
      refine ⟨?_, (hp x (by simp)).trans hpx⟩
      rw [hn x (by simp)]
      rcases List.eq_nil_or_concat c with rfl | ⟨c, z, rfl⟩
      · simp [h.tail_eq]
      · -- `x` is not the last cell, so it is not the tail
        have htz : tail = z := by
          have ez : a ++ x :: (c ++ [z]) = (a ++ x :: c) ++ [z] := by simp
          rw [h.tail_eq, List.concat_eq_append, ez, List.getLastD_concat]
        have hxz : x ≠ z := by
          rintro rfl
          simp [List.nodup_append] at hnodup
        rw [htz, if_neg hxz, hnx]
        cases c <;> simp

/-- Taking a cell out from anywhere: its neighbours, or the ends of the
queue where it has none, are joined past it. -/
theorem remove {a c : List α} {s : α} (h : IsFifo nil next prev head tail (a ++ s :: c))
    (hnodup : (a ++ s :: c).Nodup)
    (hn : ∀ x ∈ a ++ c, next' x = if x = prev s then next s else next x)
    (hp : ∀ x ∈ a ++ c, prev' x = if x = next s then prev s else prev x) :
    IsFifo nil next' prev' (if head = s then next s else head)
      (if tail = s then prev s else tail) (a ++ c) := by
  obtain ⟨hns, hps⟩ := h.link a s c rfl
  have hsac : s ∉ a ++ c := by
    intro hm
    rcases List.mem_append.mp hm with hm | hm
    · exact (List.nodup_append.mp hnodup).2.2 s hm s (by simp) rfl
    · exact (List.nodup_cons.mp (List.nodup_append.mp hnodup).2.1).1 hm
  refine ⟨?_, ?_, ?_, ?_⟩
  · intro hm
    exact h.nil_not_mem (by simp only [List.mem_append, List.mem_cons] at hm ⊢; tauto)
  · rw [hns, h.head_eq]
    cases a with
    | nil => simp
    | cons x a =>
      have : x ≠ s := fun e => hsac (by simp [e])
      simp [this]
  · rw [hps, h.tail_eq]
    rcases List.eq_nil_or_concat c with rfl | ⟨c, x, rfl⟩
    · simp
    · have hx : x ≠ s := fun e => hsac (by simp [e])
      have e₁ : a ++ s :: (c ++ [x]) = (a ++ s :: c) ++ [x] := by simp
      have e₂ : a ++ (c ++ [x]) = (a ++ c) ++ [x] := by simp
      rw [List.concat_eq_append, e₁, e₂, List.getLastD_concat, List.getLastD_concat, if_neg hx]
  · intro x y z e
    have hy : y ∈ a ++ c := by simp [e]
    rw [hn y hy, hp y hy, hns, hps]
    have after : ∀ a' : List α, x = a ++ a' → c = a' ++ y :: z →
        (if y = a.getLastD nil then c.headD nil else next y) = z.headD nil ∧
        (if y = c.headD nil then a.getLastD nil else prev y) = x.getLastD nil := by
      rintro a' rfl rfl
      obtain ⟨hny, hpy⟩ := h.link (a ++ s :: a') y z (by simp)
      have hya := not_mem_of_getLastD hnodup h.nil_not_mem (y := y) (by simp)
      refine ⟨by rw [if_neg hya, hny], ?_⟩
      rcases List.eq_nil_or_concat a' with rfl | ⟨a', w, rfl⟩
      · simp
      · have hyw : y ≠ ((a'.concat w) ++ y :: z).headD nil := by
          intro e
          have hc := (List.nodup_cons.mp (List.nodup_append.mp hnodup).2.1).2
          have hd := (List.nodup_append.mp hc).2.2
          cases a' with
          | nil => exact hd w (by simp) y (by simp) (by simpa using e.symm)
          | cons v a' => exact hd v (by simp) y (by simp) (by simpa using e.symm)
        have e₁ : a ++ s :: (a' ++ [w]) = (a ++ s :: a') ++ [w] := by simp
        have e₂ : a ++ (a' ++ [w]) = (a ++ a') ++ [w] := by simp
        rw [if_neg hyw, hpy, List.concat_eq_append, e₁, e₂, List.getLastD_concat,
          List.getLastD_concat]
    rcases List.append_eq_append_iff.mp e with ⟨a', ex, ec⟩ | ⟨c', ea, eyz⟩
    · exact after a' ex ec
    · cases c' with
      | nil => exact after [] (by simpa using ea.symm) (by simpa using eyz.symm)
      | cons w c' =>
        -- `y` stands before the removed cell
        obtain ⟨rfl, rfl⟩ : y = w ∧ z = c' ++ c := by simpa using eyz
        obtain ⟨hny, hpy⟩ := h.link x y (c' ++ s :: c) (by simp [ea])
        have hyc := not_mem_of_headD hnodup h.nil_not_mem (y := y) (by simp [ea])
        refine ⟨?_, by rw [if_neg hyc, hpy]⟩
        subst ea
        rcases List.eq_nil_or_concat c' with rfl | ⟨c', v, rfl⟩
        · simp
        · have hyv : y ≠ v := by
            rintro rfl
            simp [List.nodup_append] at hnodup
          have e₁ : x ++ y :: (c' ++ [v]) = (x ++ y :: c') ++ [v] := by simp
          rw [List.concat_eq_append, e₁, List.getLastD_concat, if_neg hyv, hny]
          cases c' <;> simp

end IsFifo

end Fifo
