import HiPerf.Journal.Model
import HiPerf.Lib.Latest
import Mathlib.Tactic.Positivity
import Mathlib.Tactic.Ring

/-!
What `join` makes of two runs: every cell stands in exactly one of its lists,
and which verdict a cell gets in either direction.
-/

namespace HiPerf.Journal

open Std Latest

variable {lines A B : List ResultLine} {t : Threshold} {k : CellKey} {a b line : ResultLine}

/-- The line a run has for a cell. -/
def lineFor (lines : List ResultLine) (k : CellKey) : Option ResultLine :=
  last ResultLine.isPlaceholder ResultLine.cellKey lines k

/-- The cells that both runs have a line for, as `join` lists them. -/
def JoinResult.sharedKeys (j : JoinResult) : List CellKey := j.shared.map Comparison.key

theorem index_get (lines : List ResultLine) (k : CellKey) : (index lines)[k]? = lineFor lines k := by
  have h := @collect_get _ _ _ _ ResultLine.isPlaceholder ResultLine.cellKey k _ _ _ id lines
  rw [Option.map_id] at h
  exact h

theorem lineFor_value (h : lineFor lines k = some line) : line.value ≠ 0 := by
  obtain ⟨-, hkept, -⟩ := last_mem h
  intro h0
  simp [ResultLine.isPlaceholder, h0] at hkept

theorem mem_index : (k, line) ∈ (index lines).toList ↔ lineFor lines k = some line := by
  rw [ExtTreeMap.mem_toList_iff_getElem?_eq_some, index_get]

theorem contains_index : (index lines).contains k = (lineFor lines k).isSome := by
  rw [ExtTreeMap.contains_eq_isSome_getElem?, index_get]

theorem mem_shared {c : Comparison} : c ∈ (join A B t).shared ↔
    ∃ k a b, lineFor A k = some a ∧ lineFor B k = some b ∧ c = compareCell k a b t := by
  simp only [join, List.mem_filterMap, Prod.exists, index_get, Option.map_eq_some_iff]
  constructor
  · rintro ⟨k, a, ha, b, hb, rfl⟩
    exact ⟨k, a, b, mem_index.mp ha, hb, rfl⟩
  · rintro ⟨k, a, b, ha, hb, rfl⟩
    exact ⟨k, a, mem_index.mpr ha, b, hb, rfl⟩

theorem mem_sharedKeys : k ∈ (join A B t).sharedKeys ↔
    (lineFor A k).isSome ∧ (lineFor B k).isSome := by
  simp only [JoinResult.sharedKeys, List.mem_map, mem_shared, Option.isSome_iff_exists]
  constructor
  · rintro ⟨_, ⟨k, a, b, ha, hb, rfl⟩, rfl⟩
    exact ⟨⟨a, ha⟩, ⟨b, hb⟩⟩
  · rintro ⟨⟨a, ha⟩, ⟨b, hb⟩⟩
    exact ⟨_, ⟨k, a, b, ha, hb, rfl⟩, rfl⟩

theorem mem_removed : k ∈ (join A B t).removed ↔
    (lineFor A k).isSome ∧ ¬ (lineFor B k).isSome := by
  simp only [join, List.mem_filterMap, Prod.exists, mem_index, Option.isSome_iff_exists (x := lineFor A k)]
  constructor
  · rintro ⟨k', a, ha, h⟩
    split at h
    · cases h
    · cases h
      exact ⟨⟨a, ha⟩, by rwa [← contains_index]⟩
  · rintro ⟨⟨a, ha⟩, hb⟩
    exact ⟨k, a, ha, if_neg (by rwa [contains_index])⟩

theorem mem_added : k ∈ (join A B t).added ↔ ¬ (lineFor A k).isSome ∧ (lineFor B k).isSome := by
  simp only [join, List.mem_filter, ExtTreeMap.mem_keys, ← ExtTreeMap.contains_iff_mem,
    contains_index, Bool.not_eq_true', Bool.not_eq_true]
  exact And.comm

theorem sharedKeys_ascending (A B : List ResultLine) (t : Threshold) :
    (join A B t).sharedKeys.Pairwise (compare · · = .lt) := by
  rw [JoinResult.sharedKeys, List.pairwise_map]
  refine (index A).ordered_keys_toList.filterMap _ ?_
  intro ⟨k, a⟩ ⟨k', a'⟩ hlt c hc c' hc'
  simp only [Option.map_eq_some_iff] at hc hc'
  obtain ⟨b, -, rfl⟩ := hc
  obtain ⟨b', -, rfl⟩ := hc'
  exact hlt

theorem removed_ascending (A B : List ResultLine) (t : Threshold) :
    (join A B t).removed.Pairwise (compare · · = .lt) := by
  refine (index A).ordered_keys_toList.filterMap _ ?_
  intro ⟨k, a⟩ ⟨k', a'⟩ hlt c hc c' hc'
  simp only at hc hc'
  split at hc
  · cases hc
  · split at hc'
    · cases hc'
    · cases hc
      cases hc'
      exact hlt

theorem added_ascending (A B : List ResultLine) (t : Threshold) :
    (join A B t).added.Pairwise (compare · · = .lt) :=
  (index B).ordered_keys.filter _

theorem cells_once (A B : List ResultLine) (t : Threshold) :
    ((join A B t).sharedKeys ++ (join A B t).removed ++ (join A B t).added).Nodup := by
  have hshared := (sharedKeys_ascending A B t).imp ne_of_ascends
  have hremoved := (removed_ascending A B t).imp ne_of_ascends
  have hadded := (added_ascending A B t).imp ne_of_ascends
  refine List.nodup_append'.mpr ⟨List.nodup_append'.mpr ⟨hshared, hremoved, ?_⟩, hadded, ?_⟩
  · intro k hs hr
    exact (mem_removed.mp hr).2 (mem_sharedKeys.mp hs).2
  · intro k hk ha
    obtain hk | hk := List.mem_append.mp hk
    · exact (mem_added.mp ha).1 (mem_sharedKeys.mp hk).1
    · exact (mem_added.mp ha).1 (mem_removed.mp hk).1

theorem compareCell_verdict : (compareCell k a b t).verdict =
    if a.value = 0 then .same
    else if t.exceeds |(b.value - a.value) / |a.value| * 100| then .same
    else if (Direction.fromUnit b.unit).effectiveLowerBetter then
      if (b.value - a.value) / |a.value| * 100 > 0 then .regression else .improvement
    else if (b.value - a.value) / |a.value| * 100 < 0 then .regression else .improvement := by
  by_cases h : a.value = 0
  · simp only [compareCell, classify, h, if_true]
  · simp only [compareCell, classify, h, if_false]

/-- A regression has moved to the worse side. -/
theorem worse_of_regression (h : (compareCell k a b t).verdict = .regression) :
    if (Direction.fromUnit b.unit).effectiveLowerBetter then a.value < b.value
    else b.value < a.value := by
  have hsign : ∀ {x y : ℚ}, 0 < y → (0 < x / y * 100 ↔ 0 < x) ∧ (x / y * 100 < 0 ↔ x < 0) := by
    intro x y hy
    have e : x / y * 100 = x * (100 / y) := by ring
    have hpos : 0 < 100 / y := by positivity
    rw [e]
    exact ⟨mul_pos_iff_of_pos_right hpos, Rat.mul_neg_iff_of_pos_right hpos⟩
  rw [compareCell_verdict] at h
  split at h
  · cases h
  · obtain ⟨hup, hdown⟩ := @hsign (b.value - a.value) _ (abs_pos.mpr ‹_›)
    split at h
    · cases h
    · split at h
      · rw [if_pos ‹_›]
        split at h
        · exact sub_pos.mp (hup.mp ‹_›)
        · cases h
      · rw [if_neg ‹_›]
        split at h
        · exact sub_neg.mp (hdown.mp ‹_›)
        · cases h

theorem regression_oneWay (hunit : b.unit = a.unit)
    (h : (compareCell k a b t).verdict = .regression) :
    (compareCell k b a t).verdict ≠ .regression := by
  intro h'
  have hworse := worse_of_regression h
  have hworse' := worse_of_regression h'
  rw [hunit] at hworse
  split at hworse
  · rw [if_pos ‹_›] at hworse'
    exact lt_asymm hworse hworse'
  · rw [if_neg ‹_›] at hworse'
    exact lt_asymm hworse hworse'

/-- An unchanged cell is only `Same` under a positive threshold. -/
theorem unchanged_same (ha : a.value ≠ 0) (hb : b.value = a.value) :
    (compareCell k a b t).verdict = .same ↔ t.exceeds 0 := by
  rw [compareCell_verdict, if_neg ha, hb, sub_self, zero_div, zero_mul, abs_zero]
  cases t.exceeds 0 <;> simp

/-- What joining two runs should give, with `t` as the threshold. -/
structure Consistent (A B : List ResultLine) (t : Threshold) : Prop where
  /-- every cell that has a line stands in one list, once -/
  once : ((join A B t).sharedKeys ++ (join A B t).removed ++ (join A B t).added).Nodup
  covers : ∀ k, k ∈ (join A B t).sharedKeys ++ (join A B t).removed ++ (join A B t).added ↔
    (lineFor A k).isSome ∨ (lineFor B k).isSome
  shared : ∀ c ∈ (join A B t).shared, ∃ a b, lineFor A c.key = some a ∧ lineFor B c.key = some b ∧
    c.a = a.value ∧ c.b = b.value ∧ c.unit = b.unit
  removed : ∀ k ∈ (join A B t).removed, lineFor B k = none
  added : ∀ k ∈ (join A B t).added, lineFor A k = none
  ascending : (join A B t).sharedKeys.Pairwise (compare · · = .lt) ∧
    (join A B t).removed.Pairwise (compare · · = .lt) ∧
    (join A B t).added.Pairwise (compare · · = .lt)
  swapped : (join B A t).added = (join A B t).removed ∧
    (join B A t).removed = (join A B t).added ∧
    (join B A t).sharedKeys = (join A B t).sharedKeys
  unchanged : ∀ c ∈ (join A B t).shared, c.a = c.b → c.verdict = .same
  oneWay : ∀ c ∈ (join A B t).shared, ∀ c' ∈ (join B A t).shared, c.key = c'.key →
    c.unit = c'.unit → c.verdict = .regression → c'.verdict ≠ .regression

/-- Joining is consistent exactly where the threshold is positive or no cell
stays as it is. -/
theorem consistent_iff (A B : List ResultLine) (t : Threshold) : Consistent A B t ↔
    t.exceeds 0 ∨ ∀ k a b, lineFor A k = some a → lineFor B k = some b → a.value ≠ b.value := by
  constructor
  · intro h
    by_cases ht : t.exceeds 0
    · exact .inl ht
    · refine .inr fun k a b ha hb heq => ht ?_
      have hsame := h.unchanged _ (mem_shared.mpr ⟨k, a, b, ha, hb, rfl⟩) heq
      exact (unchanged_same (lineFor_value ha) heq.symm).mp hsame
  · intro hcond
    refine ⟨?_, fun k => ?_, ?_, ?_, ?_, ?_, ⟨?_, ?_, ?_⟩, ?_, ?_⟩
    · exact cells_once A B t
    · simp only [List.mem_append, mem_sharedKeys, mem_removed, mem_added]
      tauto
    · intro c hc
      obtain ⟨k, a, b, ha, hb, rfl⟩ := mem_shared.mp hc
      exact ⟨a, b, ha, hb, rfl, rfl, rfl⟩
    · intro k hk
      simpa using (mem_removed.mp hk).2
    · intro k hk
      simpa using (mem_added.mp hk).1
    · exact ⟨sharedKeys_ascending A B t, removed_ascending A B t, added_ascending A B t⟩
    · refine eq_of_ascending (added_ascending B A t) (removed_ascending A B t) fun k => ?_
      rw [mem_added, mem_removed, and_comm]
    · refine eq_of_ascending (removed_ascending B A t) (added_ascending A B t) fun k => ?_
      rw [mem_added, mem_removed, and_comm]
    · refine eq_of_ascending (sharedKeys_ascending B A t) (sharedKeys_ascending A B t) fun k => ?_
      rw [mem_sharedKeys, mem_sharedKeys, and_comm]
    · intro c hc heq
      obtain ⟨k, a, b, ha, hb, rfl⟩ := mem_shared.mp hc
      obtain ht | hne := hcond
      · exact (unchanged_same (lineFor_value ha) heq.symm).mpr ht
      · exact absurd heq (hne k a b ha hb)
    · intro c hc c' hc' hkey hunit h h'
      obtain ⟨k, a, b, ha, hb, rfl⟩ := mem_shared.mp hc
      obtain ⟨k', b', a', hb', ha', rfl⟩ := mem_shared.mp hc'
      obtain rfl : k = k' := hkey
      rw [ha] at ha'
      rw [hb] at hb'
      cases ha'
      cases hb'
      exact regression_oneWay hunit h h'

/-- A run of one cell. -/
def oneCell : ResultLine := ⟨"rust", "f", "e", "m", 5, "ns", 1, none⟩

/-- At threshold 0 a cell compared with itself counts as improved. -/
theorem oneCell_improved : ¬ Consistent [oneCell] [oneCell] (.finite 0) := by
  intro h
  have hline : lineFor [oneCell] oneCell.cellKey = some oneCell := by decide
  have hsame := h.unchanged _ (mem_shared.mpr ⟨_, _, _, hline, hline, rfl⟩) rfl
  exact absurd ((unchanged_same (by decide) rfl).mp hsame) (by decide)

end HiPerf.Journal
