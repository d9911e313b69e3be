import HiPerf.Journal.Join

/-!
Comparing with the recorded baseline instead of the run it was taken from: the
baseline keeps the cells whose key has no `/` in it, and loses the others.
-/

namespace HiPerf.Journal

open Std Latest

variable {A A' B : List ResultLine} {t : Threshold} {k k' : CellKey} {line : ResultLine}
  {runId key : String} {cell : BaselineCell}

/-- Only the values that the first run has for its cells reach the comparison. -/
theorem join_congr (h : ∀ k, (lineFor A k).map ResultLine.value = (lineFor A' k).map ResultLine.value) :
    join A B t = join A' B t := by
  have hmap : (index A).map (fun _ line => line.value) = (index A').map fun _ line => line.value := by
    refine ExtTreeMap.ext_getElem? fun k => ?_
    rw [ExtTreeMap.getElem?_map, ExtTreeMap.getElem?_map, index_get, index_get]
    exact h k
  have hlist := congrArg ExtTreeMap.toList hmap
  simp only [ExtTreeMap.toList_map] at hlist
  have hcontains : ∀ key, (index A).contains key = (index A').contains key := by
    intro key
    rw [contains_index, contains_index, ← Option.isSome_map (f := ResultLine.value), h,
      Option.isSome_map]
  have hshared := congrArg (List.filterMap fun p : CellKey × ℚ =>
    (index B)[p.1]?.map fun bLine => compareCell p.1 ⟨"", "", "", "", p.2, "", 0, none⟩ bLine t) hlist
  have hremoved := congrArg (List.filterMap fun p : CellKey × ℚ =>
    if (index B).contains p.1 then none else some p.1) hlist
  simp only [List.filterMap_map] at hshared hremoved
  rw [join, join, JoinResult.mk.injEq]
  refine ⟨hshared, ?_, hremoved⟩
  congr 1
  funext key
  rw [hcontains]

theorem not_mem_of_mem_splitOn {α : Type} [BEq α] [LawfulBEq α] {x : α} {l part : List α} (h : part ∈ l.splitOn x) : x ∉ part := by
  induction l generalizing part with
  | nil =>
    rw [List.splitOn_nil, List.mem_singleton] at h
    rw [h]
    exact List.not_mem_nil
  | cons y l ih =>
    rw [List.splitOn_cons_eq_if_modifyHead] at h
    split at h
    · obtain rfl | h := List.mem_cons.mp h
      · exact List.not_mem_nil
      · exact ih h
    · cases hs : l.splitOn x with
      | nil => exact absurd hs (List.splitOn_ne_nil x l)
      | cons first rest =>
        rw [hs, List.modifyHead_cons] at h
        obtain rfl | h := List.mem_cons.mp h
        · rintro (_ | ⟨_, hmem⟩)
          · simp at *
          · exact ih (hs ▸ List.mem_cons_self) hmem
        · exact ih (hs ▸ List.mem_cons_of_mem _ h)

namespace CellKey

def parts (k : CellKey) : List String := [k.focusArea, k.experiment, k.language, k.metric]

/-- No part of the key has the separator in it. -/
def Plain (k : CellKey) : Prop := ∀ part ∈ k.parts, '/' ∉ part.toList

instance : DecidablePred Plain := fun k =>
  inferInstanceAs (Decidable (∀ part ∈ k.parts, '/' ∉ part.toList))

theorem toString_toList (k : CellKey) :
    k.toString.toList = ['/'].intercalate (k.parts.map String.toList) := by
  simp [CellKey.toString, parts, List.intercalate]

/-- The text of a key tells whether it is plain. -/
theorem plain_iff : k.Plain ↔ k.toString.toList.count '/' = 3 := by
  have h : k.toString.toList.count '/' = 3 + (k.focusArea.toList.count '/' +
      k.experiment.toList.count '/' + k.language.toList.count '/' + k.metric.toList.count '/') := by
    have hslash : "/".toList.count '/' = 1 := by decide
    simp only [CellKey.toString, String.toList_append, List.count_append, hslash]
    omega
  simp only [Plain, parts, List.forall_mem_cons, ← List.count_eq_zero]
  simp
  omega

theorem split_toString (h : k.Plain) :
    (k.toString.toList.splitOn '/').map String.ofList = k.parts := by
  have hparts : ∀ part ∈ k.parts.map String.toList, '/' ∉ part := by
    intro part hpart
    obtain ⟨s, hs, rfl⟩ := List.mem_map.mp hpart
    exact h s hs
  rw [toString_toList, List.splitOn_intercalate _ hparts (by simp [parts])]
  simp

theorem toString_inj (h : k.Plain) : k'.toString = k.toString ↔ k' = k := by
  refine ⟨fun e => ?_, fun e => by rw [e]⟩
  have h' : k'.Plain := plain_iff.mpr (e ▸ plain_iff.mp h)
  have hparts := split_toString h'
  rw [e, split_toString h] at hparts
  simp only [parts, List.cons.injEq, and_true] at hparts
  exact CellKey.ext hparts.1.symm hparts.2.1.symm hparts.2.2.1.symm hparts.2.2.2.symm

end CellKey

/-- What a baseline cell is read back as. -/
def BaselineCell.readAs (cell : BaselineCell) (k : CellKey) : ResultLine where
  language := k.language
  focusArea := k.focusArea
  experiment := k.experiment
  metric := k.metric
  value := cell.value
  unit := cell.unit
  samples := 0
  notes := none

theorem lineOf_toString (h : k.Plain) : lineOf k.toString cell = some (cell.readAs k) := by
  rw [lineOf, CellKey.split_toString h]
  rfl

theorem lineOf_eq_some (h : lineOf key cell = some line) :
    ∃ k : CellKey, k.Plain ∧ key = k.toString ∧ line = cell.readAs k := by
  rw [lineOf] at h
  split at h
  case h_2 => cases h
  case h_1 focusArea experiment language metric hparts =>
    cases h
    refine ⟨⟨focusArea, experiment, language, metric⟩, fun part hpart => ?_, ?_, rfl⟩
    · change part ∈ [_, _, _, _] at hpart
      rw [← hparts] at hpart
      obtain ⟨p, hp, rfl⟩ := List.mem_map.mp hpart
      rw [String.toList_ofList]
      exact not_mem_of_mem_splitOn hp
    · refine String.toList_injective ?_
      rw [CellKey.toString_toList, CellKey.parts, ← hparts]
      simp [Function.comp_def]

theorem mem_baselineToLines {base : ExtTreeMap String BaselineCell} :
    line ∈ baselineToLines base ↔
      ∃ (k : CellKey) (cell : BaselineCell), k.Plain ∧ base[k.toString]? = some cell ∧ line = cell.readAs k := by
  simp only [baselineToLines, List.mem_filterMap, Prod.exists,
    ExtTreeMap.mem_toList_iff_getElem?_eq_some]
  constructor
  · rintro ⟨key, cell, hget, h⟩
    obtain ⟨k, hplain, rfl, rfl⟩ := lineOf_eq_some h
    exact ⟨k, cell, hplain, hget, rfl⟩
  · rintro ⟨k, cell, hplain, hget, rfl⟩
    exact ⟨k.toString, cell, hget, lineOf_toString hplain⟩

/-- Under the text of a plain key the baseline has the run's line for it. -/
theorem build_get (h : k.Plain) : (build runId A)[k.toString]? =
    (lineFor A k).map fun line => ⟨line.value, line.unit, runId⟩ := by
  have hlast : last ResultLine.isPlaceholder (fun line => line.cellKey.toString) A k.toString =
      lineFor A k := by
    simp only [last, lineFor, CellKey.toString_inj h]
  rw [← hlast]
  exact collect_get _ A

/-- The lines of a run that its baseline keeps. -/
def plainLines (lines : List ResultLine) : List ResultLine :=
  lines.filter fun line => line.cellKey.Plain

theorem lineFor_plainLines : lineFor (plainLines A) k = if k.Plain then lineFor A k else none := by
  have h := @last_filter _ _ _ ResultLine.isPlaceholder ResultLine.cellKey k A fun k => decide k.Plain
  simpa [lineFor, plainLines] using h

theorem lineFor_baseline (runId : String) (A : List ResultLine) (k : CellKey) :
    (lineFor (baselineToLines (build runId A)) k).map ResultLine.value =
      (lineFor (plainLines A) k).map ResultLine.value := by
  rw [lineFor_plainLines]
  have hnone : (k.Plain → lineFor A k = none) →
      lineFor (baselineToLines (build runId A)) k = none := by
    intro h
    refine last_eq_none_iff.mpr fun line hline hskip hkey => ?_
    obtain ⟨k', cell, hplain, hget, rfl⟩ := mem_baselineToLines.mp hline
    obtain rfl : k' = k := hkey
    rw [build_get hplain, h hplain] at hget
    cases hget
  by_cases hplain : k.Plain
  · rw [if_pos hplain]
    cases ha : lineFor A k with
    | none => rw [hnone fun _ => ha]
    | some a =>
      obtain ⟨-, hkept, hkey⟩ := last_mem ha
      have hget := @build_get A k runId hplain
      rw [ha] at hget
      set cell : BaselineCell := ⟨a.value, a.unit, runId⟩
      have hmem := mem_baselineToLines.mpr ⟨k, cell, hplain, hget, rfl⟩
      have hline : lineFor (baselineToLines (build runId A)) k = some (cell.readAs k) := by
        refine last_eq_of_unique hmem ?_ rfl fun y hy hk => ?_
        · rw [← hkept, ← hkey]
          rfl
        · obtain ⟨k', cell', -, hget', rfl⟩ := mem_baselineToLines.mp hy
          obtain rfl : k' = k := hk
          rw [hget] at hget'
          cases hget'
          rfl
      rw [hline]
      rfl
  · rw [if_neg hplain, hnone (absurd · hplain)]

/-- The baseline stands for the run without the cells that have a `/` in their
key, and so for the run itself exactly when it has no such cell. -/
theorem baseline_agrees (runId : String) (A B : List ResultLine) (t : Threshold) :
    join (baselineToLines (build runId A)) B t = join (plainLines A) B t ∧
    (join (baselineToLines (build runId A)) B t = join A B t ↔
      ∀ line ∈ A, line.isPlaceholder = false → line.cellKey.Plain) := by
  have hbase := @join_congr _ _ B t (lineFor_baseline runId A)
  refine ⟨hbase, fun e line hline hkept => ?_, fun h => hbase.trans (join_congr fun k => ?_)⟩
  · by_contra hplain
    have hsome : (lineFor A line.cellKey).isSome := by
      rw [Option.isSome_iff_ne_none]
      exact fun h => last_eq_none_iff.mp h line hline hkept rfl
    have hnone : ¬ (lineFor (plainLines A) line.cellKey).isSome := by
      rw [lineFor_plainLines, if_neg hplain]
      exact Bool.false_ne_true
    rw [hbase] at e
    by_cases hb : (lineFor B line.cellKey).isSome
    · exact hnone (mem_sharedKeys.mp (e ▸ mem_sharedKeys.mpr ⟨hsome, hb⟩)).1
    · exact hnone (mem_removed.mp (e ▸ mem_removed.mpr ⟨hsome, hb⟩)).1
  · rw [lineFor_plainLines]
    split
    · rfl
    · cases ha : lineFor A k with
      | none => rfl
      | some a =>
        obtain ⟨hmem, hkept, rfl⟩ := last_mem ha
        exact absurd (h a hmem hkept) ‹_›

/-- A metric with a `/` in its name. -/
def slashed : ResultLine := ⟨"rust", "f", "e", "p50/p99", 5, "ns", 1, none⟩

/-- The cell is missing from the baseline, so it is not even listed as removed. -/
theorem slashed_lost : join (baselineToLines (build "run" [slashed])) [] (.finite 10) ≠
    join [slashed] [] (.finite 10) := by
  intro e
  have hmem : slashed.cellKey ∈ (join [slashed] [] (.finite 10)).removed :=
    mem_removed.mpr ⟨by decide, by decide⟩
  obtain ⟨hline, -⟩ := mem_removed.mp (e ▸ hmem)
  have hvalue := lineFor_baseline "run" [slashed] slashed.cellKey
  rw [lineFor_plainLines, if_neg (by decide)] at hvalue
  rw [← Option.isSome_map (f := ResultLine.value), hvalue] at hline
  cases hline

end HiPerf.Journal
