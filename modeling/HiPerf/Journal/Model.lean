import Mathlib.Data.String.Basic
import Mathlib.Data.Rat.Defs
import Mathlib.Algebra.Order.Ring.Rat
import Mathlib.Algebra.Order.Group.Abs
import Mathlib.Tactic.Common

/-!
The benchmark journal of `tools/journal/src`: result lines, the join of two runs
on the cell key (`compare.rs`), and the recorded baseline (`baseline.rs`,
`main.rs`). A measured value is an exact rational, and a `BTreeMap` is a map
ordered by `cmp`.
-/

namespace HiPerf.Journal

open Std

/-- The key runs are joined on, ordered field by field. -/
@[ext]
structure CellKey where
  focusArea : String
  experiment : String
  language : String
  metric : String
deriving DecidableEq

instance : Ord CellKey where
  compare := compareLex (compareOn CellKey.focusArea) <| compareLex (compareOn CellKey.experiment) <|
    compareLex (compareOn CellKey.language) (compareOn CellKey.metric)

instance : TransOrd CellKey :=
  inferInstanceAs <| TransCmp <| compareLex (compareOn CellKey.focusArea) <|
    compareLex (compareOn CellKey.experiment) <|
      compareLex (compareOn CellKey.language) (compareOn CellKey.metric)

instance : LawfulEqOrd CellKey where
  eq_of_compare {a b} h := by
    obtain ⟨h₁, h⟩ := compareLex_eq_eq.mp h
    obtain ⟨h₂, h⟩ := compareLex_eq_eq.mp h
    obtain ⟨h₃, h₄⟩ := compareLex_eq_eq.mp h
    exact CellKey.ext (LawfulEqOrd.eq_of_compare h₁) (LawfulEqOrd.eq_of_compare h₂)
      (LawfulEqOrd.eq_of_compare h₃) (LawfulEqOrd.eq_of_compare h₄)

/-- `Display` of a key. -/
def CellKey.toString (k : CellKey) : String :=
  k.focusArea ++ "/" ++ k.experiment ++ "/" ++ k.language ++ "/" ++ k.metric

structure ResultLine where
  language : String
  focusArea : String
  experiment : String
  metric : String
  value : ℚ
  unit : String
  samples : Int
  notes : Option String
deriving DecidableEq

namespace ResultLine

def cellKey (line : ResultLine) : CellKey :=
  ⟨line.focusArea, line.experiment, line.language, line.metric⟩

/-- A stub is left out of every comparison. -/
def isPlaceholder (line : ResultLine) : Bool :=
  line.experiment == "placeholder" || line.value == 0

end ResultLine

inductive Direction
  | lowerBetter
  | higherBetter
  | unknown
deriving DecidableEq

namespace Direction

def fromUnit (unit : String) : Direction :=
  match unit with
  | "ns" | "us" | "ms" | "s" => .lowerBetter
  | "ops_per_sec" | "bytes_per_sec" => .higherBetter
  | _ => .unknown

def effectiveLowerBetter : Direction → Bool
  | .lowerBetter => true
  | .higherBetter => false
  | .unknown => true

end Direction

inductive Verdict
  | regression
  | improvement
  | same
deriving DecidableEq

/-- What `--threshold` can be: the double may also be infinite, or no number. -/
inductive Threshold
  | finite (q : ℚ)
  | inf
  | negInf
  | nan

/-- `x < threshold`. -/
def Threshold.exceeds (x : ℚ) : Threshold → Bool
  | .finite q => x < q
  | .inf => true
  | .negInf => false
  | .nan => false

structure Comparison where
  key : CellKey
  unit : String
  direction : Direction
  a : ℚ
  b : ℚ
  absDelta : ℚ
  pctDelta : Option ℚ
  verdict : Verdict
  unknownUnit : Bool

structure JoinResult where
  shared : List Comparison
  added : List CellKey
  removed : List CellKey

/-- The lines by cell, a later line taking the place of an earlier one. -/
def index (lines : List ResultLine) : ExtTreeMap CellKey ResultLine :=
  lines.foldl (fun map line =>
    if line.isPlaceholder then map else map.insert line.cellKey line) ∅

def classify (a b : ℚ) (unit : String) (thresholdPct : Threshold) :
    ℚ × Option ℚ × Verdict × Direction :=
  let direction := Direction.fromUnit unit
  let absDelta := b - a
  let pctDelta := if a = 0 then none else some ((b - a) / |a| * 100)
  let verdict := match pctDelta with
    | none => .same
    | some pct =>
      if thresholdPct.exceeds |pct| then .same
      else if direction.effectiveLowerBetter then
        if pct > 0 then .regression else .improvement
      else
        if pct < 0 then .regression else .improvement
  (absDelta, pctDelta, verdict, direction)

def compareCell (key : CellKey) (aLine bLine : ResultLine) (thresholdPct : Threshold) : Comparison :=
  let (absDelta, pctDelta, verdict, direction) :=
    classify aLine.value bLine.value bLine.unit thresholdPct
  { key, unit := bLine.unit, direction, a := aLine.value, b := bLine.value, absDelta, pctDelta,
    verdict, unknownUnit := direction = .unknown }

def join (aLines bLines : List ResultLine) (thresholdPct : Threshold) : JoinResult :=
  let a := index aLines
  let b := index bLines
  { shared := a.toList.filterMap fun (key, aLine) =>
      b[key]?.map fun bLine => compareCell key aLine bLine thresholdPct
    removed := a.toList.filterMap fun (key, _) => if b.contains key then none else some key
    added := b.keys.filter fun key => !a.contains key }

structure BaselineCell where
  value : ℚ
  unit : String
  runId : String

/-- The cells of a run, under their keys in text form. -/
def build (runId : String) (lines : List ResultLine) : ExtTreeMap String BaselineCell :=
  lines.foldl (fun map line =>
    if line.isPlaceholder then map
    else map.insert line.cellKey.toString ⟨line.value, line.unit, runId⟩) ∅

/-- The line of a baseline cell, when its key has four parts. -/
def lineOf (key : String) (cell : BaselineCell) : Option ResultLine :=
  match (key.toList.splitOn '/').map String.ofList with
  | [focusArea, experiment, language, metric] =>
    some { focusArea, experiment, language, metric, value := cell.value, unit := cell.unit,
           samples := 0, notes := none }
  | _ => none

def baselineToLines (base : ExtTreeMap String BaselineCell) : List ResultLine :=
  base.toList.filterMap fun (key, cell) => lineOf key cell

end HiPerf.Journal
