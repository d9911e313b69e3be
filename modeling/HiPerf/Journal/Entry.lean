import HiPerf.Journal.Model
import HiPerf.Lib.Text

/-!
The entry of a recorded run (`record.rs`) and the headline the index takes from
it (`index.rs`): `entry.md` is written from the manifest, the results and the
description, and read again line by line.
-/

namespace HiPerf.Journal

open Std Text

/-- `manifest.txt`, the value of a repeated key being the last one. -/
structure Manifest where
  fields : ExtTreeMap Text Text

namespace Manifest

def get (manifest : Manifest) (key : String) : Option Text := manifest.fields[key.toList]?

def gitSha (manifest : Manifest) : Text := (manifest.get "git_sha").getD []

def timestamp (manifest : Manifest) : Text := (manifest.get "timestamp").getD []

def shortSha (manifest : Manifest) : Text :=
  let sha := trim manifest.gitSha
  if sha = [] ∨ sha = "no-git".toList ∨ sha = "n/a".toList then "nogit".toList else sha.take 12

def runId (manifest : Manifest) : Text :=
  let ts := trim manifest.timestamp
  let ts := if ts = [] then "notime".toList else ts
  List.flatten [ts, "-".toList, manifest.shortSha]

end Manifest

def manifestLine (fields : ExtTreeMap Text Text) (raw : Text) : ExtTreeMap Text Text :=
  let line := trim raw
  if line = [] ∨ line.head? = some '#' then fields
  else match splitOnce '=' line with
    | some (key, value) => fields.insert (trim key) (trim value)
    | none => fields

def parseManifest (body : Text) : Manifest := ⟨(lines body).foldl manifestLine ∅⟩

def intText (n : Int) : Text := (toString n).toList

/-- `{v:.1}`: one decimal, a tie going to the even digit. -/
def oneDecimal (v : ℚ) : Text :=
  let scaled := |v| * 10
  let below := scaled.floor
  let rest := scaled - below
  let tenths := if 1 / 2 < rest ∨ rest = 1 / 2 ∧ below % 2 = 1 then below + 1 else below
  List.flatten [if v < 0 then "-".toList else [], intText (tenths / 10), ".".toList,
    intText (tenths % 10)]

def fmtVal (v : ℚ) : Text :=
  let whole := if 0 ≤ v then v.floor else v.ceil
  -- a value this close to a whole number rounds to it; the cast saturates
  if |v - whole| < 1 / 10 ^ 9 then intText (max (-2 ^ 63) (min (2 ^ 63 - 1) whole))
  else oneDecimal v

abbrev pairCompare : String × String → String × String → Ordering :=
  compareLex (compareOn Prod.fst) (compareOn Prod.snd)

/-- What the digest shows of one focus area and experiment. -/
structure Group where
  units : ExtTreeMap String String := ∅
  langs : ExtTreeSet String := ∅
  vals : ExtTreeMap (String × String) ℚ pairCompare := ∅

namespace Group

def add (group : Group) (line : ResultLine) : Group where
  units := group.units.insertIfNew line.metric line.unit
  langs := group.langs.insert line.language
  vals := group.vals.insert (line.language, line.metric) line.value

def cell (group : Group) (lang metric : String) : Text :=
  match group.vals[(lang, metric)]? with
  | some v => List.flatten [" ".toList, fmtVal v, " |".toList]
  | none => " — |".toList

def row (group : Group) (lang : String) : Text :=
  List.flatten ["| ".toList, lang.toList, " |".toList, group.units.keys.flatMap (group.cell lang),
    ['\n']]

def render (group : Group) (focusArea experiment : String) : Text :=
  List.flatten ["### ".toList, focusArea.toList, " / ".toList, experiment.toList, "\n\n".toList,
    "| language |".toList,
    group.units.toList.flatMap (fun (metric, unit) =>
      List.flatten [" ".toList, metric.toList, " (".toList, unit.toList, ") |".toList]),
    ['\n'],
    "|---|".toList, group.units.keys.flatMap (fun _ => "---|".toList), ['\n'],
    group.langs.toList.flatMap group.row, ['\n']]

end Group

def groupsOf (results : List ResultLine) : ExtTreeMap (String × String) Group pairCompare :=
  (results.filter fun line => !line.isPlaceholder).foldl (fun groups line =>
    let key := (line.focusArea, line.experiment)
    groups.insert key ((groups.getD key {}).add line)) ∅

/-- The digest of the results, empty when there is none to show. -/
def renderResults (results : List ResultLine) : Text :=
  let groups := groupsOf results
  if groups.isEmpty then []
  else
    "## Results\n\nPer-cell values from this run (placeholder/stub cells omitted).\n\n".toList ++
      groups.toList.flatMap fun (key, group) => group.render key.1 key.2

def authorPrompt : Text :=
  "<one-paragraph description of what was added/changed in this version>".toList

/-- The sections left to the author. -/
def proseSections : Text :=
  "## Hypothesis\n<what we expected to happen>\n\n## Observations\n".toList ++
    "<what actually happened; reference compare output / notable deltas>\n".toList

/-- The section's text: the trimmed description, or the prompt for the author. -/
def whatChanged : Option Text → Text
  | some desc => if trim desc = [] then authorPrompt else trim desc
  | none => authorPrompt

def renderEntry (runId : Text) (manifest : Manifest) (results : List ResultLine)
    (desc : Option Text) : Text :=
  let sha := if manifest.gitSha = [] then "(unknown)".toList else manifest.gitSha
  let instanceType := (manifest.get "instance_type").getD "unknown".toList
  let vcpus := (manifest.get "vcpus").getD "?".toList
  let kernel := (manifest.get "kernel").getD "?".toList
  let payload := (manifest.get "rtt_payload_bytes").getD "?".toList
  let warmup := (manifest.get "rtt_warmup").getD "?".toList
  let iterations := (manifest.get "rtt_iterations").getD "?".toList
  List.flatten ["# ".toList, runId,
    "\n\n- commit: ".toList, sha,
    "\n- instance: ".toList, instanceType, ", ".toList, vcpus, " vCPU, kernel ".toList, kernel,
    "\n- params: payload=".toList, payload, "B warmup=".toList, warmup,
    " iterations=".toList, iterations,
    "\n\n## What changed\n".toList, whatChanged desc, "\n\n".toList,
    renderResults results, proseSections]

/-- A line in angle brackets is taken for a prompt. -/
def isPrompt (line : Text) : Bool := line.head? = some '<' && line.getLast? = some '>'

/-- The headline in the lines left, `inSection` telling whether they stand under
`## What changed`. -/
def headlineFrom (inSection : Bool) : List Text → Text
  | [] => []
  | raw :: rest =>
    let line := trim raw
    match stripPrefix "## ".toList line with
    | some heading => headlineFrom (trim heading = "What changed".toList) rest
    | none =>
      if inSection && !line.isEmpty then if isPrompt line then [] else line
      else headlineFrom inSection rest

def extractHeadline (entryMd : Text) : Text := headlineFrom false (lines entryMd)

end HiPerf.Journal
