import HiPerf.Journal.Entry

/-!
The index lists a recorded run under the first line of its description: nothing
the entry holds before the section is read as a heading, and only a first line
that looks like a heading or like a prompt is not listed.
-/

namespace HiPerf.Journal

open Std Text

variable {c : Char} {l s t pre : Text} {manifest : Manifest} {run : Text}

/-- No value runs over its line. -/
def Manifest.OneLine (manifest : Manifest) : Prop :=
  ∀ (key value : Text), manifest.fields[key]? = some value → '\n' ∉ value

theorem manifestLine_oneLine {fields : ExtTreeMap Text Text} (h : Manifest.OneLine ⟨fields⟩)
    (hl : '\n' ∉ l) : Manifest.OneLine ⟨manifestLine fields l⟩ := by
  rw [manifestLine]
  split
  · exact h
  · split
    · next key value hsplit =>
      intro k v hv
      rw [ExtTreeMap.getElem?_insert] at hv
      split at hv
      · cases hv
        have hvalue := (splitOnce_eq_some hsplit).2.subset
        exact not_mem_trim fun hc => not_mem_trim hl (hvalue hc)
      · exact h k v hv
    · exact h

/-- A parsed manifest has its values on one line each. -/
theorem parseManifest_oneLine (body : Text) : (parseManifest body).OneLine := by
  suffices hrun : ∀ raws : List Text, (∀ raw ∈ raws, '\n' ∉ raw) → ∀ fields,
      Manifest.OneLine ⟨fields⟩ → Manifest.OneLine ⟨raws.foldl manifestLine fields⟩ by
    refine hrun (lines body) (fun raw => not_mem_lines) ∅ ?_
    intro key value h
    simp at h
  intro raws hraws
  induction raws with
  | nil => exact fun fields h => h
  | cons raw raws ih =>
    intro fields h
    rw [List.forall_mem_cons] at hraws
    exact ih hraws.2 _ (manifestLine_oneLine h hraws.1)

namespace Manifest.OneLine

theorem get (h : manifest.OneLine) (key : String) {default : Text} (hd : '\n' ∉ default) :
    '\n' ∉ (manifest.get key).getD default := by
  rw [Manifest.get]
  cases hv : manifest.fields[key.toList]? with
  | none => exact hd
  | some value => exact h _ value hv

theorem sha (h : manifest.OneLine) :
    '\n' ∉ if manifest.gitSha = [] then "(unknown)".toList else manifest.gitSha := by
  split
  · decide
  · exact h.get "git_sha" (by decide)

theorem shortSha (h : manifest.OneLine) : '\n' ∉ manifest.shortSha := by
  have hsha : '\n' ∉ trim manifest.gitSha := not_mem_trim (h.get "git_sha" (by decide))
  rw [Manifest.shortSha]
  split
  · decide
  · exact fun hc => hsha (List.mem_of_mem_take hc)

theorem runId (h : manifest.OneLine) : '\n' ∉ manifest.runId := by
  have hts : '\n' ∉ trim manifest.timestamp := not_mem_trim (h.get "timestamp" (by decide))
  have hdash : '\n' ∉ "-".toList := by decide
  rw [Manifest.runId]
  simp only [List.flatten_cons, List.flatten_nil, List.append_nil, List.mem_append, not_or]
  refine ⟨?_, hdash, h.shortSha⟩
  split
  · decide
  · exact hts

end Manifest.OneLine

/-- Outside the section a line that is no heading is passed over. -/
theorem headlineFrom_outside (hl : '\n' ∉ l) (hhead : ¬ "## ".toList <+: trim l) :
    headlineFrom false (lines (l ++ '\n' :: s)) = headlineFrom false (lines s) := by
  rw [lines_line hl, headlineFrom, trim_chomp, trim_append (by decide)]
  rw [stripPrefix_eq_none.mpr hhead]
  rfl

/-- Below its heading the section begins. -/
theorem headlineFrom_section :
    headlineFrom false (lines ("## What changed".toList ++ '\n' :: s)) =
      headlineFrom true (lines s) := by
  rw [lines_line (by decide), headlineFrom, trim_chomp, trim_append (by decide)]
  rfl

/-- In the section the first line decides. -/
theorem headlineFrom_inside (hc : isWhitespace c = false)
    (hhead : ¬ "## ".toList <+: firstLine (c :: t)) :
    headlineFrom true (lines (c :: t ++ '\n' :: s)) =
      if isPrompt (firstLine (c :: t)) then [] else firstLine (c :: t) := by
  obtain ⟨line, rest, hlines, hline⟩ := lines_first (t := s) (List.cons_ne_nil c t)
  obtain ⟨u, hu⟩ := firstLine_cases (s := t) hc
  have hne : firstLine (c :: t) ≠ [] := hu ▸ trim_ne_nil hc
  rw [hlines, headlineFrom, hline, stripPrefix_eq_none.mpr hhead]
  simp [hne]

/-- A heading is never the headline. -/
theorem not_heading (inSection : Bool) (raws : List Text) :
    ¬ "## ".toList <+: headlineFrom inSection raws := by
  induction raws generalizing inSection with
  | nil =>
    rw [headlineFrom]
    decide
  | cons raw raws ih =>
    rw [headlineFrom]
    split
    · exact ih _
    · next hnone =>
      split
      · split
        · decide
        · exact stripPrefix_eq_none.mp hnone
      · exact ih _

/-- The second character tells a title or an item from a heading. -/
theorem not_heading_item (hc : isWhitespace c = false) (hpre : pre = c :: ' ' :: t) :
    ¬ "## ".toList <+: trim (pre ++ l) := by
  subst hpre
  intro h
  have hprefix := h.trans (trim_of_head hc)
  simp at hprefix

/-- What the entry holds before its first section, line by line. -/
def entryHeader (run : Text) (manifest : Manifest) : List Text :=
  let value := fun key => (manifest.get key).getD "?".toList
  ["# ".toList ++ run,
    [],
    "- commit: ".toList ++
      (if manifest.gitSha = [] then "(unknown)".toList else manifest.gitSha),
    "- instance: ".toList ++ ((manifest.get "instance_type").getD "unknown".toList ++
      (", ".toList ++ (value "vcpus" ++ (" vCPU, kernel ".toList ++ value "kernel")))),
    "- params: payload=".toList ++ (value "rtt_payload_bytes" ++ ("B warmup=".toList ++
      (value "rtt_warmup" ++ (" iterations=".toList ++ value "rtt_iterations")))),
    []]

theorem renderEntry_eq (run : Text) (manifest : Manifest) (results : List ResultLine)
    (desc : Option Text) :
    ∃ rest, renderEntry run manifest results desc =
      (entryHeader run manifest).flatMap (· ++ ['\n']) ++
        ("## What changed".toList ++ '\n' :: (whatChanged desc ++ '\n' :: rest)) := by
  have hcommit : "\n\n- commit: ".toList = '\n' :: '\n' :: "- commit: ".toList := by simp
  have hinstance : "\n- instance: ".toList = '\n' :: "- instance: ".toList := by simp
  have hparams : "\n- params: payload=".toList = '\n' :: "- params: payload=".toList := by simp
  have hsection : "\n\n## What changed\n".toList =
    '\n' :: '\n' :: ("## What changed".toList ++ ['\n']) := by simp
  have hend : "\n\n".toList = ['\n', '\n'] := by simp
  simp only [renderEntry, entryHeader, hcommit, hinstance, hparams, hsection, hend,
    List.flatten_cons, List.flatten_nil, List.flatMap_cons, List.flatMap_nil, List.append_assoc,
    List.cons_append, List.nil_append]
  exact ⟨_, rfl⟩

theorem entryHeader_plain (hid : '\n' ∉ run) (hm : manifest.OneLine) :
    ∀ l ∈ entryHeader run manifest, '\n' ∉ l ∧ ¬ "## ".toList <+: trim l := by
  have hvalue := fun key => hm.get key (show '\n' ∉ "?".toList by decide)
  have hinstance := hm.get "instance_type" (show '\n' ∉ "unknown".toList by decide)
  have hblank : '\n' ∉ ([] : Text) ∧ ¬ "## ".toList <+: trim [] := by decide
  simp only [entryHeader, List.forall_mem_cons, List.mem_append, not_or]
  refine ⟨⟨⟨by decide, hid⟩, not_heading_item (by decide) rfl⟩, hblank,
    ⟨⟨by decide, hm.sha⟩, not_heading_item (by decide) rfl⟩,
    ⟨⟨by decide, hinstance, by decide, hvalue _, by decide, hvalue _⟩,
      not_heading_item (by decide) rfl⟩,
    ⟨⟨by decide, hvalue _, by decide, hvalue _, by decide, hvalue _⟩,
      not_heading_item (by decide) rfl⟩, hblank, by simp⟩

/-- Lines that are no headings lead nowhere outside the section. -/
theorem headlineFrom_header {header : List Text}
    (h : ∀ l ∈ header, '\n' ∉ l ∧ ¬ "## ".toList <+: trim l) :
    headlineFrom false (lines (header.flatMap (· ++ ['\n']) ++ s)) =
      headlineFrom false (lines s) := by
  induction header with
  | nil => rfl
  | cons l header ih =>
    rw [List.forall_mem_cons] at h
    rw [List.flatMap_cons, List.append_assoc, List.append_assoc, List.singleton_append,
      headlineFrom_outside h.1.1 h.1.2, ih h.2]

/-- The first line of the section's text is the headline, unless it is a heading
or a prompt. -/
theorem extractHeadline_renderEntry (hid : '\n' ∉ run) (hm : manifest.OneLine)
    (results : List ResultLine) {desc : Option Text}
    (htext : whatChanged desc = c :: t) (hc : isWhitespace c = false)
    (hhead : ¬ "## ".toList <+: firstLine (c :: t)) :
    extractHeadline (renderEntry run manifest results desc) =
      if isPrompt (firstLine (c :: t)) then [] else firstLine (c :: t) := by
  obtain ⟨rest, hentry⟩ := renderEntry_eq run manifest results desc
  rw [extractHeadline, hentry, headlineFrom_header (entryHeader_plain hid hm),
    headlineFrom_section, htext, headlineFrom_inside hc hhead]

theorem extractHeadline_desc (hid : '\n' ∉ run) (hm : manifest.OneLine)
    (results : List ResultLine) {desc : Text} (hdesc : trim desc ≠ [])
    (hhead : ¬ "## ".toList <+: firstLine (trim desc)) :
    extractHeadline (renderEntry run manifest results (some desc)) =
      if isPrompt (firstLine (trim desc)) then [] else firstLine (trim desc) := by
  obtain hnil | ⟨c, t, htrim, hc⟩ := trim_cases desc
  · exact absurd hnil hdesc
  · have htext : whatChanged (some desc) = c :: t := by rw [whatChanged, if_neg hdesc, htrim]
    rw [htrim] at hhead ⊢
    exact extractHeadline_renderEntry hid hm results htext hc hhead

/-- The prompt is not listed. -/
theorem extractHeadline_authorPrompt (hid : '\n' ∉ run) (hm : manifest.OneLine)
    (results : List ResultLine) {desc : Option Text} (htext : whatChanged desc = authorPrompt) :
    extractHeadline (renderEntry run manifest results desc) = [] := by
  have htrim : trim authorPrompt = authorPrompt := by decide +kernel
  have hhead : ¬ "## ".toList <+: firstLine authorPrompt := by decide +kernel
  have hprompt : isPrompt (firstLine authorPrompt) = true := by decide +kernel
  obtain hnil | ⟨c, t, hct, hc⟩ := trim_cases authorPrompt
  · rw [hnil] at htrim
    exact absurd htrim (by decide)
  · rw [htrim] at hct
    rw [hct] at htext hhead hprompt
    rw [extractHeadline_renderEntry hid hm results htext hc hhead, if_pos hprompt]

theorem not_heading_of_isPrompt (h : isPrompt l = true) : ¬ "## ".toList <+: l := by
  rintro ⟨rest, rfl⟩
  cases (Bool.and_eq_true_iff.mp h).1

/-- A recorded headline survives exactly when the first line of the description
neither begins a section nor stands in angle brackets. Without a description
there is none, whatever the manifest holds. -/
theorem headline_survives (body idBody : Text) (results : List ResultLine) :
    let headline := fun desc => extractHeadline
      (renderEntry (parseManifest idBody).runId (parseManifest body) results desc)
    (∀ desc, trim desc ≠ [] →
      (headline (some desc) = firstLine (trim desc) ↔
        ¬ "## ".toList <+: firstLine (trim desc) ∧ isPrompt (firstLine (trim desc)) = false)) ∧
    (∀ desc, trim desc ≠ [] → isPrompt (firstLine (trim desc)) = true → headline (some desc) = []) ∧
    (∀ desc, trim desc = [] → headline (some desc) = []) ∧ headline none = [] := by
  intro headline
  have hid := (parseManifest_oneLine idBody).runId
  have hm := parseManifest_oneLine body
  refine ⟨fun desc hdesc => ⟨fun h => ?_, fun ⟨hhead, hprompt⟩ => ?_⟩,
    fun desc hdesc hprompt => ?_, fun desc hdesc => ?_, ?_⟩
  · have hhead : ¬ "## ".toList <+: firstLine (trim desc) := h ▸ not_heading _ _
    refine ⟨hhead, Bool.eq_false_iff.mpr fun hprompt => ?_⟩
    have hdrop := extractHeadline_desc hid hm results hdesc hhead
    rw [if_pos hprompt] at hdrop
    rw [← h, show headline (some desc) = [] from hdrop] at hprompt
    cases hprompt
  · have hkeep := extractHeadline_desc hid hm results hdesc hhead
    rwa [hprompt, if_neg Bool.false_ne_true] at hkeep
  · have hhead := not_heading_of_isPrompt hprompt
    have hdrop := extractHeadline_desc hid hm results hdesc hhead
    rwa [if_pos hprompt] at hdrop
  · exact extractHeadline_authorPrompt hid hm results (by rw [whatChanged, if_pos hdesc])
  · exact extractHeadline_authorPrompt hid hm results rfl

theorem headline_survives_batching :
    extractHeadline (renderEntry (parseManifest []).runId (parseManifest []) []
      (some "udp: sendmmsg batching".toList)) = "udp: sendmmsg batching".toList := by
  have hline : firstLine (trim "udp: sendmmsg batching".toList) =
    "udp: sendmmsg batching".toList := by decide +kernel
  have h := (headline_survives [] [] []).1 "udp: sendmmsg batching".toList (by decide +kernel)
  rw [hline] at h
  exact h.mpr ⟨by decide +kernel, by decide +kernel⟩

/-- Two descriptions that are lost: one taken for a prompt, one for a heading. -/
theorem headline_lost :
    let headline := fun desc : Text => extractHeadline
      (renderEntry (parseManifest []).runId (parseManifest []) [] (some desc))
    let lost := fun desc : Text => trim desc ≠ [] ∧ headline desc ≠ firstLine (trim desc)
    lost "<tcp> and <udp>".toList ∧ lost "## udp: batching\nsendmmsg".toList := by
  decide +kernel

end HiPerf.Journal
