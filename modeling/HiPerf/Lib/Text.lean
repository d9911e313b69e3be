import Mathlib.Data.List.Infix
import Mathlib.Data.List.DropRight

/-!
Text as a list of characters, read line by line: the lines of a text, the
whitespace cut off both ends of a line, a prefix taken off, a text split at the
first separator. What stands before the next newline is the next line.
-/

abbrev Text := List Char

namespace Text

variable {c : Char} {l s t pre : Text}

/-- The characters with the Unicode property `White_Space`. -/
def isWhitespace (c : Char) : Bool :=
  (9 ≤ c.toNat && c.toNat ≤ 13) || c.toNat == 0x20 || c.toNat == 0x85 || c.toNat == 0xA0 ||
    c.toNat == 0x1680 || (0x2000 ≤ c.toNat && c.toNat ≤ 0x200A) || c.toNat == 0x2028 ||
    c.toNat == 0x2029 || c.toNat == 0x202F || c.toNat == 0x205F || c.toNat == 0x3000

def trim (s : Text) : Text := (s.dropWhile isWhitespace).rdropWhile isWhitespace

/-- The text cut after every newline. -/
def splitInclusive : Text → List Text
  | [] => []
  | c :: s =>
    if c = '\n' then [c] :: splitInclusive s
    else match splitInclusive s with
      | [] => [[c]]
      | line :: rest => (c :: line) :: rest

def stripSuffix (c : Char) (s : Text) : Option Text :=
  if s.getLast? = some c then some s.dropLast else none

/-- A line without its ending, `\n` or `\r\n`. -/
def chomp (line : Text) : Text :=
  match stripSuffix '\n' line with
  | none => line
  | some line => (stripSuffix '\r' line).getD line

def lines (s : Text) : List Text := (splitInclusive s).map chomp

def stripPrefix : Text → Text → Option Text
  | [], s => some s
  | _ :: _, [] => none
  | p :: pre, c :: s => if p = c then stripPrefix pre s else none

/-- What stands before and after the first separator. -/
def splitOnce (sep : Char) (s : Text) : Option (Text × Text) :=
  if sep ∈ s then
    some (s.takeWhile (· != sep), (s.dropWhile (· != sep)).tail)
  else none

/-- The first line, trimmed. -/
def firstLine (s : Text) : Text := trim ((lines s).headD [])

theorem stripPrefix_isSome : (stripPrefix pre s).isSome ↔ pre <+: s := by
  induction pre generalizing s with
  | nil => simp [stripPrefix]
  | cons p pre ih =>
    cases s with
    | nil => simp [stripPrefix]
    | cons c s =>
      rw [stripPrefix, List.cons_prefix_cons]
      split
      · next h => simp [h, ih]
      · next h => simp [h]

theorem stripPrefix_eq_none : stripPrefix pre s = none ↔ ¬ pre <+: s := by
  rw [← stripPrefix_isSome, Option.not_isSome_iff_eq_none]

theorem trim_subset : trim s ⊆ s := fun _ hc =>
  (List.dropWhile_suffix _).subset ((List.rdropWhile_prefix _ _).subset hc)

theorem not_mem_trim (h : c ∉ s) : c ∉ trim s := fun hc => h (trim_subset hc)

theorem trim_of_head (h : isWhitespace c = false) : trim (c :: s) <+: c :: s := by
  rw [trim, List.dropWhile_cons, h, if_neg Bool.false_ne_true]
  exact List.rdropWhile_prefix _ _

theorem trim_ne_nil (h : isWhitespace c = false) : trim (c :: s) ≠ [] := by
  rw [trim, List.dropWhile_cons, h, if_neg Bool.false_ne_true, Ne, List.rdropWhile_eq_nil_iff]
  intro hall
  simp [h] at hall

/-- A trimmed text is empty, or begins with a character that is not whitespace. -/
theorem trim_cases (s : Text) : trim s = [] ∨ ∃ c t, trim s = c :: t ∧ isWhitespace c = false := by
  cases hs : trim s with
  | nil => exact .inl rfl
  | cons c t =>
    refine .inr ⟨c, t, rfl, ?_⟩
    obtain ⟨u, hu⟩ : trim s <+: s.dropWhile isWhitespace := List.rdropWhile_prefix _ _
    have hne : s.dropWhile isWhitespace ≠ [] := by
      intro hnil
      rw [hs, hnil] at hu
      exact absurd hu (by simp)
    have hhead := List.head_dropWhile_not isWhitespace hne
    simpa [← hu, hs] using hhead

theorem stripSuffix_eq_some : stripSuffix c s = some t ↔ s = t ++ [c] := by
  rw [stripSuffix]
  constructor
  · intro h
    split at h
    · next hlast =>
      cases h
      rw [List.dropLast_append_getLast? c hlast]
    · cases h
  · rintro rfl
    simp

/-- Whitespace at the end does not count. -/
theorem trim_append (h : isWhitespace c = true) : trim (l ++ [c]) = trim l := by
  rw [trim, trim, List.dropWhile_append]
  split
  · next hnil =>
    rw [List.isEmpty_iff.mp hnil, List.dropWhile_cons, if_pos h, List.dropWhile_nil]
  · exact List.rdropWhile_concat_pos _ _ _ h

@[simp]
theorem trim_chomp : trim (chomp l) = trim l := by
  rw [chomp]
  cases hn : stripSuffix '\n' l with
  | none => rfl
  | some line =>
    rw [stripSuffix_eq_some.mp hn, trim_append (by decide)]
    dsimp only
    cases hr : stripSuffix '\r' line with
    | none => rfl
    | some body => rw [stripSuffix_eq_some.mp hr, trim_append (by decide), Option.getD_some]

/-- The next line is what stands before the next newline. -/
theorem splitInclusive_line (h : '\n' ∉ l) :
    splitInclusive (l ++ '\n' :: s) = (l ++ ['\n']) :: splitInclusive s := by
  induction l with
  | nil => simp [splitInclusive]
  | cons c l ih =>
    rw [List.mem_cons, not_or] at h
    rw [List.cons_append, splitInclusive, if_neg (Ne.symm h.1), ih h.2]
    rfl

theorem splitInclusive_last (hne : l ≠ []) (h : '\n' ∉ l) : splitInclusive l = [l] := by
  induction l with
  | nil => exact absurd rfl hne
  | cons c l ih =>
    rw [List.mem_cons, not_or] at h
    rw [splitInclusive, if_neg (Ne.symm h.1)]
    cases l with
    | nil => rfl
    | cons d l => rw [ih (List.cons_ne_nil d l) h.2]

theorem lines_line (h : '\n' ∉ l) :
    lines (l ++ '\n' :: s) = chomp (l ++ ['\n']) :: lines s := by
  rw [lines, splitInclusive_line h, List.map_cons, lines]

/-- Before a newline a text has its own first line, up to whitespace. -/
theorem lines_first (hne : s ≠ []) :
    ∃ line rest, lines (s ++ '\n' :: t) = line :: rest ∧ trim line = firstLine s := by
  by_cases h : '\n' ∈ s
  · obtain ⟨l, u, rfl, hl⟩ := List.eq_append_cons_of_mem h
    refine ⟨_, _, by rw [List.append_assoc, List.cons_append, lines_line hl], ?_⟩
    rw [firstLine, lines_line hl, List.headD_cons]
  · refine ⟨_, _, lines_line h, ?_⟩
    rw [firstLine, lines, splitInclusive_last hne h, List.map_singleton, List.headD_cons,
      trim_chomp, trim_chomp, trim_append (by decide)]

/-- A text that begins with no whitespace has a first line. -/
theorem firstLine_cases (h : isWhitespace c = false) :
    ∃ l, firstLine (c :: s) = trim (c :: l) := by
  have hc : c ≠ '\n' := by
    rintro rfl
    exact absurd h (by decide)
  by_cases hs : '\n' ∈ s
  · obtain ⟨l, u, rfl, hl⟩ := List.eq_append_cons_of_mem hs
    refine ⟨l, ?_⟩
    have hcl : '\n' ∉ c :: l := List.not_mem_cons_of_ne_of_not_mem hc.symm hl
    rw [firstLine, ← List.cons_append, lines_line hcl, List.headD_cons, trim_chomp,
      trim_append (by decide)]
  · refine ⟨s, ?_⟩
    have hcs : '\n' ∉ c :: s := List.not_mem_cons_of_ne_of_not_mem hc.symm hs
    rw [firstLine, lines, splitInclusive_last (List.cons_ne_nil c s) hcs, List.map_singleton,
      List.headD_cons, trim_chomp]

theorem not_mem_dropLast (h : l ∈ splitInclusive s) : '\n' ∉ l.dropLast := by
  induction s generalizing l with
  | nil => cases h
  | cons c s ih =>
    rw [splitInclusive] at h
    split at h
    · obtain rfl | h := List.mem_cons.mp h
      · simp
      · exact ih h
    · next hc =>
      split at h
      · obtain rfl := List.mem_singleton.mp h
        simp
      · next line rest hs =>
        rw [hs] at ih
        obtain rfl | h := List.mem_cons.mp h
        · cases line with
          | nil => simp
          | cons d line =>
            rw [List.dropLast_cons_cons]
            exact List.not_mem_cons_of_ne_of_not_mem (Ne.symm hc) (ih List.mem_cons_self)
        · exact ih (List.mem_cons_of_mem line h)

/-- No line has a newline in it. -/
theorem not_mem_lines (h : l ∈ lines s) : '\n' ∉ l := by
  obtain ⟨piece, hpiece, rfl⟩ := List.mem_map.mp h
  have hlast := not_mem_dropLast hpiece
  rw [chomp]
  cases hn : stripSuffix '\n' piece with
  | none =>
    intro hmem
    obtain rfl | ⟨front, last, rfl⟩ := List.eq_nil_or_concat piece
    · cases hmem
    rw [List.concat_eq_append] at hlast hn hmem
    rw [List.dropLast_concat] at hlast
    obtain rfl : '\n' = last := by simpa [hlast] using hmem
    rw [stripSuffix_eq_some.mpr rfl] at hn
    cases hn
  | some line =>
    rw [stripSuffix_eq_some.mp hn, List.dropLast_concat] at hlast
    cases hr : stripSuffix '\r' line with
    | none => simpa [hr] using hlast
    | some body =>
      rw [stripSuffix_eq_some.mp hr] at hlast
      simpa [hr] using hlast

theorem splitOnce_eq_some {sep : Char} {before after : Text}
    (h : splitOnce sep s = some (before, after)) : before <+: s ∧ after <:+ s := by
  rw [splitOnce] at h
  split at h
  · cases h
    exact ⟨List.takeWhile_prefix _, (List.tail_suffix _).trans (List.dropWhile_suffix _)⟩
  · cases h

end Text
