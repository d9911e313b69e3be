import Mathlib.Data.Finset.Card
import Mathlib.Data.Finset.Range
import Mathlib.Data.List.Nodup
import Mathlib.Data.List.Perm.Subperm
import Mathlib.Data.Nat.Init
import Mathlib.Tactic.Common

/-!
A table of chunks that are copied before they are written, unless they were
born in the current generation. A frozen table is a copy of the addresses; what
it shows never changes, because it holds only chunks of earlier generations.
-/

namespace Epoch

structure Chunk (α : Type) where
  born : Nat
  items : Array α
  deriving Repr

/-- Every chunk there ever was, by address. -/
abbrev Heap (α : Type) := Array (Chunk α)

variable {α : Type}

/-- Item `i` as seen through a table of addresses, with `size` items a chunk. -/
def get (h : Heap α) (table : Array Nat) (size i : Nat) : Option α :=
  (table[i / size]?).bind fun a => (h[a]?).bind fun c => c.items[i % size]?

/-- Every place of a table: a chunk and an index in it. -/
def places (h : Heap α) (table : Array Nat) : List (Nat × Nat) :=
  (List.range table.size).flatMap fun ci =>
    (List.range (((table[ci]?).bind (h[·]?)).elim 0 (·.items.size))).map fun k => (ci, k)

/-- Make chunk `ci` one of the current generation, by a copy if it is older. -/
def own (h : Heap α) (table : Array Nat) (gen ci : Nat) : Option (Heap α × Array Nat) :=
  (table[ci]?).bind fun a => (h[a]?).map fun c =>
    if c.born < gen then (h.push ⟨gen, c.items⟩, table.setIfInBounds ci h.size) else (h, table)

/-- Write item `i` in place. -/
def put (h : Heap α) (table : Array Nat) (size i : Nat) (v : α) : Heap α :=
  match table[i / size]? with
  | none => h
  | some a => h.modify a fun c => { c with items := c.items.setIfInBounds (i % size) v }

/-- Chunks that hold `n` copies of `v`, all full but perhaps the last. -/
def fill (size n : Nat) (v : α) : Heap α :=
  (Array.range ((n + size - 1) / size)).map fun ci =>
    ⟨1, Array.replicate (min size (n - ci * size)) v⟩

/-- The addresses of a table are chunks of the heap, each in one place. -/
structure Held (h : Heap α) (table : Array Nat) : Prop where
  lt : ∀ i a : Nat, table[i]? = some a → a < h.size
  inj : ∀ i j a : Nat, table[i]? = some a → table[j]? = some a → i = j

/-- Two tables share no chunk. -/
def Apart (table other : Array Nat) : Prop :=
  ∀ i j a : Nat, table[i]? = some a → other[j]? ≠ some a

theorem Apart.symm {table other : Array Nat} (h : Apart table other) : Apart other table :=
  fun i j a e e' => h j i a e' e

variable {h h' : Heap α} {table table' other : Array Nat} {gen ci size i : Nat} {v : α}

theorem get_congr (hh : ∀ j a : Nat, other[j]? = some a → h'[a]? = h[a]?) :
    get h' other size i = get h other size i := by
  unfold get
  cases e : other[i / size]? with
  | none => rfl
  | some a => simp only [Option.bind_some, hh _ a e]

/-- A table that shows `n` items has as many places. -/
theorem le_places {n : Nat} (hget : ∀ i < n, get h table size i ≠ none) :
    n ≤ (places h table).length := by
  have hnodup : ((List.range n).map fun i => (i / size, i % size)).Nodup := by
    refine (List.nodup_map_iff_inj_on List.nodup_range).mpr fun i _ j _ e => ?_
    obtain ⟨ediv, emod⟩ := Prod.mk.inj e
    have hi := Nat.div_add_mod i size
    have hj := Nat.div_add_mod j size
    rw [ediv, emod] at hi
    exact hi.symm.trans hj
  have hsub : ((List.range n).map fun i => (i / size, i % size)) ⊆ places h table := by
    intro p hp
    obtain ⟨i, hi, rfl⟩ := List.mem_map.mp hp
    have hsome := hget i (List.mem_range.mp hi)
    cases ha : table[i / size]? with
    | none => simp [get, ha] at hsome
    | some a =>
      cases hc : h[a]? with
      | none => simp [get, ha, hc] at hsome
      | some c =>
        have hlt : i / size < table.size := (Array.getElem?_eq_some_iff.mp ha).1
        have hk : i % size < c.items.size := by
          by_contra hle
          simp [get, ha, hc, Nat.le_of_not_lt hle] at hsome
        refine List.mem_flatMap.mpr ⟨i / size, List.mem_range.mpr hlt, ?_⟩
        rw [ha, Option.bind_some, hc]
        exact List.mem_map.mpr ⟨i % size, List.mem_range.mpr hk, rfl⟩
  simpa using (hnodup.subperm hsub).length_le

/-- What owning a chunk does: nothing, or a copy at a fresh address. -/
theorem own_cases (e : own h table gen ci = some (h', table')) :
    ∃ a c, table[ci]? = some a ∧ h[a]? = some c ∧
      ((¬ c.born < gen ∧ h' = h ∧ table' = table) ∨
        (c.born < gen ∧ h' = h.push ⟨gen, c.items⟩ ∧ table' = table.setIfInBounds ci h.size)) := by
  simp only [own, Option.bind_eq_some_iff, Option.map_eq_some_iff] at e
  obtain ⟨a, ha, c, hc, e⟩ := e
  refine ⟨a, c, ha, hc, ?_⟩
  split at e
  · obtain ⟨rfl, rfl⟩ := Prod.mk.inj e
    exact .inr ⟨‹_›, rfl, rfl⟩
  · obtain ⟨rfl, rfl⟩ := Prod.mk.inj e
    exact .inl ⟨‹_›, rfl, rfl⟩

/-- The chunks that were there stay as they are. -/
theorem own_keeps (e : own h table gen ci = some (h', table')) {a : Nat} (ha : a < h.size) :
    h'[a]? = h[a]? := by
  obtain ⟨_, c, -, -, ⟨-, rfl, -⟩ | ⟨-, rfl, -⟩⟩ := own_cases e
  · rfl
  · rw [Array.getElem?_push, if_neg (by omega)]

theorem own_size (e : own h table gen ci = some (h', table')) : h.size ≤ h'.size := by
  obtain ⟨_, c, -, -, ⟨-, rfl, -⟩ | ⟨-, rfl, -⟩⟩ := own_cases e
  · exact Nat.le_refl _
  · simp

theorem own_other (e : own h table gen ci = some (h', table'))
    (ho : ∀ j a : Nat, other[j]? = some a → a < h.size) :
    get h' other size i = get h other size i :=
  get_congr fun j a ha => own_keeps e (ho j a ha)

/-- The addresses of the table after owning a chunk. -/
theorem own_table (e : own h table gen ci = some (h', table')) (j a : Nat)
    (ha : table'[j]? = some a) : table[j]? = some a ∨ (j = ci ∧ a = h.size ∧ h.size < h'.size) := by
  obtain ⟨_, c, hci, -, ⟨-, -, rfl⟩ | ⟨-, rfl, rfl⟩⟩ := own_cases e
  · exact .inl ha
  · rw [Array.getElem?_setIfInBounds] at ha
    split at ha
    · rename_i hj
      split at ha
      · exact .inr ⟨hj.symm, (Option.some.inj ha).symm, by simp⟩
      · cases ha
    · exact .inl ha

theorem own_held (hh : Held h table) (e : own h table gen ci = some (h', table')) :
    Held h' table' := by
  have hsize := own_size e
  constructor
  · intro i a ha
    obtain ha | ⟨-, rfl, hlt⟩ := own_table e i a ha
    · exact Nat.lt_of_lt_of_le (hh.lt i a ha) hsize
    · exact hlt
  · intro i j a hi hj
    obtain hi | ⟨rfl, rfl, -⟩ := own_table e i _ hi <;>
      obtain hj | ⟨rfl, hj', -⟩ := own_table e j _ hj
    · exact hh.inj i j a hi hj
    · exact absurd (hh.lt i a hi) (by omega)
    · exact absurd (hh.lt j _ hj) (by omega)
    · rfl

theorem own_apart (ha : Apart table other) (ho : ∀ j a : Nat, other[j]? = some a → a < h.size)
    (e : own h table gen ci = some (h', table')) : Apart table' other := by
  intro i j a hi hj
  obtain hi | ⟨-, rfl, -⟩ := own_table e i a hi
  · exact ha i j a hi hj
  · exact absurd (ho j _ hj) (by omega)

/-- Owning a chunk does not change what the table shows. -/
theorem own_get (hh : Held h table) (e : own h table gen ci = some (h', table')) :
    get h' table' size i = get h table size i := by
  obtain ⟨a, c, hci, hc, ⟨-, rfl, rfl⟩ | ⟨-, rfl, rfl⟩⟩ := own_cases e
  · rfl
  · have hlt : ci < table.size := (Array.getElem?_eq_some_iff.mp hci).1
    unfold get
    rw [Array.getElem?_setIfInBounds]
    by_cases hi : ci = i / size
    · rw [if_pos hi, if_pos hlt, ← hi, hci]
      simp [hc]
    · rw [if_neg hi]
      cases ht : table[i / size]? with
      | none => rfl
      | some b =>
        have := hh.lt _ b ht
        simp only [Option.bind_some]
        rw [Array.getElem?_push, if_neg (by omega)]

/-- After owning a chunk the table has it in the current generation, or a later one. -/
theorem own_born (e : own h table gen ci = some (h', table')) :
    ∃ a c, table'[ci]? = some a ∧ h'[a]? = some c ∧ gen ≤ c.born := by
  obtain ⟨a, c, hci, hc, ⟨hb, rfl, rfl⟩ | ⟨-, rfl, rfl⟩⟩ := own_cases e
  · exact ⟨a, c, hci, hc, Nat.le_of_not_lt hb⟩
  · have hlt : ci < table.size := (Array.getElem?_eq_some_iff.mp hci).1
    refine ⟨h.size, ⟨gen, c.items⟩, ?_, by simp, Nat.le_refl gen⟩
    rw [Array.getElem?_setIfInBounds, if_pos rfl, if_pos hlt]

theorem own_isSome (gen : Nat) (hh : Held h table) (hv : (get h table size i).isSome) :
    ∃ h' table', own h table gen (i / size) = some (h', table') := by
  unfold get at hv
  unfold own
  cases ht : table[i / size]? with
  | none => simp [ht] at hv
  | some a =>
    have hlt := hh.lt _ a ht
    simp only [Option.bind_some, Array.getElem?_eq_getElem hlt, Option.map_some]
    split <;> exact ⟨_, _, rfl⟩

theorem put_size (h : Heap α) (table : Array Nat) (size i : Nat) (v : α) :
    (put h table size i v).size = h.size := by
  unfold put
  split <;> simp

/-- A write reaches one chunk. -/
theorem put_keeps {a : Nat} (ha : table[i / size]? ≠ some a) :
    (put h table size i v)[a]? = h[a]? := by
  unfold put
  split
  · rfl
  · rename_i b hb
    rw [Array.getElem?_modify, if_neg]
    rintro rfl
    exact ha hb

theorem put_cases {a : Nat} {c : Chunk α} (hc : (put h table size i v)[a]? = some c) :
    h[a]? = some c ∨ ∃ c₀, h[a]? = some c₀ ∧ c.born = c₀.born ∧ table[i / size]? = some a := by
  by_cases ha : table[i / size]? = some a
  · unfold put at hc
    simp only [ha, Array.getElem?_modify, if_true, Option.map_eq_some_iff] at hc
    obtain ⟨c₀, hc₀, rfl⟩ := hc
    exact .inr ⟨c₀, hc₀, rfl, ha⟩
  · rw [put_keeps ha] at hc
    exact .inl hc

theorem put_held (hh : Held h table') : Held (put h table size i v) table' :=
  ⟨fun j a e => by rw [put_size]; exact hh.lt j a e, hh.inj⟩

theorem put_other (ha : Apart table other) {j : Nat} :
    get (put h table size i v) other size j = get h other size j :=
  get_congr fun k a hk => put_keeps fun e => ha _ k a e hk

theorem put_get (hh : Held h table) (hv : (get h table size i).isSome) (j : Nat) :
    get (put h table size i v) table size j = if j = i then some v else get h table size j := by
  unfold get at hv
  cases ht : table[i / size]? with
  | none => simp [ht] at hv
  | some a =>
    have hlt := hh.lt _ a ht
    simp only [ht, Option.bind_some, Array.getElem?_eq_getElem hlt] at hv
    have hoff : i % size < h[a].items.size := by
      by_contra hge
      rw [Array.getElem?_eq_none (by omega)] at hv
      cases hv
    unfold get put
    simp only [ht]
    cases ht' : table[j / size]? with
    | none =>
      have hne : j ≠ i := by rintro rfl; rw [ht] at ht'; cases ht'
      simp [hne]
    | some b =>
      have hltb := hh.lt _ b ht'
      simp only [Option.bind_some, Array.getElem?_modify]
      by_cases hab : a = b
      · subst hab
        have hq := hh.inj _ _ a ht ht'
        simp only [if_true, Array.getElem?_eq_getElem hlt, Option.map_some, Option.bind_some,
          Array.getElem?_setIfInBounds]
        by_cases hm : i % size = j % size
        · have hij : j = i := by
            rw [← Nat.div_add_mod i size, ← Nat.div_add_mod j size, hq, hm]
          rw [if_pos hm, if_pos hoff, if_pos hij]
        · rw [if_neg hm, if_neg (by rintro rfl; exact hm rfl)]
      · have hne : j ≠ i := by
          rintro rfl
          rw [ht] at ht'
          exact hab (Option.some.inj ht')
        rw [if_neg hab, if_neg hne]

/-- No chunk was born after generation `gen`. -/
def Aged (gen : Nat) (h : Heap α) : Prop := ∀ (a : Nat) c, h[a]? = some c → c.born ≤ gen

/-- `h'` is what may become of `h` while the generation goes from `gen` to
`gen'`: no older chunk has changed, and none was born too late. -/
structure Later (gen gen' : Nat) (h h' : Heap α) : Prop where
  frozen : ∀ (a : Nat) c, h[a]? = some c → c.born < gen → h'[a]? = some c
  aged : Aged gen h → Aged gen' h'

theorem Later.refl {gen gen' : Nat} (hg : gen ≤ gen') (h : Heap α) : Later gen gen' h h :=
  ⟨fun _ _ e _ => e, fun ha a c e => Nat.le_trans (ha a c e) hg⟩

theorem Later.trans {g₁ g₂ g₃ : Nat} {h₁ h₂ h₃ : Heap α} (hg : g₁ ≤ g₂) (h : Later g₁ g₂ h₁ h₂)
    (h' : Later g₂ g₃ h₂ h₃) : Later g₁ g₃ h₁ h₃ :=
  ⟨fun a c e hb => h'.frozen a c (h.frozen a c e hb) (Nat.lt_of_lt_of_le hb hg),
    fun ha => h'.aged (h.aged ha)⟩

theorem own_later (e : own h table gen ci = some (h', table')) : Later gen gen h h' := by
  refine ⟨fun a c ha _ => ?_, fun hle a c ha => ?_⟩
  · rw [own_keeps e (Array.getElem?_eq_some_iff.mp ha).1]
    exact ha
  · obtain ⟨_, c₀, -, -, ⟨-, rfl, -⟩ | ⟨-, rfl, -⟩⟩ := own_cases e
    · exact hle a c ha
    · rw [Array.getElem?_push] at ha
      split at ha
      · cases ha
        exact Nat.le_refl _
      · exact hle a c ha

/-- A table of chunks that are all of an earlier generation shows the same ever after. -/
theorem Later.get_eq {gen' : Nat} (hl : Later gen gen' h h') (hh : Held h other)
    (ha : ∀ (a : Nat) c, h[a]? = some c → c.born < gen) : get h' other size i = get h other size i :=
  get_congr fun j a hj => by
    have e := Array.getElem?_eq_getElem (hh.lt j a hj)
    rw [e, hl.frozen a _ e (ha a _ e)]

/-- A write into an owned chunk leaves every older chunk alone. -/
theorem own_put_later (e : own h table gen (i / size) = some (h', table')) :
    Later gen gen h (put h' table' size i v) := by
  have hl := own_later e
  obtain ⟨b, d, hb, hd, hborn⟩ := own_born e
  refine ⟨fun a c ha hc => ?_, fun hle a c ha => ?_⟩
  · have ha' := hl.frozen a c ha hc
    rw [put_keeps, ha']
    intro hi
    rw [hb] at hi
    cases hi
    rw [hd] at ha'
    cases ha'
    omega
  · obtain ha | ⟨c₀, ha, hc, -⟩ := put_cases ha
    · exact hl.aged hle a c ha
    · rw [hc]
      exact hl.aged hle a c₀ ha

/-- The addresses of a table are chunks of the heap, born when `p` says. -/
def Born (p : Nat → Prop) (h : Heap α) (table : Array Nat) : Prop :=
  ∀ i a : Nat, table[i]? = some a → ∃ c, h[a]? = some c ∧ p c.born

theorem Held.born (hh : Held h table) (ha : Aged gen h) : Born (· ≤ gen) h table := by
  intro i a hi
  have e := Array.getElem?_eq_getElem (hh.lt i a hi)
  exact ⟨_, e, ha a _ e⟩

theorem Born.mono {p q : Nat → Prop} (hb : Born p h table) (hpq : ∀ n, p n → q n) : Born q h table := by
  intro i a hi
  obtain ⟨c, hc, hp⟩ := hb i a hi
  exact ⟨c, hc, hpq _ hp⟩

theorem Later.born {gen' : Nat} (hl : Later gen gen' h h') (hb : Born (· < gen) h other) :
    Born (· < gen) h' other := by
  intro i a hi
  obtain ⟨c, hc, hlt⟩ := hb i a hi
  exact ⟨c, hl.frozen a c hc hlt, hlt⟩

theorem Held.count_eq_one {a : Nat} (hh : Held h table) (ha : table[ci]? = some a) :
    table.count a = 1 := by
  have hnodup : table.toList.Nodup := by
    refine List.nodup_iff_getElem?_ne_getElem?.mpr fun i j hij hj e => ?_
    rw [Array.getElem?_toList, Array.getElem?_toList] at e
    rw [Array.length_toList] at hj
    have hget := Array.getElem?_eq_getElem hj
    exact absurd (hh.inj i j _ (e.trans hget) hget) (Nat.ne_of_lt hij)
  rw [← Array.count_toList]
  refine List.count_eq_one_of_mem hnodup ?_
  exact Array.mem_toList_iff.mpr (Array.mem_of_getElem? ha)

/-- A chunk of the current generation is in no table of older ones. -/
theorem Born.count_eq_zero {a : Nat} {c : Chunk α} (hb : Born (· < gen) h other)
    (hc : h[a]? = some c) (hborn : gen ≤ c.born) : other.count a = 0 := by
  refine Array.count_eq_zero.mpr fun hmem => ?_
  obtain ⟨i, hi⟩ := Array.mem_iff_getElem?.mp hmem
  obtain ⟨c', hc', hlt⟩ := hb i a hi
  rw [hc] at hc'
  cases hc'
  omega

theorem Apart.count_eq_zero {a : Nat} (ha : Apart table other) (hi : table[ci]? = some a) :
    other.count a = 0 := by
  refine Array.count_eq_zero.mpr fun hmem => ?_
  obtain ⟨j, hj⟩ := Array.mem_iff_getElem?.mp hmem
  exact ha ci j a hi hj

/-- How many entries of a table are others than they were. -/
def replaced (table table' : Array Nat) : Nat :=
  ((Finset.range table.size).filter fun ci => table'[ci]? ≠ table[ci]?).card

@[simp] theorem replaced_self (table : Array Nat) : replaced table table = 0 := by
  simp [replaced]

theorem replaced_set {start : Array Nat} (hsize : table.size = start.size)
    (hsame : table[ci]? = start[ci]?) (hci : ci < table.size) {a : Nat} (ha : start[ci]? ≠ some a) :
    replaced start (table.setIfInBounds ci a) = replaced start table + 1 := by
  have hnew : (table.setIfInBounds ci a)[ci]? = some a := by
    rw [Array.getElem?_setIfInBounds, if_pos rfl, if_pos hci]
  have hinsert : (Finset.range start.size).filter
      (fun j => (table.setIfInBounds ci a)[j]? ≠ start[j]?) =
        insert ci ((Finset.range start.size).filter fun j => table[j]? ≠ start[j]?) := by
    ext j
    simp only [Finset.mem_filter, Finset.mem_range, Finset.mem_insert]
    by_cases hj : j = ci
    · subst hj
      rw [hnew]
      exact iff_of_true ⟨hsize ▸ hci, Ne.symm ha⟩ (.inl rfl)
    · rw [Array.getElem?_setIfInBounds, if_neg (Ne.symm hj)]
      exact ⟨.inr, fun h => h.resolve_left hj⟩
  rw [replaced, hinsert, Finset.card_insert_of_notMem, replaced]
  simp [hsame]

/-- What has come of a table since `start`: a chunk in another place than then is young. -/
structure Copied (gen : Nat) (start : Array Nat) (h : Heap α) (table : Array Nat) : Prop where
  size : table.size = start.size
  lt : ∀ ci a : Nat, start[ci]? = some a → a < h.size
  young : ∀ ci a : Nat, table[ci]? = some a → start[ci]? ≠ some a → ∃ c, h[a]? = some c ∧ gen ≤ c.born

theorem Held.copied (hh : Held h table) (gen : Nat) : Copied gen table h table :=
  ⟨rfl, hh.lt, fun _ _ e hne => absurd e hne⟩

/-- A heap in which the old chunks are as old as they were. -/
theorem Copied.grow {start : Array Nat} (hc : Copied gen start h table)
    (hsize : h.size ≤ h'.size)
    (hborn : ∀ (a : Nat) c, h[a]? = some c → ∃ c', h'[a]? = some c' ∧ c'.born = c.born) :
    Copied gen start h' table := by
  refine ⟨hc.size, fun ci a e => Nat.lt_of_lt_of_le (hc.lt ci a e) hsize, fun ci a e hne => ?_⟩
  obtain ⟨c, hget, hle⟩ := hc.young ci a e hne
  obtain ⟨c', hget', e'⟩ := hborn a c hget
  exact ⟨c', hget', e' ▸ hle⟩

theorem own_born_eq (e : own h table gen ci = some (h', table')) (a : Nat) (c : Chunk α)
    (ha : h[a]? = some c) : ∃ c', h'[a]? = some c' ∧ c'.born = c.born :=
  ⟨c, (own_keeps e (Array.getElem?_eq_some_iff.mp ha).1).trans ha, rfl⟩

theorem put_born_eq (a : Nat) (c : Chunk α) (ha : h[a]? = some c) :
    ∃ c', (put h table size i v)[a]? = some c' ∧ c'.born = c.born := by
  unfold put
  split
  · exact ⟨c, ha, rfl⟩
  · rw [Array.getElem?_modify]
    split
    · rw [ha]
      exact ⟨_, rfl, rfl⟩
    · exact ⟨c, ha, rfl⟩

/-- A chunk that was copied once is not copied again. -/
theorem Copied.own {start : Array Nat} (hc : Copied gen start h table)
    (e : own h table gen ci = some (h', table')) :
    Copied gen start h' table' ∧
      h'.size + replaced start table = h.size + replaced start table' ∧
      ∀ cj, cj ≠ ci → table'[cj]? = table[cj]? := by
  obtain ⟨a, c, hci, hget, ⟨-, rfl, rfl⟩ | ⟨hold, rfl, rfl⟩⟩ := own_cases e
  · exact ⟨hc, rfl, fun cj _ => rfl⟩
  have hlt : ci < table.size := (Array.getElem?_eq_some_iff.mp hci).1
  have hsame : table[ci]? = start[ci]? := by
    by_contra hne
    obtain ⟨c', hget', hle⟩ := hc.young ci a hci fun e' => hne (hci.trans e'.symm)
    rw [hget] at hget'
    cases hget'
    omega
  have hfresh : start[ci]? ≠ some h.size := fun e' => Nat.lt_irrefl _ (hc.lt ci _ e')
  refine ⟨⟨?_, fun cj b e' => ?_, fun cj b e' hne => ?_⟩, ?_, fun cj hne => ?_⟩
  · rw [Array.size_setIfInBounds, hc.size]
  · rw [Array.size_push]
    exact Nat.lt_succ_of_lt (hc.lt cj b e')
  · obtain e' | ⟨-, rfl, -⟩ := own_table e cj b e'
    · obtain ⟨c', hget', hle⟩ := hc.young cj b e' hne
      exact ⟨c', (own_keeps e (Array.getElem?_eq_some_iff.mp hget').1).trans hget', hle⟩
    · exact ⟨⟨gen, c.items⟩, by simp, Nat.le_refl _⟩
  · rw [replaced_set hc.size hsame hlt hfresh, Array.size_push]
    omega
  · rw [Array.getElem?_setIfInBounds, if_neg (Ne.symm hne)]

theorem fill_size (size n : Nat) (v : α) : (fill size n v).size = (n + size - 1) / size := by
  simp [fill]

/-- Full chunks show every item they were filled for, and no other. -/
theorem fill_get (hsize : 0 < size) (v : α) (n : Nat) (pre post : Heap α) (i : Nat) :
    get (pre ++ fill size n v ++ post)
        ((Array.range ((n + size - 1) / size)).map (· + pre.size)) size i =
      if i < n then some v else none := by
  have hdiv := Nat.div_add_mod i size
  have hmod := Nat.mod_lt i hsize
  unfold get
  rw [Array.getElem?_map, Array.getElem?_range]
  by_cases hc : i / size < (n + size - 1) / size
  · have hcell : (pre ++ fill size n v ++ post)[i / size + pre.size]? =
        some ⟨1, Array.replicate (min size (n - i / size * size)) v⟩ := by
      rw [Array.getElem?_append_left (by rw [Array.size_append, fill_size]; omega),
        Array.getElem?_append_right (Nat.le_add_left _ _), Nat.add_sub_cancel, fill,
        Array.getElem?_map, Array.getElem?_range, if_pos hc]
      rfl
    have hcomm := Nat.mul_comm (i / size) size
    simp only [if_pos hc, Option.map_some, Option.bind_some, hcell, Array.getElem?_replicate]
    congr 1
    refine propext (Nat.lt_min.trans ?_)
    omega
  · have hge : n ≤ i := by
      by_contra hlt
      refine hc ((Nat.lt_div_iff_mul_lt hsize).mpr ?_)
      rw [Nat.mul_comm]
      omega
    rw [if_neg hc, if_neg (by omega)]
    rfl

theorem range_held (n : Nat) (offset : Nat) (hn : offset + n ≤ h.size) :
    Held h ((Array.range n).map (· + offset)) := by
  have hval : ∀ i a : Nat, ((Array.range n).map (· + offset))[i]? = some a →
      i < n ∧ a = i + offset := by
    intro i a ha
    rw [Array.getElem?_map, Array.getElem?_range] at ha
    split at ha
    · exact ⟨‹_›, (Option.some.inj ha).symm⟩
    · cases ha
  exact ⟨fun i a ha => by have := hval i a ha; omega,
    fun i j a hi hj => by have := hval i a hi; have := hval j a hj; omega⟩

end Epoch
