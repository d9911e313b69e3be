import HiPerf.Lib.Epoch

/-!
A chunk table together with the chunks. A program gets at an item through the address of its
chunk, and may keep the address while it copies other chunks.
-/

namespace Epoch

structure Pages (α : Type) where
  heap : Heap α
  table : Array Nat

namespace Pages

variable {α : Type}

def get (p : Pages α) (size i : Nat) : Option α := Epoch.get p.heap p.table size i

/-- The address of chunk `ci`, which is copied first if it is older than generation `gen`. -/
def pin (p : Pages α) (gen ci : Nat) : Option (Nat × Pages α) :=
  (own p.heap p.table gen ci).bind fun (heap, table) => (table[ci]?).map fun a => (a, ⟨heap, table⟩)

/-- Item `k` of the chunk at address `a`. -/
def item (p : Pages α) (a k : Nat) : Option α := (p.heap[a]?).bind fun c => c.items[k]?

def setItem (p : Pages α) (a k : Nat) (v : α) : Pages α :=
  { p with heap := p.heap.modify a fun c => { c with items := c.items.setIfInBounds k v } }

/-- Chunks of the first generation for `n` copies of `v`. -/
def full (size n : Nat) (v : α) : Pages α := ⟨fill size n v, Array.range (fill size n v).size⟩

/-- Each address is that of a chunk and stands in one place; no chunk is of a later generation. -/
structure Sound (gen : Nat) (p : Pages α) : Prop where
  held : Held p.heap p.table
  aged : Aged gen p.heap

/-- The chunk in place `ci` is the one at address `a`, and it is young enough to be written. -/
structure Pins (gen ci a : Nat) (p : Pages α) : Prop where
  place : p.table[ci]? = some a
  young : ∃ c, p.heap[a]? = some c ∧ gen ≤ c.born

/-- What a write, or a copy before it, leaves as it was. -/
structure Grows (gen : Nat) (p p' : Pages α) : Prop where
  sound : Sound gen p'
  later : Epoch.Later gen gen p.heap p'.heap
  pins : ∀ ci a, Pins gen ci a p → Pins gen ci a p'
  shows : ∀ size i, (p.get size i).isSome → (p'.get size i).isSome

variable {gen size n i j a ci : Nat} {v : α} {p p' p'' : Pages α}

theorem Sound.grows (h : Sound gen p) : Grows gen p p :=
  ⟨h, .refl (Nat.le_refl gen) _, fun _ _ h => h, fun _ _ h => h⟩

theorem Grows.trans (h : Grows gen p p') (h' : Grows gen p' p'') : Grows gen p p'' :=
  ⟨h'.sound, h.later.trans (Nat.le_refl gen) h'.later, fun ci a hp => h'.pins ci a (h.pins ci a hp),
    fun size i hi => h'.shows size i (h.shows size i hi)⟩

theorem Sound.next (h : Sound gen p) : Sound (gen + 1) p :=
  ⟨h.held, fun a c e => Nat.le_succ_of_le (h.aged a c e)⟩

theorem pin_eq_some (e : p.pin gen ci = some (a, p')) :
    own p.heap p.table gen ci = some (p'.heap, p'.table) ∧ p'.table[ci]? = some a := by
  simp only [pin, Option.bind_eq_some_iff, Option.map_eq_some_iff] at e
  obtain ⟨⟨heap, table⟩, hown, b, hplace, e⟩ := e
  cases e
  exact ⟨hown, hplace⟩

theorem pin_pins (e : p.pin gen ci = some (a, p')) : Pins gen ci a p' := by
  obtain ⟨hown, hplace⟩ := pin_eq_some e
  obtain ⟨b, c, hb, hc, hle⟩ := own_born hown
  rw [hplace] at hb
  cases hb
  exact ⟨hplace, c, hc, hle⟩

theorem Sound.pin_get (h : Sound gen p) (e : p.pin gen ci = some (a, p')) (size i : Nat) :
    p'.get size i = p.get size i :=
  own_get h.held (pin_eq_some e).1

theorem Sound.pin (h : Sound gen p) (e : p.pin gen ci = some (a, p')) : Grows gen p p' := by
  obtain ⟨hown, -⟩ := pin_eq_some e
  have hlater := own_later hown
  refine ⟨⟨own_held h.held hown, hlater.aged h.aged⟩, hlater, ?_, fun size i hi => by
    rwa [h.pin_get e]⟩
  rintro cj b ⟨hplace, c, hc, hle⟩
  have hkeep := own_keeps hown (Array.getElem?_eq_some_iff.mp hc).1
  refine ⟨?_, c, hkeep.trans hc, hle⟩
  -- A chunk that is young enough is not copied.
  obtain ⟨b', c', hci, hc', ⟨-, -, htable⟩ | ⟨hold, -, htable⟩⟩ := own_cases hown
  · rw [htable]
    exact hplace
  · rw [htable, Array.getElem?_setIfInBounds, if_neg, hplace]
    rintro rfl
    rw [hplace] at hci
    cases hci
    rw [hc] at hc'
    cases hc'
    omega

theorem Sound.pin_isSome (h : Sound gen p) (hi : (p.get size i).isSome) :
    ∃ a p', p.pin gen (i / size) = some (a, p') := by
  obtain ⟨heap, table, hown⟩ := own_isSome gen h.held hi
  obtain ⟨a, c, ha, -, -⟩ := own_born hown
  refine ⟨a, ⟨heap, table⟩, ?_⟩
  simp only [Pages.pin, hown, Option.bind_some, ha, Option.map_some]

/-- An item through the address of its chunk. -/
theorem item_of_place (h : p.table[i / size]? = some a) : p.item a (i % size) = p.get size i := by
  simp only [item, get, Epoch.get, h, Option.bind_some]

theorem Pins.item (h : Pins gen (i / size) a p) : p.item a (i % size) = p.get size i :=
  item_of_place h.place

theorem setItem_eq_put (h : p.table[i / size]? = some a) (v : α) :
    p.setItem a (i % size) v = ⟨put p.heap p.table size i v, p.table⟩ := by
  simp only [setItem, put, h]

/-- A write makes no chunk shorter. -/
theorem put_shows {h : Heap α} {table : Array Nat} {size' : Nat}
    (hj : (Epoch.get h table size' j).isSome) :
    (Epoch.get (put h table size i v) table size' j).isSome := by
  unfold Epoch.get at hj ⊢
  cases ht : table[j / size']? with
  | none => simp [ht] at hj
  | some b =>
    rw [ht, Option.bind_some] at hj
    rw [Option.bind_some]
    unfold put
    cases table[i / size]? with
    | none => exact hj
    | some a =>
      simp only [Array.getElem?_modify]
      split
      · cases hb : h[b]? with
        | none => simp [hb] at hj
        | some c =>
          rw [hb, Option.bind_some] at hj
          simpa using hj
      · exact hj

theorem Pins.setItem_get (hp : Pins gen (i / size) a p) (h : Sound gen p)
    (hi : (p.get size i).isSome) (v : α) (j : Nat) :
    (p.setItem a (i % size) v).get size j = if j = i then some v else p.get size j := by
  rw [setItem_eq_put hp.place]
  exact put_get h.held hi j

theorem Pins.setItem (hp : Pins gen (i / size) a p) (h : Sound gen p) (v : α) :
    Grows gen p (p.setItem a (i % size) v) := by
  have hput := setItem_eq_put hp.place v
  obtain ⟨hplace, c, hc, hle⟩ := hp
  rw [hput]
  have hfrozen : ∀ (b : Nat) d, p.heap[b]? = some d → d.born < gen →
      (put p.heap p.table size i v)[b]? = some d := by
    intro b d hd hlt
    rw [put_keeps, hd]
    intro hb
    rw [hplace] at hb
    cases hb
    rw [hc] at hd
    cases hd
    omega
  have haged : Aged gen p.heap → Aged gen (put p.heap p.table size i v) := by
    intro ha b d hd
    obtain hd | ⟨d₀, hd₀, hborn, -⟩ := put_cases hd
    · exact ha b d hd
    · rw [hborn]
      exact ha b d₀ hd₀
  have hpins : ∀ cj b, Pins gen cj b p → Pins gen cj b ⟨put p.heap p.table size i v, p.table⟩ := by
    rintro cj b ⟨hb, d, hd, hle'⟩
    obtain ⟨d', hd', hborn⟩ := @put_born_eq α p.heap p.table size i v b d hd
    exact ⟨hb, d', hd', hborn ▸ hle'⟩
  refine ⟨⟨put_held h.held, haged h.aged⟩, ⟨hfrozen, haged⟩, hpins, fun size' j hj => ?_⟩
  exact put_shows hj

theorem full_get (hsize : 0 < size) (n : Nat) (v : α) (i : Nat) :
    (full size n v).get size i = if i < n then some v else none := by
  have h := Epoch.fill_get hsize v n #[] #[] i
  simp only [Array.append_empty, Array.empty_append, Array.size_empty, Nat.add_zero,
    Array.map_id'] at h
  rw [← h]
  simp only [get, full, fill_size]

theorem full_sound (size n : Nat) (v : α) : Sound 1 (full size n v) := by
  constructor
  · have h := @range_held α (fill size n v) (fill size n v).size 0 (by omega)
    simp only [Nat.add_zero, Array.map_id'] at h
    exact h
  · intro a c hc
    obtain ⟨ci, -, rfl⟩ := Array.mem_map.mp (Array.mem_of_getElem? hc)
    exact Nat.le_refl 1

/-- The addresses of a table that was taken in an earlier generation. -/
def Frozen (gen : Nat) (p : Pages α) (table : Array Nat) : Prop := Born (· < gen) p.heap table

theorem Sound.frozen (h : Sound gen p) : Frozen (gen + 1) p p.table :=
  (h.held.born h.aged).mono fun _ => Nat.lt_succ_of_le

theorem Frozen.grows {table : Array Nat} (h : Frozen gen p table) (hg : Grows gen p p') :
    Frozen gen p' table ∧ ∀ size i, Epoch.get p'.heap table size i = Epoch.get p.heap table size i := by
  refine ⟨hg.later.born h, fun size i => get_congr fun ci b hb => ?_⟩
  obtain ⟨c, hc, hlt⟩ := h ci b hb
  rw [hc]
  exact hg.later.frozen b c hc hlt

theorem Frozen.next {table : Array Nat} (h : Frozen gen p table) : Frozen (gen + 1) p table :=
  h.mono fun _ => Nat.lt_succ_of_lt

end Pages

end Epoch
