import HiPerf.Go.Probing

/-!
Any calls of the id map: the loops end, the map answers for the last put of each
key, and its arrays are those of a new map that only the surviving keys are put
in.
-/

namespace HiPerf.Go

open Machine Probe

variable {m m' : IdMap} {n : Nat} {k : Int} {v : Nat} {L L' : Contents} {capacity : Int}
  {ops : List IdOp}

def IdOp.after (L : Contents) : IdOp → Contents
  | put k v => L.put k v
  | get _ => L
  | del k => L.del k

/-- Calls on nonzero keys that never leave more than `capacity` keys in the map. -/
def Allowed (capacity : Int) : Contents → List IdOp → Prop
  | _, [] => True
  | L, op :: ops =>
    op.key ≠ 0 ∧ ((op.after L).length : Int) ≤ capacity ∧ Allowed capacity (op.after L) ops

/-- What is in the map in the end, by latest insertion. -/
def contents (ops : List IdOp) : Contents := ops.foldl IdOp.after []

theorem IdMap.Holds.apply (h : m.Holds n L) (hlen : L.length < n) {op : IdOp} (hk : op.key ≠ 0) :
    ∃ m', op.apply m = some m' ∧ m'.mask = m.mask ∧ m'.Holds n (op.after L) := by
  cases op with
  | put k v => exact h.put hlen hk v
  | get k => exact ⟨m, by rw [IdOp.apply, h.get hlen]; rfl, rfl, h⟩
  | del k => exact h.del hlen hk

theorem IdMap.Holds.run (h : m.Holds n L) (hlen : (L.length : Int) ≤ capacity) (hcap : capacity < n)
    (hops : Allowed capacity L ops) :
    ∃ m', m.run ops = some m' ∧ m'.mask = m.mask ∧ m'.Holds n (ops.foldl IdOp.after L) ∧
      ((ops.foldl IdOp.after L).length : Int) ≤ capacity := by
  induction ops generalizing m L with
  | nil => exact ⟨m, rfl, rfl, h, hlen⟩
  | cons op ops ih =>
    obtain ⟨hk, hlen', hops'⟩ := hops
    obtain ⟨m₁, e, hmask, h₁⟩ := h.apply (by omega) hk
    obtain ⟨m', e', hmask', h', hend⟩ := ih h₁ hlen' hops'
    refine ⟨m', ?_, hmask'.trans hmask, h', hend⟩
    rw [IdMap.run, List.foldlM_cons, e]
    exact e'

/-- The doubling ends at a power of two. -/
theorem double_ends {bound : Int} (hbound : bound ≤ 4611686018427387904) {fuel e : Nat} (he : e ≤ 62)
    (hfuel : 62 - e < fuel) :
    ∃ e' ≤ 62, double bound fuel ((2 ^ e : Nat) : Int) = some ((2 ^ e' : Nat) : Int) ∧
      bound ≤ ((2 ^ e' : Nat) : Int) := by
  induction fuel generalizing e with
  | zero => omega
  | succ fuel ih =>
    rw [double]
    split
    case isTrue hlt =>
      have he' : e < 62 := by
        by_contra hge
        obtain rfl : e = 62 := by omega
        omega
      have hpow : (2 ^ (e + 1) : Nat) ≤ 2 ^ 62 := Nat.pow_le_pow_right (by decide) he'
      have hnext : i64 (2 * ((2 ^ e : Nat) : Int)) = ((2 ^ (e + 1) : Nat) : Int) := by
        rw [Nat.pow_succ] at hpow ⊢
        unfold i64
        omega
      rw [hnext]
      exact ih he' (by omega)
    case isFalse hge => exact ⟨e, he, rfl, Int.not_lt.mp hge⟩

/-- A new map is empty, and has room for twice its capacity. -/
theorem newIDMap_holds (hpos : 1 ≤ capacity) (hcap : capacity ≤ 2305843009213693952) :
    ∃ m n, newIDMap capacity = some m ∧ m.Holds n [] ∧ capacity < n := by
  have hbound : i64 (capacity * 2) = capacity * 2 := by
    unfold i64
    omega
  obtain ⟨e, he, hdouble, hle⟩ := @double_ends (capacity * 2) (by omega) 65 0 (by decide) (by decide)
  have hpow : (2 ^ e : Nat) ≤ 2 ^ 62 := Nat.pow_le_pow_right (by decide) he
  have hone : 0 < 2 ^ e := Nat.two_pow_pos e
  have hmask : u64 (((2 ^ e : Nat) : Int) - 1) + 1 = 2 ^ e := by
    unfold u64
    omega
  set m : IdMap := ⟨Array.replicate (2 ^ e) 0, Array.replicate (2 ^ e) 0,
    u64 (((2 ^ e : Nat) : Int) - 1)⟩
  have hnew : newIDMap capacity = some m := by
    rw [newIDMap, hbound]
    exact congrArg (Option.map _) hdouble
  have hempty : m.keyAt = fun _ => none := by
    funext p
    rw [IdMap.keyAt, Array.getElem?_replicate]
    split <;> rfl
  refine ⟨m, 2 ^ e, hnew, ⟨⟨Array.size_replicate, Array.size_replicate, hmask, e, by omega, rfl⟩,
    ?_, fun k => ?_, ?_, List.nodup_nil⟩, by omega⟩
  · rw [hempty]
    exact settled_empty
  · rw [hempty]
    constructor
    · rintro ⟨_, _, hk⟩
      cases hk
    · intro hk
      cases hk
  · intro p _ k hk
    rw [hempty] at hk
    cases hk

theorem IdMap.Fits.keys_get (h : m.Fits n) {p : Nat} (hp : p < n) :
    m.keys[p]? = some ((m.keyAt p).getD 0) := by
  cases hk : m.keyAt p with
  | none => exact (h.keyAt_eq_none hp).mp hk
  | some k => exact (IdMap.keyAt_eq_some.mp hk).1

/-- The arrays of a map are determined by what it holds, but for the values that
empty places have left over. -/
theorem IdMap.Holds.same (h : m.Holds n L) (h' : m'.Holds n L) (hmask : m.mask = m'.mask) :
    m.keys = m'.keys ∧ ∀ p, m.keyAt p ≠ none → m.vals[p]? = m'.vals[p]? := by
  have hsame : ∀ p < n, m.keyAt p = m'.keyAt p := by
    intro p hp
    refine h.settled.unique h.fits.ideal_lt (hmask ▸ h'.settled) (fun k => ?_) hp
    rw [h.has, h'.has]
  refine ⟨Array.ext_getElem? fun p => ?_, fun p hsome => ?_⟩
  · by_cases hp : p < n
    · rw [h.fits.keys_get hp, h'.fits.keys_get hp, hsame p hp]
    · have hsize := h.fits.keys
      have hsize' := h'.fits.keys
      rw [Array.getElem?_eq_none (by omega), Array.getElem?_eq_none (by omega)]
  · obtain ⟨k, hk⟩ := Option.ne_none_iff_exists'.mp hsome
    have hpn : p < n := by
      have hget := (IdMap.keyAt_eq_some.mp hk).1
      rw [← h.fits.keys]
      exact (Array.getElem?_eq_some_iff.mp hget).1
    rw [h.gives p hpn k hk, h'.gives p hpn k (hsame p hpn ▸ hk)]

/-- Putting entries of distinct keys in turn. -/
theorem after_puts (L L' : Contents) (hnodup : (L ++ L').keys.Nodup) :
    (L'.map fun e => IdOp.put e.1 e.2).foldl IdOp.after L = L ++ L' := by
  induction L' generalizing L with
  | nil => simp
  | cons e L' ih =>
    have habsent : e.1 ∉ L.keys := by
      rw [Contents.keys_append, List.nodup_append'] at hnodup
      exact fun hmem => hnodup.2.2 hmem List.mem_cons_self
    have hput : IdOp.after L (.put e.1 e.2) = L ++ [e] := if_neg habsent
    rw [List.map_cons, List.foldl_cons, hput, ih (L ++ [e]) (by simpa using hnodup)]
    simp

theorem puts_allowed (L L' : Contents) (hnodup : (L ++ L').keys.Nodup)
    (hzero : ∀ k ∈ L'.keys, k ≠ 0) (hlen : ((L ++ L').length : Int) ≤ capacity) :
    Allowed capacity L (L'.map fun e => IdOp.put e.1 e.2) := by
  induction L' generalizing L with
  | nil => trivial
  | cons e L' ih =>
    have habsent : e.1 ∉ L.keys := by
      rw [Contents.keys_append, List.nodup_append'] at hnodup
      exact fun hmem => hnodup.2.2 hmem List.mem_cons_self
    have hput : IdOp.after L (.put e.1 e.2) = L ++ [e] := if_neg habsent
    rw [List.length_append, List.length_cons] at hlen
    refine ⟨hzero e.1 List.mem_cons_self, ?_, ?_⟩
    · rw [hput, List.length_append, List.length_singleton]
      omega
    · rw [hput]
      refine ih (L ++ [e]) (by simpa using hnodup) (fun k hk => hzero k (List.mem_cons_of_mem _ hk)) ?_
      simp only [List.length_append, List.length_singleton]
      omega

/-- Deletion leaves no trace among the keys: the keys of the table are exactly
those of a new one that the surviving entries are put in, by latest insertion,
and so are the values that go with them. -/
theorem leaves_no_trace (hpos : 1 ≤ capacity) (hcap : capacity ≤ 2305843009213693952)
    (hops : Allowed capacity [] ops) :
    ∃ m₀ m m', newIDMap capacity = some m₀ ∧ m₀.run ops = some m ∧
      m₀.run ((contents ops).map fun e => .put e.1 e.2) = some m' ∧
      m.keys = m'.keys ∧ m.mask = m'.mask ∧ ∀ p, m.keyAt p ≠ none → m.vals[p]? = m'.vals[p]? := by
  obtain ⟨m₀, n, hnew, h₀, hroom⟩ := newIDMap_holds hpos hcap
  obtain ⟨m, e, hmask, h, hlen⟩ := h₀.run (Int.le_trans (by decide) hpos) hroom hops
  have hzero : ∀ k ∈ (contents ops).keys, k ≠ 0 := by
    intro k hk
    obtain ⟨p, -, hp⟩ := (h.has k).mpr hk
    exact (IdMap.keyAt_eq_some.mp hp).2
  have hagain := puts_allowed [] (contents ops) h.nodup hzero hlen
  obtain ⟨m', e', hmask', h', -⟩ := h₀.run (Int.le_trans (by decide) hpos) hroom hagain
  rw [after_puts [] (contents ops) h.nodup, List.nil_append] at h'
  have hmasks := hmask.trans hmask'.symm
  obtain ⟨hkeys, hvals⟩ := h.same h' hmasks
  exact ⟨m₀, m, m', hnew, e, e', hkeys, hmasks, hvals⟩

/-- Two keys of one ideal place and a third; the second key moves up when the first goes. -/
def collisions : List IdOp := [.put 3 7, .put 11 8, .put 4 9, .get 11, .del 3]

theorem leaves_no_trace_collisions : Allowed 3 [] collisions ∧ ideal 7 3 = ideal 7 11 ∧
    ∃ m₀ m m', newIDMap 3 = some m₀ ∧ m₀.run collisions = some m ∧ m.keyAt (ideal 7 3) = some 11 ∧
      m₀.run ((contents collisions).map fun e => .put e.1 e.2) = some m' ∧
      m.keys = m'.keys ∧ m.mask = m'.mask ∧ ∀ p, m.keyAt p ≠ none → m.vals[p]? = m'.vals[p]? := by
  have hops : Allowed 3 [] collisions := by
    refine ⟨?_, ?_, ?_, ?_, ?_, ?_, ?_, ?_, ?_, ?_, trivial⟩ <;> decide
  have hmoved : ((newIDMap 3).bind fun m₀ =>
      (m₀.run collisions).bind fun m => m.keyAt (ideal 7 3)) = some 11 := by decide
  obtain ⟨m₀, m, m', hnew, e, e', h⟩ := leaves_no_trace (by decide) (by decide) hops
  rw [hnew, Option.bind_some, e, Option.bind_some] at hmoved
  exact ⟨hops, by decide, m₀, m, m', hnew, e, hmoved, e', h⟩

/-- A deleted value stays in the array, and a map for 2^62 keys has one place: the
second of two keys is never put. -/
theorem trace_left :
    (∃ m₀ m, newIDMap 1 = some m₀ ∧ Allowed 1 [] [.put 1 7, .del 1] ∧
      m₀.run [.put 1 7, .del 1] = some m ∧ contents [.put 1 7, .del 1] = [] ∧ m.vals ≠ m₀.vals) ∧
    ∃ m₀, newIDMap 4611686018427387904 = some m₀ ∧
      Allowed 4611686018427387904 [] [.put 1 7, .put 2 8] ∧ m₀.run [.put 1 7, .put 2 8] = none := by
  refine ⟨⟨⟨#[0, 0], #[0, 0], 1⟩, ⟨#[0, 0], #[0, 7], 1⟩, rfl, ?_, rfl, rfl, by decide⟩,
    ⟨#[0], #[0], 0⟩, rfl, ?_, rfl⟩
  · refine ⟨?_, ?_, ?_, ?_, trivial⟩ <;> decide
  · refine ⟨?_, ?_, ?_, ?_, trivial⟩ <;> decide

end HiPerf.Go
