import HiPerf.Go.IdMap
import Mathlib.Data.List.Perm.Subperm

/-!
What the id map holds after any puts and deletions: the table is settled by the
order in which the keys that are in it were put, so nothing else about the past
shows in it.
-/

namespace HiPerf.Go

open Machine Probe

variable {m m' : IdMap} {n i j p : Nat} {k : Int} {v : Nat}

namespace IdMap

/-- The key in a place. -/
def keyAt (m : IdMap) (p : Nat) : Option Int := (m.keys[p]?).filter (· ≠ 0)

/-- The arrays have one length, a power of two. -/
structure Fits (m : IdMap) (n : Nat) : Prop where
  keys : m.keys.size = n
  vals : m.vals.size = n
  mask : m.mask + 1 = n
  pow : ∃ e < 64, n = 2 ^ e

theorem Fits.pos (h : Fits m n) : 0 < n := by
  have := h.mask
  omega

theorem Fits.and_mask (h : Fits m n) (a : Nat) : a &&& m.mask = a % n := by
  obtain ⟨e, -, hn⟩ := h.pow
  have hmask : m.mask = 2 ^ e - 1 := by
    have := h.mask
    omega
  rw [hmask, Nat.and_two_pow_sub_one_eq_mod, hn]

theorem Fits.ideal_lt (h : Fits m n) (k : Int) : ideal m.mask k < n := by
  rw [ideal, h.and_mask]
  exact Nat.mod_lt _ h.pos

theorem Fits.after (h : Fits m n) (hi : i < n) : m.after i = next n i := by
  rw [IdMap.after, h.and_mask, next]
  split
  case isTrue e => rw [e, Nat.mod_self]
  case isFalse => exact Nat.mod_eq_of_lt (by omega)

theorem Fits.back (h : Fits m n) (hi : i < n) (hj : j < n) : m.back i j = ahead n i j := by
  obtain ⟨e, he, hn⟩ := h.pow
  obtain ⟨c, hc⟩ : n ∣ 2 ^ 64 := hn ▸ pow_dvd_pow 2 (Nat.le_of_lt he)
  have hbound : n ≤ 18446744073709551616 := Nat.le_of_dvd (by decide) ⟨c, hc⟩
  rw [IdMap.back, h.and_mask, ahead]
  split
  case isTrue hle =>
    have hu : u64 ((j : Int) - i) = j - i := by
      unfold u64
      omega
    rw [hu]
    exact Nat.mod_eq_of_lt (by omega)
  case isFalse hlt =>
    have hu : u64 ((j : Int) - i) = 18446744073709551616 + j - i := by
      unfold u64
      omega
    cases c with
    | zero => cases hc
    | succ c =>
      have hsum : 18446744073709551616 + j - i = j + n - i + n * c := by
        rw [Nat.mul_succ] at hc
        omega
      rw [hu, hsum, Nat.add_mul_mod_self_left]
      exact Nat.mod_eq_of_lt (by omega)

theorem keyAt_eq_some : m.keyAt p = some k ↔ m.keys[p]? = some k ∧ k ≠ 0 := by
  simp [keyAt, Option.filter_eq_some_iff]

theorem Fits.keyAt_eq_none (h : Fits m n) (hp : p < n) : m.keyAt p = none ↔ m.keys[p]? = some 0 := by
  have hget := Array.getElem?_eq_getElem (h.keys ▸ hp : p < m.keys.size)
  simp [keyAt, hget]

/-- Writing a key in a place. -/
theorem Fits.keyAt_set (h : Fits m n) (hi : i < n) (k : Int) (vals : Array Nat) (p : Nat) :
    ({ m with keys := m.keys.setIfInBounds i k, vals } : IdMap).keyAt p =
      place m.keyAt i (if k = 0 then none else some k) p := by
  by_cases hpi : p = i
  · subst hpi
    rw [place_self, keyAt, Array.getElem?_setIfInBounds_self_of_lt (h.keys.symm ▸ hi)]
    by_cases hk : k = 0 <;> simp [hk]
  · rw [place_ne _ _ hpi, keyAt, Array.getElem?_setIfInBounds_ne (Ne.symm hpi), keyAt]

theorem Fits.set (h : Fits m n) (i : Nat) (k : Int) (v : Nat) :
    Fits { m with keys := m.keys.setIfInBounds i k, vals := m.vals.setIfInBounds i v } n :=
  ⟨(Array.size_setIfInBounds ..).trans h.keys, (Array.size_setIfInBounds ..).trans h.vals, h.mask,
    h.pow⟩

/-- The values of the keys in the table. -/
def Gives (m : IdMap) (n : Nat) (val : Int → Option Nat) : Prop :=
  ∀ p < n, ∀ k, m.keyAt p = some k → m.vals[p]? = val k

/-- The key at `j` moves into the gap at `i`. -/
theorem Fits.keyAt_move (h : Fits m n) (hi : i < n) (hj : j < n) (hk : k ≠ 0) (vals : Array Nat) :
    ({ m with keys := (m.keys.setIfInBounds i k).setIfInBounds j 0, vals } : IdMap).keyAt =
      place (place m.keyAt i (some k)) j none := by
  have hset : Fits { m with keys := m.keys.setIfInBounds i k } n :=
    ⟨(Array.size_setIfInBounds ..).trans h.keys, h.vals, h.mask, h.pow⟩
  funext p
  have hfirst : ({ m with keys := m.keys.setIfInBounds i k } : IdMap).keyAt =
      place m.keyAt i (some k) := by
    funext p
    exact (h.keyAt_set hi k m.vals p).trans (by rw [if_neg hk])
  rw [← hfirst]
  exact hset.keyAt_set hj 0 vals p

/-- The loop that closes a gap ends before a free place, with the same keys and
values in a settled table. -/
theorem compact_settles {rank : Int → Nat} {val : Int → Option Nat} {fuel free : Nat}
    (h : Fits m n) (hi : i < n) (hj : j < n) (hfree : free < n) (hempty : m.keyAt free = none)
    (hi' : i ≠ free) (hj' : j ≠ free) (hfuel : ahead n j free ≤ fuel)
    (hhole : Holed n (ideal m.mask) rank m.keyAt i j) (hgives : Gives m n val) :
    ∃ m', compact fuel i j m = some m' ∧ Fits m' n ∧ m'.mask = m.mask ∧
      Settled n (ideal m.mask) rank m'.keyAt ∧ (∀ k, Has n m'.keyAt k ↔ Has n m.keyAt k) ∧
      Gives m' n val := by
  induction fuel generalizing i j m with
  | zero =>
    have := ahead_pos hj hj'
    omega
  | succ fuel ih =>
    have hstep := ahead_next hj hfree hj'
    have hnext := next_lt hj
    obtain ⟨k, hkey⟩ : ∃ k, m.keys[next n j]? = some k :=
      ⟨_, Array.getElem?_eq_getElem (h.keys.symm ▸ hnext)⟩
    obtain ⟨v, hval⟩ : ∃ v, m.vals[next n j]? = some v :=
      ⟨_, Array.getElem?_eq_getElem (h.vals.symm ▸ hnext)⟩
    simp only [compact, h.after hj, hkey, hval]
    by_cases hk : k = 0
    · rw [if_pos hk]
      have hclosed := (h.keyAt_eq_none hnext).mpr (hk ▸ hkey)
      exact ⟨m, rfl, h, rfl, hhole.close h.ideal_lt hi hj hclosed, fun _ => Iff.rfl, hgives⟩
    rw [if_neg hk, h.back hi hnext, h.back (h.ideal_lt k) hnext]
    have hx := keyAt_eq_some.mpr ⟨hkey, hk⟩
    have hne : next n j ≠ free := by
      intro e
      rw [e, hempty] at hx
      cases hx
    split
    case isTrue hbefore =>
      set m₁ : IdMap := { m with
        keys := (m.keys.setIfInBounds i k).setIfInBounds (next n j) 0
        vals := m.vals.setIfInBounds i v }
      have hkeyAt : m₁.keyAt = place (place m.keyAt i (some k)) (next n j) none :=
        h.keyAt_move hi hnext hk _
      have hfits : Fits m₁ n :=
        ⟨(Array.size_setIfInBounds ..).trans ((Array.size_setIfInBounds ..).trans h.keys),
          (Array.size_setIfInBounds ..).trans h.vals, h.mask, h.pow⟩
      have hempty' : m₁.keyAt free = none := by
        rw [hkeyAt, place_ne _ _ (Ne.symm hne), place_ne _ _ (Ne.symm hi'), hempty]
      have hhole' : Holed n (ideal m₁.mask) rank m₁.keyAt (next n j) (next n j) := by
        rw [hkeyAt]
        exact hhole.move h.ideal_lt hi hj hx hbefore
      have hgives' : Gives m₁ n val := by
        intro p hp k' hk'
        rw [hkeyAt] at hk'
        by_cases hpj : p = next n j
        · rw [hpj, place_self] at hk'
          cases hk'
        rw [place_ne _ _ hpj] at hk'
        by_cases hpi : p = i
        · subst hpi
          rw [place_self] at hk'
          cases hk'
          rw [← hgives _ hnext k hx, hval]
          exact Array.getElem?_setIfInBounds_self_of_lt (h.vals.symm ▸ hp)
        · rw [place_ne _ _ hpi] at hk'
          rw [← hgives p hp k' hk']
          exact Array.getElem?_setIfInBounds_ne (Ne.symm hpi)
      obtain ⟨m', e, hfits', hmask, hsettled, hhas, hvals⟩ :=
        ih hfits hnext hnext hempty' hne hne (by omega) hhole' hgives'
      refine ⟨m', e, hfits', hmask, hsettled, fun k' => (hhas k').trans ?_, hvals⟩
      rw [hkeyAt]
      exact has_move hi hnext hhole.hole hx
    case isFalse hafter =>
      exact ih h hi hnext hempty hi' hne (by omega)
        (hhole.keep h.ideal_lt hi hj hx (Nat.lt_of_not_le hafter)) hgives

end IdMap

/-- What the map should hold: its keys in the order they were put, with their values. -/
abbrev Contents := List (Int × Nat)

namespace Contents

variable {L : Contents} {k' : Int}

def keys (L : Contents) : List Int := L.map Prod.fst

def put (L : Contents) (k : Int) (v : Nat) : Contents :=
  if k ∈ L.keys then L.map fun e => if e.1 = k then (k, v) else e else L ++ [(k, v)]

def del (L : Contents) (k : Int) : Contents := L.filter fun e => e.1 ≠ k

/-- The value of a key. -/
def valueOf (L : Contents) (k : Int) : Option Nat := (L.find? fun e => e.1 = k).map Prod.snd

/-- When a key was put, against the others. -/
def rank (L : Contents) (k : Int) : Nat := L.keys.idxOf k

theorem keys_append (L L' : Contents) : keys (L ++ L') = L.keys ++ L'.keys := List.map_append

theorem put_keys (L : Contents) (k : Int) (v : Nat) :
    (L.put k v).keys = if k ∈ L.keys then L.keys else L.keys ++ [k] := by
  rw [put]
  split
  · rw [keys, List.map_map]
    refine List.map_congr_left fun e _ => ?_
    by_cases he : e.1 = k <;> simp [he]
  · rw [keys_append]
    rfl

theorem del_keys (L : Contents) (k : Int) : (L.del k).keys = L.keys.filter (· ≠ k) := by
  rw [del, keys, keys, List.filter_map]
  rfl

theorem valueOf_cons (e : Int × Nat) (L : Contents) (k : Int) :
    valueOf (e :: L) k = if e.1 = k then some e.2 else L.valueOf k := by
  rw [valueOf, List.find?_cons]
  by_cases he : e.1 = k <;> simp [he, valueOf]

theorem valueOf_eq_none : L.valueOf k = none ↔ k ∉ L.keys := by
  simp only [valueOf, Option.map_eq_none_iff, List.find?_eq_none, decide_eq_true_eq, keys,
    List.mem_map, not_exists, not_and]

theorem valueOf_append (L L' : Contents) :
    valueOf (L ++ L') k = (L.valueOf k).or (L'.valueOf k) := by
  rw [valueOf, List.find?_append, Option.map_or]
  rfl

theorem valueOf_put (L : Contents) (k : Int) (v : Nat) (k' : Int) :
    (L.put k v).valueOf k' = if k' = k then some v else L.valueOf k' := by
  rw [put]
  split
  case isTrue hmem =>
    by_cases hk : k' = k
    · subst hk
      rw [if_pos rfl]
      induction L with
      | nil => cases hmem
      | cons e L ih =>
        rw [List.map_cons, valueOf_cons]
        by_cases he : e.1 = k'
        · simp [he]
        · rw [keys, List.map_cons, List.mem_cons] at hmem
          simp only [he, if_false]
          exact ih (hmem.resolve_left (Ne.symm he))
    · rw [if_neg hk]
      clear hmem
      induction L with
      | nil => rfl
      | cons e L ih =>
        rw [List.map_cons, valueOf_cons, valueOf_cons, ih]
        by_cases he : e.1 = k
        · simp [he, Ne.symm hk]
        · simp [he]
  case isFalse hmem =>
    rw [valueOf_append]
    by_cases hk : k' = k
    · rw [if_pos hk, hk, valueOf_eq_none.mpr hmem]
      simp [valueOf]
    · rw [if_neg hk]
      have hnone : valueOf [(k, v)] k' = none := by
        simp [valueOf, Ne.symm hk]
      rw [hnone, Option.or_none]

theorem valueOf_del (L : Contents) (k k' : Int) :
    (L.del k).valueOf k' = if k' = k then none else L.valueOf k' := by
  split
  case isTrue hk =>
    rw [valueOf_eq_none, del_keys]
    simp [hk]
  case isFalse hk =>
    rw [valueOf, del, List.find?_filter, valueOf]
    congr 2
    funext e
    by_cases he : e.1 = k' <;> simp [he, hk]

theorem rank_append (h : k' ∈ L.keys) : rank (L ++ [(k, v)]) k' = L.rank k' := by
  rw [rank, keys_append, List.idxOf_append_of_mem h, rank]

theorem rank_last (h : k ∉ L.keys) : rank (L ++ [(k, v)]) k = L.length := by
  rw [rank, keys_append, List.idxOf_append_of_notMem h, keys, List.length_map]
  simp [keys]

theorem rank_lt (h : k ∈ L.keys) : L.rank k < L.length := by
  rw [← List.length_map (f := Prod.fst)]
  exact List.idxOf_lt_length_iff.mpr h

/-- Leaving some keys out does not change the order of the others. -/
theorem idxOf_filter_lt {l : List Int} {keep : Int → Bool} (hk : k ∈ l) (hkeep : keep k = true)
    (hlt : l.idxOf k < l.idxOf k') : (l.filter keep).idxOf k < (l.filter keep).idxOf k' := by
  induction l with
  | nil => cases hk
  | cons a l ih =>
    by_cases hak : a = k
    · subst hak
      by_cases hak' : a = k'
      · rw [hak'] at hlt
        exact absurd hlt (Nat.lt_irrefl _)
      · rw [List.filter_cons_of_pos hkeep, List.idxOf_cons_self, List.idxOf_cons_ne _ hak']
        exact Nat.succ_pos _
    · by_cases hak' : a = k'
      · rw [hak', List.idxOf_cons_self] at hlt
        exact absurd hlt (Nat.not_lt_zero _)
      · rw [List.idxOf_cons_ne _ hak, List.idxOf_cons_ne _ hak'] at hlt
        have hmem := (List.mem_cons.mp hk).resolve_left (Ne.symm hak)
        have hle := ih hmem (Nat.lt_of_succ_lt_succ hlt)
        cases ha : keep a with
        | true =>
          rw [List.filter_cons_of_pos ha, List.idxOf_cons_ne _ hak, List.idxOf_cons_ne _ hak']
          exact Nat.succ_lt_succ hle
        | false =>
          rw [List.filter_cons_of_neg (by rw [ha]; exact Bool.false_ne_true)]
          exact hle

theorem rank_del (hmem : k' ∈ L.keys) (hne : k' ≠ k) {k'' : Int} (hlt : L.rank k' < L.rank k'') :
    (L.del k).rank k' < (L.del k).rank k'' := by
  rw [rank, rank, del_keys]
  exact idxOf_filter_lt hmem (decide_eq_true hne) hlt

end Contents

variable {L : Contents}

/-- The map holds `L`. -/
structure IdMap.Holds (m : IdMap) (n : Nat) (L : Contents) : Prop where
  fits : m.Fits n
  settled : Settled n (ideal m.mask) L.rank m.keyAt
  has : ∀ k, Has n m.keyAt k ↔ k ∈ L.keys
  gives : m.Gives n L.valueOf
  nodup : L.keys.Nodup

namespace IdMap.Holds

/-- The probing for a key ends at the key, or at the free place where it belongs. -/
theorem probe (h : m.Holds n L) (hlen : L.length < n) (k : Int) :
    ∃ i < n, m.probe k = some i ∧
      (m.keyAt i = some k ∨ m.keyAt i = none ∧ k ∉ L.keys) ∧
      ∀ q < n, ahead n (ideal m.mask k) q < ahead n (ideal m.mask k) i → m.keyAt q ≠ none := by
  obtain ⟨free, hfree, hempty⟩ := h.settled.exists_free h.fits.ideal_lt (fun y => (h.has y).mp)
    ((List.length_map _).trans_lt hlen)
  have hhome := h.fits.ideal_lt k
  let stop : Nat → Bool := fun i => m.keys[i]? = some 0 || m.keys[i]? = some k
  have hstop : stop free = true := by
    simp only [stop, (h.fits.keyAt_eq_none hfree).mp hempty, decide_true, Bool.true_or]
  obtain ⟨i, hi, hseek, hs, hmin⟩ := seek_stops hhome hfree hstop (ahead_lt hhome hfree)
  have hkept : ∀ q < n, ahead n (ideal m.mask k) q < ahead n (ideal m.mask k) i →
      m.keyAt q ≠ none ∧ m.keyAt q ≠ some k := by
    intro q hq hlt
    have hq' := hmin q hq hlt
    simp only [stop, Bool.or_eq_false_iff, decide_eq_false_iff_not] at hq'
    exact ⟨fun h0 => hq'.1 ((h.fits.keyAt_eq_none hq).mp h0),
      fun hk => hq'.2 (keyAt_eq_some.mp hk).1⟩
  refine ⟨i, hi, ?_, ?_, fun q hq hlt => (hkept q hq hlt).1⟩
  · rw [IdMap.probe, h.fits.keys, ← hseek]
    refine seek_congr (fun j hj => ?_) (fun j hj => h.fits.after hj) hhome n
    rw [h.fits.after hj]
    exact next_lt hj
  · by_cases hnone : m.keyAt i = none
    · refine .inr ⟨hnone, fun hmem => ?_⟩
      obtain ⟨p, hp, hk⟩ := (h.has k).mpr hmem
      obtain hlt | heq | hgt := Nat.lt_trichotomy (ahead n (ideal m.mask k) p) (ahead n (ideal m.mask k) i)
      · exact (hkept p hp hlt).2 hk
      · rw [ahead_inj hhome hp hi heq, hnone] at hk
        cases hk
      · obtain ⟨z, hz, -⟩ := h.settled p hp k hk i hi hgt
        rw [hnone] at hz
        cases hz
    · obtain ⟨k', hk'⟩ := Option.ne_none_iff_exists'.mp hnone
      obtain ⟨hget, h0⟩ := keyAt_eq_some.mp hk'
      simp only [stop, hget, Option.some.injEq, Bool.or_eq_true, decide_eq_true_eq, h0, false_or] at hs
      exact .inl (hs ▸ hk')

theorem put (h : m.Holds n L) (hlen : L.length < n) (hk : k ≠ 0) (v : Nat) :
    ∃ m', m.put k v = some m' ∧ m'.mask = m.mask ∧ m'.Holds n (L.put k v) := by
  obtain ⟨i, hi, hprobe, hfound, hway⟩ := h.probe hlen k
  set m' : IdMap := { m with keys := m.keys.setIfInBounds i k, vals := m.vals.setIfInBounds i v }
  refine ⟨m', by rw [IdMap.put, hprobe]; rfl, rfl, ?_⟩
  have hfits : m'.Fits n := h.fits.set i k v
  have hkeyAt : m'.keyAt = place m.keyAt i (some k) := by
    funext p
    exact (h.fits.keyAt_set hi k _ p).trans (by rw [if_neg hk])
  have hkeys := L.put_keys k v
  have hgives : m'.Gives n (L.put k v).valueOf := by
    intro p hp k' hk'
    rw [hkeyAt] at hk'
    rw [L.valueOf_put]
    by_cases hpi : p = i
    · subst hpi
      rw [place_self] at hk'
      cases hk'
      rw [if_pos rfl]
      exact Array.getElem?_setIfInBounds_self_of_lt (h.fits.vals.symm ▸ hp)
    · rw [place_ne _ _ hpi] at hk'
      have hne : k' ≠ k := by
        rintro rfl
        obtain hfound | ⟨-, habsent⟩ := hfound
        · exact hpi (h.settled.injective h.fits.ideal_lt hp hi hk' hfound)
        · exact habsent ((h.has k').mp ⟨p, hp, hk'⟩)
      rw [if_neg hne, ← h.gives p hp k' hk']
      exact Array.getElem?_setIfInBounds_ne (Ne.symm hpi)
  obtain hfound | ⟨hnone, habsent⟩ := hfound
  · have hmem := (h.has k).mp ⟨i, hi, hfound⟩
    rw [if_pos hmem] at hkeys
    have hsame : place m.keyAt i (some k) = m.keyAt := by
      funext p
      by_cases hpi : p = i
      · rw [hpi, place_self, hfound]
      · exact place_ne _ _ hpi
    have hrank : (L.put k v).rank = L.rank := by
      funext k'
      rw [Contents.rank, hkeys, Contents.rank]
    refine ⟨hfits, ?_, ?_, hgives, hkeys ▸ h.nodup⟩
    · rw [hkeyAt, hsame, hrank]
      exact h.settled
    · rw [hkeyAt, hsame, hkeys]
      exact h.has
  · rw [if_neg habsent] at hkeys
    refine ⟨hfits, ?_, fun k' => ?_, hgives, ?_⟩
    · rw [hkeyAt]
      have hput : L.put k v = L ++ [(k, v)] := if_neg habsent
      rw [hput]
      refine (h.settled.mono fun z y hz hy hlt => ?_).put hi hnone hway fun z hz => ?_
      · rw [Contents.rank_append ((h.has z).mp hz), Contents.rank_append ((h.has y).mp hy)]
        exact hlt
      · rw [Contents.rank_append ((h.has z).mp hz), Contents.rank_last habsent]
        exact Contents.rank_lt ((h.has z).mp hz)
    · rw [hkeyAt, has_put hi hnone, h.has, hkeys, List.mem_append, List.mem_singleton, or_comm]
    · rw [hkeys]
      exact List.nodup_append'.mpr ⟨h.nodup, List.nodup_singleton k, by simpa using habsent⟩

theorem get (h : m.Holds n L) (hlen : L.length < n) (k : Int) :
    m.get k = some ((L.valueOf k).getD NIL) := by
  rw [IdMap.get]
  have hzero : (0 : Int) ∉ L.keys := fun h0 => by
    obtain ⟨p, hp, hk⟩ := (h.has 0).mpr h0
    exact (keyAt_eq_some.mp hk).2 rfl
  split
  case isTrue hk =>
    rw [hk, Contents.valueOf_eq_none.mpr hzero]
    rfl
  case isFalse hk =>
    obtain ⟨i, hi, hprobe, hfound, -⟩ := h.probe hlen k
    rw [hprobe, Option.bind_some]
    obtain hfound | ⟨hnone, habsent⟩ := hfound
    · rw [if_pos (keyAt_eq_some.mp hfound).1, h.gives i hi k hfound]
      obtain ⟨v, hv⟩ := Option.ne_none_iff_exists'.mp fun h0 =>
        Contents.valueOf_eq_none.mp h0 ((h.has k).mp ⟨i, hi, hfound⟩)
      rw [hv]
      rfl
    · have hget := (h.fits.keyAt_eq_none hi).mp hnone
      rw [if_neg (by rw [hget]; exact fun e => hk (Option.some.inj e).symm),
        Contents.valueOf_eq_none.mpr habsent]
      rfl

theorem del (h : m.Holds n L) (hlen : L.length < n) (hk : k ≠ 0) :
    ∃ m', m.del k = some m' ∧ m'.mask = m.mask ∧ m'.Holds n (L.del k) := by
  obtain ⟨i, hi, hprobe, hfound, -⟩ := h.probe hlen k
  rw [IdMap.del, hprobe, Option.bind_some]
  obtain hfound | ⟨hnone, habsent⟩ := hfound
  · rw [if_pos (keyAt_eq_some.mp hfound).1]
    obtain ⟨free, hfree, hempty⟩ := h.settled.exists_free h.fits.ideal_lt (fun y => (h.has y).mp)
      ((List.length_map _).trans_lt hlen)
    have hne : i ≠ free := by
      rintro rfl
      rw [hfound] at hempty
      cases hempty
    set m₁ : IdMap := { m with keys := m.keys.setIfInBounds i 0 }
    have hfits : m₁.Fits n :=
      ⟨(Array.size_setIfInBounds ..).trans h.fits.keys, h.fits.vals, h.fits.mask, h.fits.pow⟩
    have hkeyAt : m₁.keyAt = place m.keyAt i none := by
      funext p
      exact h.fits.keyAt_set hi 0 m.vals p
    have hhole : Holed n (ideal m₁.mask) L.rank m₁.keyAt i i := by
      rw [hkeyAt]
      exact h.settled.remove hi
    have hempty' : m₁.keyAt free = none := by
      rw [hkeyAt, place_ne _ _ (Ne.symm hne), hempty]
    have hgives : m₁.Gives n L.valueOf := by
      intro p hp k' hk'
      rw [hkeyAt] at hk'
      by_cases hpi : p = i
      · rw [hpi, place_self] at hk'
        cases hk'
      · rw [place_ne _ _ hpi] at hk'
        exact h.gives p hp k' hk'
    have hbound := ahead_lt hi hfree
    have hsize := h.fits.keys
    obtain ⟨m', e, hfits', hmask, hsettled, hhas, hgives'⟩ :=
      compact_settles hfits hi hi hfree hempty' hne hne (by omega : ahead n i free ≤ 2 * m.keys.size)
        hhole hgives
    have hkeys : ∀ k', Has n m'.keyAt k' ↔ k' ∈ (L.del k).keys := by
      intro k'
      rw [hhas, hkeyAt, h.settled.has_remove h.fits.ideal_lt hi hfound, h.has, L.del_keys,
        List.mem_filter, decide_eq_true_eq, and_comm]
    refine ⟨m', e, hmask, ⟨hfits', ?_, hkeys, fun p hp k' hk' => ?_, ?_⟩⟩
    · rw [hmask]
      refine hsettled.mono fun z y hz hy hlt => ?_
      have hz' := (hkeys z).mp hz
      rw [L.del_keys, List.mem_filter, decide_eq_true_eq] at hz'
      exact Contents.rank_del hz'.1 hz'.2 hlt
    · have hmem := (hkeys k').mp ⟨p, hp, hk'⟩
      rw [L.del_keys, List.mem_filter, decide_eq_true_eq] at hmem
      rw [L.valueOf_del, if_neg hmem.2]
      exact hgives' p hp k' hk'
    · rw [L.del_keys]
      exact h.nodup.filter _
  · have hget := (h.fits.keyAt_eq_none hi).mp hnone
    have hsame : L.del k = L := by
      refine List.filter_eq_self.mpr fun e he => decide_eq_true fun hek => habsent ?_
      exact hek ▸ List.mem_map_of_mem he
    rw [if_neg (by rw [hget]; exact fun e => hk (Option.some.inj e).symm), hsame]
    exact ⟨m, rfl, rfl, h⟩

end IdMap.Holds

end HiPerf.Go
