import Mathlib.Data.List.Basic
import Mathlib.Tactic.Common

/-!
Hash maps from 64-bit keys, as far as their callers can tell: the calls, the laws they rely on,
and maps that keep the laws. A call that throws gives the text.
-/

namespace HashMaps

/-- The keys of a map that has `keys`, once `k` was put. -/
def putKey (k : Int) (keys : List Int) : List Int := k :: keys.filter (· ≠ k)

def removeKey (k : Int) (keys : List Int) : List Int := keys.filter (· ≠ k)

/-- A map to objects, made for an initial capacity with the load factor one half. What is not
there is null, which is `none`. -/
structure Long2ObjectHashMap (α : Type) where
  Map : Type
  new : Int → Except String Map
  get : Map → Int → Option α
  put : Map → Int → α → Except String Map
  remove : Map → Int → Option α × Map
  clear : Map → Map

/-- A map to longs, made with the value that stands for what is not there. -/
structure Long2LongHashMap where
  Map : Type
  new : Int → Map
  missingValue : Map → Int
  get : Map → Int → Int
  put : Map → Int → Int → Except String Map
  remove : Map → Int → Int × Map
  clear : Map → Map

/-- The table can be made with up to 2^30 places, and grows to as many: half of them are for
keys. -/
structure Long2ObjectHashMap.Lawful {α : Type} (om : Long2ObjectHashMap α) : Prop where
  new_ok : ∀ capacity, 0 ≤ capacity → capacity ≤ 1073741824 →
    ∃ t, om.new capacity = .ok t ∧ ∀ k, om.get t k = none
  put_ok : ∀ t k v keys, (∀ j, om.get t j ≠ none → j ∈ keys) → (putKey k keys).length ≤ 536870912 →
    ∃ t', om.put t k v = .ok t' ∧ ∀ j, om.get t' j = if j = k then some v else om.get t j
  remove_eq : ∀ t k, ∃ t', om.remove t k = (om.get t k, t') ∧
    ∀ j, om.get t' j = if j = k then none else om.get t j
  clear_get : ∀ t k, om.get (om.clear t) k = none

/-- A key and its value take two places of an array of at most 2^30, of which more than half
may be taken. The missing value cannot be put. -/
structure Long2LongHashMap.Lawful (lm : Long2LongHashMap) : Prop where
  new_missing : ∀ v, lm.missingValue (lm.new v) = v
  new_get : ∀ v k, lm.get (lm.new v) k = v
  put_ok : ∀ t k v keys, v ≠ lm.missingValue t → (∀ j, lm.get t j ≠ lm.missingValue t → j ∈ keys) →
    (putKey k keys).length ≤ 268435456 →
    ∃ t', lm.put t k v = .ok t' ∧ lm.missingValue t' = lm.missingValue t ∧
      ∀ j, lm.get t' j = if j = k then v else lm.get t j
  remove_eq : ∀ t k, ∃ t', lm.remove t k = (lm.get t k, t') ∧
    lm.missingValue t' = lm.missingValue t ∧
    ∀ j, lm.get t' j = if j = k then lm.missingValue t else lm.get t j
  clear_missing : ∀ t, lm.missingValue (lm.clear t) = lm.missingValue t
  clear_get : ∀ t k, lm.get (lm.clear t) k = lm.missingValue t

theorem mem_putKey {k j : Int} {keys : List Int} : j ∈ putKey k keys ↔ j = k ∨ j ∈ keys := by
  simp only [putKey, List.mem_cons, List.mem_filter, decide_eq_true_eq]
  tauto

theorem mem_removeKey {k j : Int} {keys : List Int} :
    j ∈ removeKey k keys ↔ j ∈ keys ∧ j ≠ k := by
  simp only [removeKey, List.mem_filter, decide_eq_true_eq]

theorem putKey_length_le (k : Int) (keys : List Int) :
    (putKey k keys).length ≤ keys.length + 1 :=
  Nat.succ_le_succ (List.length_filter_le _ keys)

/-- A key that is there already is not counted twice. -/
theorem putKey_length_of_mem {k : Int} {keys : List Int} (h : k ∈ keys) :
    (putKey k keys).length ≤ keys.length := by
  have hlt : (keys.filter (· ≠ k)).length < keys.length :=
    List.length_filter_lt_length_iff_exists.mpr ⟨k, h, by simp⟩
  exact hlt

/-- The two maps hold the same, and nothing for any other key than `keys`. -/
structure Paired (lm : Long2LongHashMap) (om : Long2ObjectHashMap Int) (keys : List Int)
    (t : lm.Map) (u : om.Map) : Prop where
  get : ∀ k, lm.get t k = (om.get u k).getD (lm.missingValue t)
  within : ∀ k, om.get u k ≠ none → k ∈ keys

namespace Paired

variable {lm : Long2LongHashMap} {om : Long2ObjectHashMap Int} {keys keys' : List Int}
  {t : lm.Map} {u : om.Map}

/-- Other keys may be named, as long as they are all there. -/
theorem rename (h : Paired lm om keys t u) (hk : ∀ k, om.get u k ≠ none → k ∈ keys') :
    Paired lm om keys' t u := ⟨h.get, hk⟩

theorem new (hl : lm.Lawful) (v : Int) (hu : ∀ k, om.get u k = none) :
    Paired lm om keys (lm.new v) u where
  get k := by rw [hl.new_get, hu, hl.new_missing, Option.getD_none]
  within k hk := absurd (hu k) hk

theorem put (h : Paired lm om keys t u) (hl : lm.Lawful) (ho : om.Lawful) {k v : Int}
    (hv : v ≠ lm.missingValue t) (hlen : (putKey k keys).length ≤ 268435456) :
    ∃ t' u', lm.put t k v = .ok t' ∧ om.put u k v = .ok u' ∧ Paired lm om (putKey k keys) t' u' ∧
      lm.missingValue t' = lm.missingValue t ∧
      ∀ j, om.get u' j = if j = k then some v else om.get u j := by
  have hwithin : ∀ j, lm.get t j ≠ lm.missingValue t → j ∈ keys := by
    intro j hj
    apply h.within
    intro hnone
    rw [h.get, hnone, Option.getD_none] at hj
    exact hj rfl
  obtain ⟨t', et, hmissing, ht⟩ := hl.put_ok t k v keys hv hwithin hlen
  obtain ⟨u', eu, hu⟩ := ho.put_ok u k v keys h.within (by omega)
  refine ⟨t', u', et, eu, ⟨fun j => ?_, fun j hj => ?_⟩, hmissing, hu⟩
  · rw [ht, hu, hmissing]
    split
    · rfl
    · exact h.get j
  · rw [hu] at hj
    split at hj
    · exact mem_putKey.mpr (.inl ‹_›)
    · exact mem_putKey.mpr (.inr (h.within j hj))

theorem remove (h : Paired lm om keys t u) (hl : lm.Lawful) (ho : om.Lawful) (k : Int) :
    ∃ t' u', lm.remove t k = (lm.get t k, t') ∧ om.remove u k = (om.get u k, u') ∧
      Paired lm om (removeKey k keys) t' u' ∧ lm.missingValue t' = lm.missingValue t ∧
      ∀ j, om.get u' j = if j = k then none else om.get u j := by
  obtain ⟨t', et, hmissing, ht⟩ := hl.remove_eq t k
  obtain ⟨u', eu, hu⟩ := ho.remove_eq u k
  refine ⟨t', u', et, eu, ⟨fun j => ?_, fun j hj => ?_⟩, hmissing, hu⟩
  · rw [ht, hu, hmissing]
    split
    · rfl
    · exact h.get j
  · rw [hu] at hj
    split at hj
    · exact absurd rfl hj
    · exact mem_removeKey.mpr ⟨h.within j hj, ‹_›⟩

theorem clear (hl : lm.Lawful) (ho : om.Lawful) :
    Paired lm om keys (lm.clear t) (om.clear u) where
  get k := by rw [hl.clear_get, ho.clear_get, hl.clear_missing, Option.getD_none]
  within k hk := absurd (ho.clear_get u k) hk

end Paired

/-- Maps that keep the laws, and never run out of places. -/
def referenceObjects (α : Type) : Long2ObjectHashMap α where
  Map := Int → Option α
  new _ := .ok fun _ => none
  get t := t
  put t k v := .ok fun j => if j = k then some v else t j
  remove t k := (t k, fun j => if j = k then none else t j)
  clear _ := fun _ => none

def referenceLongs : Long2LongHashMap where
  Map := Int × (Int → Int)
  new v := (v, fun _ => v)
  missingValue t := t.1
  get t := t.2
  put t k v := if v = t.1 then .error "cannot accept missingValue"
    else .ok (t.1, fun j => if j = k then v else t.2 j)
  remove t k := (t.2 k, (t.1, fun j => if j = k then t.1 else t.2 j))
  clear t := (t.1, fun _ => t.1)

theorem referenceObjects_lawful (α : Type) : (referenceObjects α).Lawful where
  new_ok _ _ _ := ⟨_, rfl, fun _ => rfl⟩
  put_ok _ _ _ _ _ _ := ⟨_, rfl, fun _ => rfl⟩
  remove_eq _ _ := ⟨_, rfl, fun _ => rfl⟩
  clear_get _ _ := rfl

theorem referenceLongs_lawful : referenceLongs.Lawful where
  new_missing _ := rfl
  new_get _ _ := rfl
  put_ok _ _ _ _ hv _ _ := ⟨_, if_neg hv, rfl, fun _ => rfl⟩
  remove_eq _ _ := ⟨_, rfl, rfl, fun _ => rfl⟩
  clear_missing _ := rfl
  clear_get _ _ := rfl

end HashMaps
