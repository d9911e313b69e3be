import Mathlib.Data.List.Basic
import Mathlib.Tactic.Common

/-!
A store of id-keyed tables with versions, as far as its callers can tell: the
calls, the laws they rely on, and one store that keeps the laws.
-/

namespace Tables

/-- The calls. A store holds the tables of each of its versions as one value. -/
structure Db where
  Table : Type → Type
  Store : Type → Type
  nextId : {α : Type} → Table α → Nat
  insert : {α : Type} → Table α → α → Option (Nat × Table α)
  get : {α : Type} → Table α → Nat → Option α
  update : {α : Type} → Table α → Nat → α → Option (Table α)
  delete : {α : Type} → Table α → Nat → Option (Table α)
  iter : {α : Type} → Table α → List (Nat × α)
  len : {α : Type} → Table α → Nat
  replace : {α : Type} → List (Nat × α) → Except String (Table α)
  openTable : {α : Type} → Option (Table α) → Option (Table α)
  openTables2 : {α β : Type} → Option (Table α) → Option (Table β) → Option (Table α × Table β)
  openTables3 : {α β γ : Type} → Option (Table α) → Option (Table β) → Option (Table γ) →
    Option (Table α × Table β × Table γ)
  readTable : {α : Type} → Option (Table α) → Option (Table α)
  create : {σ : Type} → σ → Store σ
  latest : {σ : Type} → Store σ → Nat
  head : {σ : Type} → Store σ → σ
  beginWrite : {σ : Type} → Store σ → Nat → Option σ
  commit : {σ : Type} → Store σ → Nat → σ → Option (Store σ)
  beginRead : {σ : Type} → Store σ → Nat → Option σ
  bulkCommit : {σ : Type} → Store σ → σ → Except String (Nat × Store σ)

namespace Db

variable (db : Db)

/-- The latest version of `s` is `v`, and readers of it see `x`. -/
structure At {σ : Type} (s : db.Store σ) (v : Nat) (x : σ) : Prop where
  latest : db.latest s = v
  head : db.head s = x
  read : db.beginRead s v = some x

/-- Ids count up from 1 and are not used again, a transaction starts from the
latest version and sees what it wrote, a commit installs all of it at once. -/
structure Lawful : Prop where
  insert_ok : ∀ {α : Type} (t : db.Table α) (a : α), ∃ t',
    db.insert t a = some (db.nextId t, t') ∧ db.nextId t' = db.nextId t + 1 ∧
      ∀ i, db.get t' i = if i = db.nextId t then some a else db.get t i
  update_ok : ∀ {α : Type} (t : db.Table α) (i : Nat) (a : α), db.get t i ≠ none → ∃ t',
    db.update t i a = some t' ∧ db.nextId t' = db.nextId t ∧
      ∀ j, db.get t' j = if j = i then some a else db.get t j
  delete_ok : ∀ {α : Type} (t : db.Table α) (i : Nat), db.get t i ≠ none → ∃ t',
    db.delete t i = some t' ∧ db.nextId t' = db.nextId t ∧
      ∀ j, db.get t' j = if j = i then none else db.get t j
  iter_sorted : ∀ {α : Type} (t : db.Table α), (db.iter t).Pairwise fun r r' => r.1 < r'.1
  mem_iter : ∀ {α : Type} (t : db.Table α) (i : Nat) (a : α),
    (i, a) ∈ db.iter t ↔ db.get t i = some a
  len_eq : ∀ {α : Type} (t : db.Table α), db.len t = (db.iter t).length
  replace_ok : ∀ {α : Type} (rows : List (Nat × α)), (rows.Pairwise fun r r' => r.1 < r'.1) →
    (∀ r ∈ rows, 1 ≤ r.1) → ∃ t, db.replace rows = .ok t ∧
      (∀ i a, db.get t i = some a ↔ (i, a) ∈ rows) ∧ 1 ≤ db.nextId t ∧
      (∀ r ∈ rows, r.1 < db.nextId t) ∧ ∀ n ≥ 1, (∀ r ∈ rows, r.1 < n) → db.nextId t ≤ n
  openTable_none : ∀ {α : Type}, ∃ t : db.Table α, db.openTable none = some t ∧ db.nextId t = 1 ∧
    ∀ i, db.get t i = none
  openTable_some : ∀ {α : Type} (t : db.Table α), db.openTable (some t) = some t
  openTables2_eq : ∀ {α β : Type} (s : Option (db.Table α)) (t : Option (db.Table β)),
    db.openTables2 s t = (db.openTable s).bind fun a => (db.openTable t).map fun b => (a, b)
  openTables3_eq : ∀ {α β γ : Type} (s : Option (db.Table α)) (t : Option (db.Table β))
    (u : Option (db.Table γ)), db.openTables3 s t u = (db.openTable s).bind fun a =>
      (db.openTable t).bind fun b => (db.openTable u).map fun c => (a, b, c)
  readTable_some : ∀ {α : Type} (t : db.Table α), db.readTable (some t) = some t
  create_at : ∀ {σ : Type} (x : σ), db.latest (db.create x) = 0 ∧ db.head (db.create x) = x
  beginWrite_ok : ∀ {σ : Type} (s : db.Store σ) (v : Nat), db.latest s < v →
    db.beginWrite s v = some (db.head s)
  commit_ok : ∀ {σ : Type} (s : db.Store σ) (v : Nat) (x : σ), db.latest s < v →
    ∃ s', db.commit s v x = some s' ∧ db.At s' v x
  bulkCommit_ok : ∀ {σ : Type} (s : db.Store σ) (x : σ), ∃ v s',
    db.bulkCommit s x = .ok (v, s') ∧ db.At s' v x

end Db

/-- A table as a list of rows in the order of their ids. -/
structure Rows (α : Type) where
  list : List (Nat × α)
  nextId : Nat
  sorted : list.Pairwise fun r r' => r.1 < r'.1
  below : ∀ r ∈ list, r.1 < nextId

namespace Rows

variable {α : Type}

def empty : Rows α := ⟨[], 1, List.Pairwise.nil, by simp⟩

def get (t : Rows α) (i : Nat) : Option α := (t.list.find? fun r => r.1 = i).map Prod.snd

theorem unique {rows : List (Nat × α)} (h : rows.Pairwise fun r r' => r.1 < r'.1)
    {r r' : Nat × α} (hr : r ∈ rows) (hr' : r' ∈ rows) (e : r.1 = r'.1) : r = r' := by
  induction rows with
  | nil => cases hr
  | cons x rows ih =>
    obtain ⟨hx, hrows⟩ := List.pairwise_cons.mp h
    rcases List.mem_cons.mp hr with rfl | hin
    · rcases List.mem_cons.mp hr' with rfl | hin'
      · rfl
      · have := hx r' hin'; omega
    · rcases List.mem_cons.mp hr' with rfl | hin'
      · have := hx r hin; omega
      · exact ih hrows hin hin'

theorem get_eq_some (t : Rows α) (i : Nat) (a : α) : t.get i = some a ↔ (i, a) ∈ t.list := by
  simp only [get, Option.map_eq_some_iff]
  constructor
  · rintro ⟨r, hr, rfl⟩
    have hi : r.1 = i := by simpa using List.find?_some hr
    exact hi ▸ List.mem_of_find?_eq_some hr
  · intro hmem
    cases e : t.list.find? fun r => r.1 = i with
    | none => simpa using List.find?_eq_none.mp e _ hmem
    | some r =>
      have hi : r.1 = i := by simpa using List.find?_some e
      exact ⟨r, rfl, congrArg Prod.snd (unique t.sorted (List.mem_of_find?_eq_some e) hmem hi)⟩

/-- What a table shows under an id is told by its rows. -/
theorem get_congr {t : Rows α} {i : Nat} {o : Option α}
    (h : ∀ a, (i, a) ∈ t.list ↔ o = some a) : t.get i = o :=
  Option.ext fun a => (t.get_eq_some i a).trans (h a)

def insert (t : Rows α) (a : α) : Rows α where
  list := t.list ++ [(t.nextId, a)]
  nextId := t.nextId + 1
  sorted := by
    refine List.pairwise_append.mpr ⟨t.sorted, List.pairwise_singleton _ _, fun r hr r' hr' => ?_⟩
    rw [List.mem_singleton.mp hr']
    exact t.below r hr
  below r hr := by
    rcases List.mem_append.mp hr with hr | hr
    · exact Nat.lt_succ_of_lt (t.below r hr)
    · rw [List.mem_singleton.mp hr]
      exact Nat.lt_succ_self _

theorem get_insert (t : Rows α) (a : α) (i : Nat) :
    (t.insert a).get i = if i = t.nextId then some a else t.get i := by
  refine get_congr fun b => ?_
  simp only [insert, List.mem_append, List.mem_singleton, Prod.mk.injEq]
  split
  · rename_i hi
    have hnone : (i, b) ∉ t.list := fun h => absurd (t.below _ h) (by simp [hi])
    simp [hi ▸ hnone, hi, eq_comm]
  · rename_i hi
    simp [hi, get_eq_some]

def update (t : Rows α) (i : Nat) (a : α) : Rows α where
  list := t.list.map fun r => if r.1 = i then (i, a) else r
  nextId := t.nextId
  sorted := by
    refine List.pairwise_map.mpr (t.sorted.imp fun {r r'} h => ?_)
    have hfst : ∀ r : Nat × α, (if r.1 = i then (i, a) else r).1 = r.1 := by
      intro r
      split
      · rename_i e; exact e.symm
      · rfl
    rw [hfst, hfst]
    exact h
  below r hr := by
    obtain ⟨r', hr', rfl⟩ := List.mem_map.mp hr
    split
    · rename_i e; exact e ▸ t.below r' hr'
    · exact t.below r' hr'

theorem get_update (t : Rows α) {i : Nat} (a : α) (h : t.get i ≠ none) (j : Nat) :
    (t.update i a).get j = if j = i then some a else t.get j := by
  refine get_congr fun b => ?_
  simp only [update, List.mem_map]
  split
  · rename_i e
    subst e
    constructor
    · rintro ⟨r, hr, e⟩
      split at e
      · exact congrArg some (Prod.mk.inj e).2
      · rename_i hne; exact absurd (Prod.mk.inj e).1 hne
    · intro e
      obtain ⟨c, hc⟩ := Option.ne_none_iff_exists'.mp h
      exact ⟨(j, c), (t.get_eq_some j c).mp hc, by simp [Option.some.inj e]⟩
  · rename_i hne
    rw [get_eq_some]
    constructor
    · rintro ⟨r, hr, e⟩
      split at e
      · exact absurd (Prod.mk.inj e).1.symm hne
      · exact e ▸ hr
    · exact fun hr => ⟨(j, b), hr, by simp [hne]⟩

def delete (t : Rows α) (i : Nat) : Rows α where
  list := t.list.filter fun r => r.1 ≠ i
  nextId := t.nextId
  sorted := t.sorted.filter _
  below r hr := t.below r (List.mem_filter.mp hr).1

theorem get_delete (t : Rows α) (i j : Nat) :
    (t.delete i).get j = if j = i then none else t.get j := by
  refine get_congr fun b => ?_
  simp only [delete, List.mem_filter]
  split
  · rename_i e
    simp [e]
  · rename_i hne
    simp [hne, get_eq_some]

/-- The first id past those of `rows`. -/
def pastLast (rows : List (Nat × α)) : Nat := rows.foldr (fun r n => max (r.1 + 1) n) 1

theorem lt_pastLast {rows : List (Nat × α)} : ∀ r ∈ rows, r.1 < pastLast rows := by
  induction rows with
  | nil => simp
  | cons x rows ih =>
    intro r hr
    rcases List.mem_cons.mp hr with rfl | hr
    · exact Nat.lt_of_lt_of_le (Nat.lt_succ_self _) (Nat.le_max_left _ _)
    · exact Nat.lt_of_lt_of_le (ih r hr) (Nat.le_max_right _ _)

theorem one_le_pastLast (rows : List (Nat × α)) : 1 ≤ pastLast rows := by
  cases rows with
  | nil => exact Nat.le_refl 1
  | cons r rows => exact Nat.le_trans (Nat.succ_le_succ (Nat.zero_le _)) (Nat.le_max_left _ _)

theorem pastLast_le {rows : List (Nat × α)} {n : Nat} (hn : 1 ≤ n) (h : ∀ r ∈ rows, r.1 < n) :
    pastLast rows ≤ n := by
  induction rows with
  | nil => exact hn
  | cons x rows ih =>
    exact Nat.max_le.mpr ⟨h x (by simp), ih fun r hr => h r (by simp [hr])⟩

/-- Rows loaded in bulk: they must be sorted. -/
def replace (rows : List (Nat × α)) : Except String (Rows α) :=
  if h : rows.Pairwise fun r r' => r.1 < r'.1 then .ok ⟨rows, pastLast rows, h, lt_pastLast⟩
  else .error "unsorted"

end Rows

/-- Every version there ever was. -/
structure Versions (σ : Type) where
  latest : Nat
  head : σ
  at_ : Nat → Option σ

def Versions.install {σ : Type} (s : Versions σ) (v : Nat) (x : σ) : Versions σ :=
  ⟨v, x, fun u => if u = v then some x else s.at_ u⟩

/-- A store that keeps the laws. -/
def reference : Db where
  Table := Rows
  Store := Versions
  nextId t := t.nextId
  insert t a := some (t.nextId, t.insert a)
  get t i := t.get i
  update t i a := (t.get i).map fun _ => t.update i a
  delete t i := (t.get i).map fun _ => t.delete i
  iter t := t.list
  len t := t.list.length
  replace rows := Rows.replace rows
  openTable t := some (t.getD Rows.empty)
  openTables2 s t := some (s.getD Rows.empty, t.getD Rows.empty)
  openTables3 s t u := some (s.getD Rows.empty, t.getD Rows.empty, u.getD Rows.empty)
  readTable t := t
  create x := ⟨0, x, fun _ => none⟩
  latest s := s.latest
  head s := s.head
  beginWrite s v := if s.latest < v then some s.head else none
  commit s v x := if s.latest < v then some (s.install v x) else none
  beginRead s v := s.at_ v
  bulkCommit s x := .ok (s.latest + 1, s.install (s.latest + 1) x)

theorem install_at {σ : Type} (s : Versions σ) (v : Nat) (x : σ) :
    reference.At (s.install v x) v x := ⟨rfl, rfl, if_pos rfl⟩

theorem reference_lawful : reference.Lawful where
  insert_ok t a := ⟨t.insert a, rfl, rfl, t.get_insert a⟩
  update_ok t i a h := by
    obtain ⟨b, hb⟩ := Option.ne_none_iff_exists'.mp h
    exact ⟨t.update i a, by simp only [reference] at hb ⊢; rw [hb]; rfl, rfl, t.get_update a h⟩
  delete_ok t i h := by
    obtain ⟨b, hb⟩ := Option.ne_none_iff_exists'.mp h
    exact ⟨t.delete i, by simp only [reference] at hb ⊢; rw [hb]; rfl, rfl, t.get_delete i⟩
  iter_sorted t := t.sorted
  mem_iter t i a := (t.get_eq_some i a).symm
  len_eq _ := rfl
  replace_ok rows h _ := by
    exact ⟨_, dif_pos h, fun i a => Rows.get_eq_some _ i a, Rows.one_le_pastLast rows, Rows.lt_pastLast,
      fun n hn hr => Rows.pastLast_le hn hr⟩
  openTable_none := ⟨Rows.empty, rfl, rfl, fun _ => rfl⟩
  openTable_some _ := rfl
  openTables2_eq _ _ := rfl
  openTables3_eq _ _ _ := rfl
  readTable_some _ := rfl
  create_at _ := ⟨rfl, rfl⟩
  beginWrite_ok _ _ h := if_pos h
  commit_ok s v x h := ⟨_, if_pos h, install_at s v x⟩
  bulkCommit_ok s x := ⟨_, _, rfl, install_at s _ x⟩

end Tables
