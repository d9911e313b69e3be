import HiPerf.Lib.Lockstep
import HiPerf.Ultima.Read

/-!
One transaction. The commands neither see nor change the store and the version,
so a transaction commits what its commands make of the latest tables; the two
bodies of each command make the same of them.
-/

namespace HiPerf

open Machine Tables Exec

namespace UltimaBook

variable {db : Db}

/-- The same book over another store, at another version. -/
def inStore (u : UltimaBook db) (store : db.Store (UltimaTables db)) (version : Nat) : UltimaBook db :=
  { u with store, version }

/-- A program that neither sees nor changes the store and the version. -/
def Blind {α : Type} (x : Run (UltimaBook db) α) : Prop :=
  ∀ s v s' v', Lockstep True (fun u u' => ∃ c : UltimaBook db, u = c.inStore s v ∧ u' = c.inStore s' v') x x

namespace Blind

variable {α β : Type} {x : Run (UltimaBook db) α}

theorem pure (a : α) : Blind (pure a : Run (UltimaBook db) α) := fun _ _ _ _ => Lockstep.pure a

theorem bind {k : α → Run (UltimaBook db) β} (h : Blind x) (hk : ∀ a, Blind (k a)) :
    Blind (x >>= k) := fun s v s' v' => (h s v s' v').bind fun a => hk a s v s' v'

theorem map (f : α → β) (h : Blind x) : Blind (f <$> x) := by
  rw [map_eq_pure_bind]
  exact h.bind fun a => pure (f a)

theorem ite {c : Prop} [Decidable c] {y : Run (UltimaBook db) α} (h : Blind x) (h' : Blind y) :
    Blind (if c then x else y) := by
  split
  · exact h
  · exact h'

theorem modify {g : UltimaBook db → UltimaBook db} (h : ∀ u s v, g (u.inStore s v) = (g u).inStore s v) :
    Blind (modify g) := fun _ _ _ _ => Lockstep.modify fun u u' huu' => by
  obtain ⟨c, rfl, rfl⟩ := huu'
  exact ⟨g c, h c _ _, h c _ _⟩

theorem get_bind {k : UltimaBook db → Run (UltimaBook db) β} (h : ∀ u s v, k (u.inStore s v) = k u)
    (hk : ∀ u, Blind (k u)) : Blind (get >>= k) := fun s v s' v' => Lockstep.get_bind fun u u' huu' => by
  obtain ⟨c, rfl, rfl⟩ := huu'
  rw [h, h]
  exact hk c s v s' v'

theorem expect (text : String) (a : Option α) :
    Blind (expect text a : Run (UltimaBook db) α) := fun _ _ _ _ => by
  cases a with
  | none => exact Lockstep.throw _ _
  | some a => exact Lockstep.pure a

theorem foldlM {κ η : Type} {step : η → κ → Run (UltimaBook db) η} (h : ∀ a c, Blind (step a c))
    (cmds : List κ) (a : η) : Blind (cmds.foldlM step a) := by
  induction cmds generalizing a with
  | nil => exact pure a
  | cons c cmds ih =>
    rw [List.foldlM_cons]
    exact (h a c).bind fun b => ih b

end Blind

theorem tickOf_blind (price : Int) : Blind (tickOf price : Run (UltimaBook db) Nat) :=
  Blind.get_bind (fun _ _ _ => rfl) fun u => by
    unfold gridTick
    refine Blind.ite ?_ (Blind.ite ?_ (Blind.pure _))
    · exact fun _ _ _ _ => Lockstep.throw _ _
    · exact fun _ _ _ _ => Lockstep.throw _ _

theorem rowId_blind (orderId : Int) : Blind (rowId orderId : Run (UltimaBook db) Nat) :=
  fun s v s' v' => Lockstep.of_cases fun u u' huu' => by
    obtain ⟨c, rfl, rfl⟩ := huu'
    cases h : c.ids orderId with
    | none => exact .inr ⟨_, _, _, _, by simp only [rowId, inStore, h]; rfl, by simp only [rowId, inStore, h]; rfl⟩
    | some row => exact .inl ⟨row, _, _, by simp only [rowId, inStore, h], by simp only [rowId, inStore, h],
        c, rfl, rfl⟩

theorem removeId_blind (orderId : Int) (text : String) :
    Blind (removeId orderId text : Run (UltimaBook db) Nat) :=
  fun s v s' v' => Lockstep.of_cases fun u u' huu' => by
    obtain ⟨c, rfl, rfl⟩ := huu'
    cases h : c.ids orderId with
    | none => exact .inr ⟨_, _, _, _, by simp only [removeId, inStore, h]; rfl,
        by simp only [removeId, inStore, h]; rfl⟩
    | some row => exact .inl ⟨row, _, _, by simp only [removeId, inStore, h],
        by simp only [removeId, inStore, h], { c with ids := c.ids.remove orderId }, rfl, rfl⟩

theorem linkNext_blind (orders : db.Table Order) (slot next : Nat) (text text' : String) :
    Blind (linkNext orders slot next text text') :=
  Blind.ite ((Blind.expect _ _).bind fun _ => Blind.expect _ _) (Blind.pure _)

theorem linkPrev_blind (orders : db.Table Order) (slot prev : Nat) (text text' : String) :
    Blind (linkPrev orders slot prev text text') :=
  Blind.ite ((Blind.expect _ _).bind fun _ => Blind.expect _ _) (Blind.pure _)

theorem applyInsert_blind (T : UltimaTables db) (orderId price qty : Int) (side : Nat) :
    Blind (applyInsert T orderId price qty side) :=
  (tickOf_blind price).bind fun _ => Blind.get_bind (fun _ _ _ => rfl) fun _ =>
    (Blind.expect _ _).bind fun _ => (Blind.expect _ _).bind fun _ =>
    (Blind.expect _ _).bind fun _ => (Blind.expect _ _).bind fun _ =>
    (Blind.modify fun _ _ _ => rfl).bind fun _ => (linkNext_blind _ _ _ _ _).bind fun _ =>
    (Blind.expect _ _).bind fun _ => (Blind.expect _ _).bind fun _ =>
    (Blind.expect _ _).bind fun _ => (Blind.expect _ _).bind fun _ =>
    (Blind.expect _ _).bind fun _ => Blind.pure _

theorem applyUpdate_blind (T : UltimaTables db) (orderId fillQty : Int) :
    Blind (applyUpdate T orderId fillQty) :=
  (rowId_blind orderId).bind fun _ => (Blind.expect _ _).bind fun _ =>
    (Blind.expect _ _).bind fun o => (tickOf_blind o.price).bind fun _ =>
    Blind.get_bind (fun _ _ _ => rfl) fun _ => (Blind.expect _ _).bind fun _ =>
    (Blind.expect _ _).bind fun _ => (Blind.expect _ _).bind fun _ =>
    (Blind.expect _ _).bind fun _ => Blind.pure _

theorem repairBest_blind (T : UltimaTables db) (side t : Nat) : Blind (repairBest T side t) := by
  refine (Blind.expect _ _).bind fun h => (Blind.expect _ _).bind fun r =>
    Blind.get_bind (fun _ _ _ => rfl) fun u => ?_
  cases rescanBest u h.2 r side t with
  | none => exact Blind.pure _
  | some r => exact (Blind.expect _ _).bind fun _ => Blind.pure _

theorem applyCancel_blind (T : UltimaTables db) (orderId : Int) : Blind (applyCancel T orderId) :=
  (removeId_blind orderId _).bind fun _ => (Blind.expect _ _).bind fun _ =>
    (Blind.expect _ _).bind fun o => (tickOf_blind o.price).bind fun _ =>
    Blind.get_bind (fun _ _ _ => rfl) fun _ => (linkNext_blind _ _ _ _ _).bind fun _ =>
    (linkPrev_blind _ _ _ _ _).bind fun _ => (Blind.expect _ _).bind fun _ =>
    (Blind.expect _ _).bind fun _ => (Blind.expect _ _).bind fun _ =>
    (Blind.expect _ _).bind fun _ => Blind.ite (repairBest_blind _ _ _) (Blind.pure _)

theorem applyChurn_blind (T : UltimaTables db) (op : ChurnOp) : Blind (applyChurn T op) := by
  cases op with
  | insert orderId price qty side => exact applyInsert_blind T orderId price qty side
  | cancel orderId => exact applyCancel_blind T orderId
  | fill orderId => exact applyCancel_blind T orderId

theorem seedLane_blind (levels : db.Table LevelRec) (side t n : Nat) :
    Blind (seedLane levels side t n) := by
  induction n generalizing levels t with
  | zero => exact Blind.pure _
  | succ n ih => exact (Blind.expect _ _).bind fun r => ih r.2 (t + 1)

theorem seed_blind (cfg : SmrConfig) (T : UltimaTables db) : Blind (seed cfg T) :=
  (Blind.expect _ _).bind fun _ => (seedLane_blind _ _ _ _).bind fun _ =>
    (seedLane_blind _ _ _ _).bind fun _ => (Blind.expect _ _).bind fun _ =>
    (Blind.expect _ _).bind fun _ => Blind.pure _

section bodies

variable {l : db.Table LevelRec} {o : db.Table Order} {m : db.Table MetaRec}
  {os : Option (db.Table Order)} {ms : Option (db.Table MetaRec)}

theorem openTable_eq {α : Type} {t : Option (db.Table α)} {a : db.Table α}
    (h : db.openTable t = some a) (text : String) : openTable text t = pure a := by
  rw [openTable, h]
  rfl

/-- The body for open tables is the body that opens them. -/
theorem applyInsert_eq (hdb : db.Lawful) (ho : db.openTable os = some o)
    (orderId price qty : Int) (side : Nat) :
    applyInsert ⟨some l, os, some m⟩ orderId price qty side =
      closeAll ⟨some l, os, some m⟩ <$> applyInsertMt (l, o, m) orderId price qty side := by
  have hl := fun a : db.Table LevelRec => openTable_eq (hdb.openTable_some a) "levels"
  have hm := openTable_eq (hdb.openTable_some m) "meta"
  simp only [applyInsert, applyInsertMt, hl, hm, openTable_eq ho, pure_bind, map_bind, map_pure]
  rfl

theorem applyUpdate_eq (hdb : db.Lawful) (ho : db.openTable os = some o) (orderId fillQty : Int) :
    applyUpdate ⟨some l, os, ms⟩ orderId fillQty =
      (fun h => ⟨some h.2, some h.1, ms⟩) <$> applyUpdateMt (o, l) orderId fillQty := by
  have hl := openTable_eq (hdb.openTable_some l) "levels"
  simp only [applyUpdate, applyUpdateMt, hl, openTable_eq ho, pure_bind, map_bind, map_pure]

theorem applyCancel_eq (hdb : db.Lawful) (ho : db.openTable os = some o) (orderId : Int) :
    applyCancel ⟨some l, os, some m⟩ orderId =
      closeAll ⟨some l, os, some m⟩ <$> applyCancelMt (l, o, m) orderId := by
  have hl := openTable_eq (hdb.openTable_some l) "levels"
  have h2 : ∀ a : db.Table LevelRec, (expect "open_tables2" (db.openTables2 (some m) (some a)) :
      Run (UltimaBook db) _) = pure (m, a) := fun a => by
    rw [hdb.openTables2_eq, hdb.openTable_some, hdb.openTable_some]
    rfl
  simp only [applyCancel, applyCancelMt, repairBest, hl, h2, openTable_eq ho, pure_bind, map_bind]
  refine bind_congr fun row => bind_congr fun x => bind_congr fun t => bind_congr fun u =>
    bind_congr fun a => bind_congr fun b => bind_congr fun c => bind_congr fun r =>
    bind_congr fun levels => ?_
  split
  · rw [map_bind]
    refine bind_congr fun r => ?_
    rw [map_bind]
    refine bind_congr fun u => ?_
    cases rescanBest u levels r x.side t with
    | none => rfl
    | some r =>
      rw [map_bind]
      rfl
  · rfl

theorem applyChurn_eq (hdb : db.Lawful) (ho : db.openTable os = some o) (op : ChurnOp) :
    applyChurn ⟨some l, os, some m⟩ op =
      closeAll ⟨some l, os, some m⟩ <$> applyChurnMt (l, o, m) op := by
  cases op with
  | insert orderId price qty side => exact applyInsert_eq hdb ho orderId price qty side
  | cancel orderId => exact applyCancel_eq hdb ho orderId
  | fill orderId => exact applyCancel_eq hdb ho orderId

end bodies

/-- The book is at the latest version of its store, whose tables are `T`. -/
def Current (u : UltimaBook db) (T : UltimaTables db) : Prop := db.At u.store u.version T

/-- The books differ in their stores and versions at most. -/
def Same (u c : UltimaBook db) : Prop := u = c.inStore u.store u.version

theorem Same.of_inStore (u : UltimaBook db) (store : db.Store (UltimaTables db)) (version : Nat) :
    Same (u.inStore store version) u := rfl

theorem Same.symm {u c : UltimaBook db} (h : Same u c) : Same c u := by
  rw [Same, h]
  rfl

theorem Same.trans {u c d : UltimaBook db} (h : Same u c) (h' : Same c d) : Same u d := by
  rw [Same, h, h']
  rfl

/-- Related books give a blind program the same result. -/
theorem Blind.of_same {α : Type} {x : Run (UltimaBook db) α} (hx : Blind x) {u u₁ c : UltimaBook db}
    (h : Same u c) {a : α} (e : x u = .ok a u₁) :
    ∃ c₁, x c = .ok a c₁ ∧ Same u₁ c₁ ∧ u₁.store = u.store ∧ u₁.version = u.version := by
  obtain ⟨c₁, e', d, rfl, rfl⟩ := (hx u.store u.version c.store c.version).forth ⟨c, h, rfl⟩ e
  exact ⟨_, e', rfl, rfl, rfl⟩

section transaction

variable {T : UltimaTables db} {body : UltimaTables db → Run (UltimaBook db) (UltimaTables db)}
  {u u₁ : UltimaBook db}

/-- A transaction starts from the latest tables. -/
theorem transaction_run (hdb : db.Lawful) (hl : db.latest u.store = u.version)
    (hh : db.head u.store = T) : transaction body u = (do
      let wtx ← body T
      let u ← get
      let store ← expect "commit" (db.commit u.store u.version wtx)
      modify fun u : UltimaBook db => { u with store }) (u.inStore u.store (u.version + 1)) := by
  have hbegin : db.beginWrite u.store (u.version + 1) = some T :=
    hh ▸ hdb.beginWrite_ok u.store (u.version + 1) (by omega)
  simp only [transaction, modify_bind, get_bind, hbegin]
  rfl

/-- What is committed is what the body leaves, run on the book itself. -/
theorem transaction_forth (hdb : db.Lawful) (hl : db.latest u.store = u.version)
    (hh : db.head u.store = T) (hb : Blind (body T)) (h : transaction body u = .ok () u₁) :
    ∃ T₁ c, body T u = .ok T₁ c ∧ u₁.Current T₁ ∧ Same u₁ c := by
  rw [transaction_run hdb hl hh] at h
  obtain ⟨T₁, u', e, h⟩ := bind_eq_ok.mp h
  obtain ⟨c, ec, hsame, hs, hv⟩ := hb.of_same (Same.of_inStore u _ _) e
  obtain ⟨s', es, hat⟩ := hdb.commit_ok u.store (u.version + 1) T₁ (by omega)
  rw [get_bind, hs, hv] at h
  simp only [inStore, es] at h
  cases h
  refine ⟨T₁, c, ec, ?_, ?_⟩
  · rw [Current, hv]
    exact hat
  · rw [hsame]
    rfl

theorem transaction_back (hdb : db.Lawful) (hl : db.latest u.store = u.version)
    (hh : db.head u.store = T) (hb : Blind (body T)) {T₁ : UltimaTables db} {c : UltimaBook db}
    (h : body T u = .ok T₁ c) :
    ∃ u₁, transaction body u = .ok () u₁ ∧ u₁.Current T₁ ∧ Same u₁ c := by
  obtain ⟨u', e, hsame, -, -⟩ := hb.of_same (Same.of_inStore u u.store (u.version + 1)).symm h
  obtain ⟨-, -, -, hs, hv⟩ := hb.of_same (Same.of_inStore u _ _) e
  obtain ⟨s', es, hat⟩ := hdb.commit_ok u.store (u.version + 1) T₁ (by omega)
  have hcommit : db.commit u'.store u'.version T₁ = some s' := by
    rw [hs, hv]
    exact es
  refine ⟨{ u' with store := s' }, ?_, ?_, ?_⟩
  · rw [transaction_run hdb hl hh, bind_ok e, get_bind, hcommit]
    rfl
  · rw [Current]
    change db.At s' u'.version T₁
    rw [hv]
    exact hat
  · rw [hsame.symm]
    rfl

end transaction

end UltimaBook

end HiPerf
