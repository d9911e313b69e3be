import HiPerf.Book.Invariant
import HiPerf.Ultima.Run

/-!
Batching. A batch in one transaction leaves what its commands leave in one
transaction each, whether it opens the tables once or for every command.
-/

namespace HiPerf

open Machine Tables Exec

namespace UltimaBook

variable {db : Db} {l : db.Table LevelRec} {o : db.Table Order} {m : db.Table MetaRec}
  {os : Option (db.Table Order)} {ms : Option (db.Table MetaRec)}

/-- One transaction for each command leaves what the commands leave in one go. -/
theorem singles (hdb : db.Lawful) {κ : Type}
    {step : UltimaTables db → κ → Run (UltimaBook db) (UltimaTables db)}
    (hstep : ∀ T c, Blind (step T c)) {cmds : List κ} {u u' : UltimaBook db} {T : UltimaTables db}
    (hu : u.Current T) (hsame : Same u u') :
    (∀ u₁, runAll (fun c => transaction fun wtx => step wtx c) cmds u = .ok () u₁ →
      ∃ T₁ c, cmds.foldlM step T u' = .ok T₁ c ∧ u₁.Current T₁ ∧ Same u₁ c) ∧
    ∀ T₁ c, cmds.foldlM step T u' = .ok T₁ c →
      ∃ u₁, runAll (fun c => transaction fun wtx => step wtx c) cmds u = .ok () u₁ ∧
        u₁.Current T₁ ∧ Same u₁ c := by
  induction cmds generalizing u u' T with
  | nil =>
    refine ⟨fun u₁ h => ?_, fun T₁ c h => ?_⟩
    · cases h
      exact ⟨T, u', rfl, hu, hsame⟩
    · cases h
      exact ⟨u, rfl, hu, hsame⟩
  | cons x cmds ih =>
    rw [List.foldlM_cons]
    refine ⟨fun u₁ h => ?_, fun T₁ c h => ?_⟩
    · obtain ⟨u₂, e, h⟩ := runAll_cons_eq_ok.mp h
      obtain ⟨T₂, c₂, e₂, hu₂, hs₂⟩ :=
        transaction_forth hdb hu.latest hu.head (hstep T x) e
      obtain ⟨c₃, e₃, hs₃, -, -⟩ := (hstep T x).of_same hsame e₂
      obtain ⟨T₁, c, e', hu₁, hs₁⟩ := (ih hu₂ (hs₂.trans hs₃)).1 u₁ h
      exact ⟨T₁, c, (bind_ok e₃ _).trans e', hu₁, hs₁⟩
    · obtain ⟨T₂, c₂, e₂, h⟩ := bind_eq_ok.mp h
      obtain ⟨c₃, e₃, hs₃, -, -⟩ := (hstep T x).of_same hsame.symm e₂
      obtain ⟨u₂, e, hu₂, hs₂⟩ := @transaction_back _ T (fun wtx => step wtx x) u hdb hu.latest
        hu.head (hstep T x) T₂ c₃ e₃
      obtain ⟨u₁, e', hu₁, hs₁⟩ := (ih hu₂ (hs₂.trans hs₃.symm)).2 T₁ c h
      exact ⟨u₁, runAll_cons_eq_ok.mpr ⟨u₂, e, e'⟩, hu₁, hs₁⟩

/-- The tables a book is born with are there. -/
def Seeded (T : UltimaTables db) : Prop := ∃ l os m, T = ⟨some l, os, some m⟩

theorem Seeded.closeAll (T : UltimaTables db) (h : Handles db) : Seeded (closeAll T h) :=
  ⟨_, _, _, rfl⟩

theorem openTable_opens (hdb : db.Lawful) {α : Type} (t : Option (db.Table α)) :
    ∃ a, db.openTable t = some a := by
  cases t with
  | none =>
    obtain ⟨a, h, -⟩ := @Db.Lawful.openTable_none db hdb α
    exact ⟨a, h⟩
  | some a => exact ⟨a, hdb.openTable_some a⟩

theorem openAll_run (hdb : db.Lawful) (ho : db.openTable os = some o) :
    openAll ⟨some l, os, some m⟩ = pure (l, o, m) := by
  simp only [openAll, hdb.openTables3_eq, hdb.openTable_some, ho]
  rfl

theorem openAll'_run (hdb : db.Lawful) (ho : db.openTable os = some o) :
    openAll' ⟨some l, os, some m⟩ = pure (l, o, m) := by
  simp only [openAll', hdb.openTables3_eq, hdb.openTable_some, ho]
  rfl

/-- Commands that do the same to open tables as they do to a transaction. -/
theorem foldlM_eq {κ η : Type} {step : UltimaTables db → κ → Run (UltimaBook db) (UltimaTables db)}
    {stepMt : η → κ → Run (UltimaBook db) η} {close : η → UltimaTables db} {T : UltimaTables db} {a : η}
    (hfirst : ∀ c, step T c = close <$> stepMt a c)
    (h : ∀ a c, step (close a) c = close <$> stepMt a c) {cmds : List κ} (hne : cmds ≠ []) :
    cmds.foldlM step T = close <$> cmds.foldlM stepMt a := by
  have hrest : ∀ (cmds : List κ) a, cmds.foldlM step (close a) = close <$> cmds.foldlM stepMt a := by
    intro cmds
    induction cmds with
    | nil => exact fun a => (map_pure close a).symm
    | cons c cmds ih =>
      intro a
      simp only [List.foldlM_cons, h, ih, map_bind, bind_map_left]
  cases cmds with
  | nil => exact absurd rfl hne
  | cons c cmds => simp only [List.foldlM_cons, hfirst, hrest, map_bind, bind_map_left]

/-- Two books with the same tables, config and ids. -/
def Agree (u u' : UltimaBook db) : Prop :=
  ∃ T, Seeded T ∧ u.Current T ∧ u'.Current T ∧ Same u u'

section tracks

variable {κ : Type} {step : UltimaTables db → κ → Run (UltimaBook db) (UltimaTables db)}

theorem foldlM_seeded (hseed : ∀ T c u T' u', Seeded T → step T c u = .ok T' u' → Seeded T')
    {cmds : List κ} {T T' : UltimaTables db} {u u' : UltimaBook db} (h : Seeded T)
    (e : cmds.foldlM step T u = .ok T' u') : Seeded T' := by
  induction cmds generalizing T u with
  | nil => cases e; exact h
  | cons c cmds ih =>
    rw [List.foldlM_cons] at e
    obtain ⟨T₁, u₁, e₁, e⟩ := bind_eq_ok.mp e
    exact ih (hseed T c u T₁ u₁ h e₁) e

/-- A batch in one transaction, its commands in one each. -/
theorem batchTxn_tracks (hdb : db.Lawful) (hstep : ∀ T c, Blind (step T c))
    (hseed : ∀ T c u T' u', Seeded T → step T c u = .ok T' u' → Seeded T') {f : κ → Op}
    (hop : ∀ c, apply (f c) = transaction fun wtx => step wtx c) (cmds : List κ) :
    Lockstep True Agree (batchTxn step cmds) (runAll apply (cmds.map f)) := by
  have hsingle : runAll apply (cmds.map f) = runAll (fun c => transaction fun wtx => step wtx c) cmds := by
    induction cmds with
    | nil => rfl
    | cons c cmds ih => simp only [List.map_cons, runAll, hop, ih]
  rw [hsingle, batchTxn]
  split
  · rename_i h
    rw [h]
    exact Lockstep.pure _
  · rintro u u' ⟨T, hT, hu, hu', hsame⟩
    have hfold : ∀ T, Blind (cmds.foldlM step T) := fun T => Blind.foldlM hstep cmds T
    obtain ⟨hforth, hback⟩ := @singles db hdb κ step hstep cmds u' u T hu' hsame.symm
    refine ⟨fun _ u₁ e => ?_, fun _ _ u₁' e => ?_⟩
    · obtain ⟨T₁, c, e₁, hu₁, hs₁⟩ := transaction_forth hdb hu.latest hu.head (hfold T) e
      obtain ⟨u₁', e', hu₁', hs₁'⟩ := hback T₁ c e₁
      exact ⟨u₁', e', T₁, foldlM_seeded hseed hT e₁, hu₁, hu₁', hs₁.trans hs₁'.symm⟩
    · obtain ⟨T₁, c, e₁, hu₁', hs₁'⟩ := hforth u₁' e
      obtain ⟨u₁, e', hu₁, hs₁⟩ := @transaction_back _ T (fun wtx => cmds.foldlM step wtx) u hdb
        hu.latest hu.head (hfold T) T₁ c e₁
      exact ⟨u₁, e', T₁, foldlM_seeded hseed hT e₁, hu₁, hu₁', hs₁.trans hs₁'.symm⟩

/-- Opening the tables once makes no difference. -/
theorem batchTxnMulti_run (hdb : db.Lawful) {η : Type} {opened : UltimaTables db → Run (UltimaBook db) η}
    {stepMt : η → κ → Run (UltimaBook db) η} {closed : UltimaTables db → η → UltimaTables db}
    {T : UltimaTables db} {a : η} (hopen : opened T = pure a)
    (hfirst : ∀ c, step T c = closed T <$> stepMt a c)
    (h : ∀ a c, step (closed T a) c = closed T <$> stepMt a c) {u : UltimaBook db} (hu : u.Current T)
    (cmds : List κ) : batchTxnMulti opened stepMt closed cmds u = batchTxn step cmds u := by
  rw [batchTxnMulti, batchTxn]
  split
  · rfl
  · rename_i hne
    rw [transaction_run hdb hu.latest hu.head, transaction_run hdb hu.latest hu.head, hopen,
      foldlM_eq hfirst h hne]
    simp only [pure_bind, map_eq_pure_bind]

end tracks

/-- What a mapped program leaves is an image of the map. -/
theorem map_run {α β : Type} {x : Run (UltimaBook db) α} {f : α → β} {u u' : UltimaBook db} {b : β}
    (e : (f <$> x) u = .ok b u') : ∃ a, b = f a := by
  rw [map_eq_pure_bind] at e
  obtain ⟨a, _, -, e⟩ := bind_eq_ok.mp e
  cases e
  exact ⟨a, rfl⟩

/-- A batch of commands. -/
inductive Batch where
  | inserts (cmds : List Insert)
  | updates (cmds : List (Int × Int))
  | cancels (cmds : List Int)
  | churn (ops : List ChurnOp)

namespace Batch

/-- The commands, as calls on a store. -/
def ops : Batch → List Op
  | .inserts cmds => cmds.map fun c => .insert c.orderId c.price c.qty c.side
  | .updates cmds => cmds.map fun c => .update c.1 c.2
  | .cancels cmds => cmds.map .cancel
  | .churn ops => ops.map ChurnOp.call

/-- Apply a batch in one transaction, opening the tables once or per command. -/
def apply (multi : Bool) : Batch → Run (UltimaBook db) Unit
  | .inserts cmds => if multi then insertBatchTxnMulti cmds else insertBatchTxn cmds
  | .updates cmds => if multi then updateBatchTxnMulti cmds else updateBatchTxn cmds
  | .cancels cmds => if multi then cancelBatchTxnMulti cmds else cancelBatchTxn cmds
  | .churn ops => if multi then churnBatchTxnMulti ops else churnBatchTxn ops

end Batch

section kinds

variable {κ : Type} {step : UltimaTables db → κ → Run (UltimaBook db) (UltimaTables db)}
  {stepMt : Handles db → κ → Run (UltimaBook db) (Handles db)}
  {opened : UltimaTables db → Run (UltimaBook db) (Handles db)} {f : κ → Op}

/-- A kind of batch over all three tables, opened once or per command. -/
theorem handles_tracks (hdb : db.Lawful) (hstep : ∀ T c, Blind (step T c))
    (hopen : ∀ {l os m o}, db.openTable os = some o → opened ⟨some l, os, some m⟩ = pure (l, o, m))
    (heq : ∀ {l os m o} c, db.openTable os = some o →
      step ⟨some l, os, some m⟩ c = closeAll ⟨some l, os, some m⟩ <$> stepMt (l, o, m) c)
    (hop : ∀ c, apply (f c) = transaction fun wtx => step wtx c) (multi : Bool) (cmds : List κ) :
    Lockstep True Agree
      (if multi then batchTxnMulti opened stepMt closeAll cmds else batchTxn step cmds)
      (runAll apply (cmds.map f)) := by
  have hseed : ∀ T c u T' u', Seeded T → step T c u = .ok T' u' → Seeded T' := by
    intro T c u T' u' h e
    obtain ⟨l, os, m, rfl⟩ := h
    obtain ⟨o, ho⟩ := openTable_opens hdb os
    rw [heq c ho] at e
    obtain ⟨h, rfl⟩ := map_run e
    exact Seeded.closeAll _ h
  have hone := batchTxn_tracks hdb hstep hseed hop cmds
  cases multi with
  | false => exact hone
  | true =>
    refine hone.congr_left fun u u' ⟨T, hT, hu, _, _⟩ => ?_
    obtain ⟨l, os, m, rfl⟩ := hT
    obtain ⟨o, ho⟩ := openTable_opens hdb os
    exact batchTxnMulti_run hdb (hopen ho) (fun c => heq c ho)
      (fun a c => heq c (hdb.openTable_some a.2.1)) hu cmds

end kinds

/-- Whichever kind of batch, and however it opens the tables. -/
theorem batch_tracks (hdb : db.Lawful) (multi : Bool) (b : Batch) :
    Lockstep True Agree (b.apply multi) (runAll (UltimaBook.apply : Op → Run (UltimaBook db) Unit) b.ops) := by
  cases b with
  | inserts cmds =>
    exact handles_tracks hdb (fun T c => applyInsert_blind T _ _ _ _) (openAll_run hdb)
      (fun c ho => applyInsert_eq hdb ho _ _ _ _) (fun _ => rfl) multi cmds
  | cancels cmds =>
    exact handles_tracks hdb applyCancel_blind (openAll'_run hdb)
      (fun c ho => applyCancel_eq hdb ho c) (fun _ => rfl) multi cmds
  | churn ops =>
    refine handles_tracks hdb applyChurn_blind (openAll'_run hdb)
      (fun c ho => applyChurn_eq hdb ho c) (fun c => ?_) multi ops
    cases c <;> rfl
  | updates cmds =>
    have hseed : ∀ (T : UltimaTables db) (c : Int × Int) u T' u', Seeded T →
        applyUpdate T c.1 c.2 u = .ok T' u' → Seeded T' := by
      intro T c u T' u' h e
      obtain ⟨l, os, m, rfl⟩ := h
      obtain ⟨o, ho⟩ := openTable_opens hdb os
      rw [applyUpdate_eq hdb ho] at e
      obtain ⟨h, rfl⟩ := map_run e
      exact ⟨_, _, _, rfl⟩
    have hone := batchTxn_tracks hdb (fun T c => applyUpdate_blind T c.1 c.2) hseed
      (f := fun c => .update c.1 c.2) (fun _ => rfl) cmds
    cases multi with
    | false => exact hone
    | true =>
      refine hone.congr_left fun u u' ⟨T, hT, hu, _, _⟩ => ?_
      obtain ⟨l, os, m, rfl⟩ := hT
      obtain ⟨o, ho⟩ := openTable_opens hdb os
      refine batchTxnMulti_run hdb (a := (o, l)) ?_ (fun c => applyUpdate_eq hdb ho _ _)
        (fun a c => applyUpdate_eq hdb (hdb.openTable_some a.1) _ _) hu cmds
      rw [hdb.openTables2_eq, ho, hdb.openTable_some]
      rfl

theorem new_seeded (hdb : db.Lawful) {cfg : SmrConfig} {u : UltimaBook db}
    (h : new db cfg = .ok u) : ∃ T, Seeded T ∧ u.Current T := by
  unfold new at h
  split at h
  · rename_i u' e
    cases h
    obtain ⟨hl, hh⟩ := hdb.create_at (UltimaTables.empty db)
    obtain ⟨T, c, eT, hu, -⟩ := transaction_forth hdb hl hh (seed_blind cfg _) e
    refine ⟨T, ?_, hu⟩
    obtain ⟨_, _, -, eT⟩ := bind_eq_ok.mp eT
    obtain ⟨_, _, -, eT⟩ := bind_eq_ok.mp eT
    obtain ⟨_, _, -, eT⟩ := bind_eq_ok.mp eT
    obtain ⟨_, _, -, eT⟩ := bind_eq_ok.mp eT
    obtain ⟨_, _, -, eT⟩ := bind_eq_ok.mp eT
    cases eT
    exact ⟨_, _, _, rfl⟩
  · cases h

/-- Readers of the two books, and their next commands, cannot tell them apart. -/
structure Matches (u u' : UltimaBook db) : Prop where
  tables : ∃ T, db.beginRead u.store u.version = some T ∧ db.beginRead u'.store u'.version = some T
  ids : u.ids = u'.ids
  digest : digestUltima u.store u.version = digestUltima u'.store u'.version
  image : ∀ crc32c buf,
    encodeAt crc32c u.store u.version buf = encodeAt crc32c u'.store u'.version buf

theorem Agree.matches {u u' : UltimaBook db} (h : Agree u u') : Matches u u' := by
  obtain ⟨T, -, hu, hu', hsame⟩ := h
  refine ⟨⟨T, hu.read, hu'.read⟩, by rw [hsame]; rfl, ?_, fun crc32c buf => ?_⟩
  · rw [digestUltima, digestUltima, hu.read, hu'.read]
  · rw [encodeAt, encodeAt, Encoder.messageAt, Encoder.messageAt, hu.read, hu'.read]

/-- Batching changes nothing. However a stream is cut into batches, and however
each of them opens the tables, the batches complete exactly if the commands one
transaction at a time do, and leave the same tables and ids. -/
theorem batching_neutral {db : Db} (hdb : db.Lawful) {cfg : SmrConfig} {u₀ : UltimaBook db}
    (h₀ : new db cfg = .ok u₀) (cut : List (Bool × Batch)) :
    (∀ u, runAll (fun c => c.2.apply c.1) cut u₀ = .ok () u →
      ∃ u', run (cut.flatMap fun c => c.2.ops) u₀ = .ok () u' ∧ Matches u u') ∧
    ∀ u', run (cut.flatMap fun c => c.2.ops) u₀ = .ok () u' →
      ∃ u, runAll (fun c => c.2.apply c.1) cut u₀ = .ok () u ∧ Matches u u' := by
  obtain ⟨T, hT, hu⟩ := new_seeded hdb h₀
  have hagree : Agree u₀ u₀ := ⟨T, hT, hu, hu, rfl⟩
  have htracks := Lockstep.runAll (fun c : Bool × Batch => batch_tracks hdb c.1 c.2) cut
  refine ⟨fun u e => ?_, fun u' e => ?_⟩
  · obtain ⟨u', e', h⟩ := htracks.forth hagree e
    exact ⟨u', e', h.matches⟩
  · obtain ⟨u, e', h⟩ := htracks.back trivial hagree e
    exact ⟨u, e', h.matches⟩

/-- A cut of the small run: a batch left empty, an order put in and taken out in
one transaction, a level emptied and another occupied in one. -/
def smallCut : List (Bool × Batch) :=
  [(true, .churn []), (true, .inserts [⟨7, 0, 30, 0⟩, ⟨8, 0, 20, 0⟩]),
    (false, .churn [.insert 9 0 10 0]), (true, .updates [(7, 12)]),
    (true, .churn [.cancel 8, .insert 11 25 4 1, .fill 9])]

theorem batching_neutral_smallRun : ∃ u₀ u u', new reference smallBook = .ok u₀ ∧
    run smallRun u₀ = .ok () u' ∧ runAll (fun c => c.2.apply c.1) smallCut u₀ = .ok () u ∧
    Matches u u' := by
  obtain ⟨u₀, e₀, -⟩ := new_opens reference_lawful smallBook
  have hadm : Admitted smallBook.grid [] smallRun :=
    smallRun_wellFormed.admitted_of smallBook_ok (by decide)
  obtain ⟨u', e', -⟩ := run_new reference_lawful smallBook_ok e₀ hadm (by decide)
  obtain ⟨u, e, h⟩ := (batching_neutral reference_lawful e₀ smallCut).2 u' e'
  exact ⟨u₀, u, u', e₀, e', e, h⟩

end UltimaBook

end HiPerf
