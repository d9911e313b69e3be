import HiPerf.Book.Invariant

/-!
Filling an order and cancelling it. Either way its slot becomes blank, and all
that tells the two apart is the `filled` left over there, which nothing reads
before the slot is given out anew.
-/

namespace HiPerf

open Machine

/-- The order as far as it counts: what a blank slot has as filled is left over. -/
def Order.blot (o : Order) : Order := if o.orderId = 0 then { o with filled := 0 } else o

namespace Order

theorem blot_of_live {o : Order} (h : o.orderId ≠ 0) : o.blot = o := if_neg h

@[simp] theorem blot_orderId (o : Order) : o.blot.orderId = o.orderId := by
  unfold blot; split <;> rfl

@[simp] theorem blot_side (o : Order) : o.blot.side = o.side := by
  unfold blot; split <;> rfl

@[simp] theorem blot_next (o : Order) : o.blot.next = o.next := by
  unfold blot; split <;> rfl

@[simp] theorem blot_prev (o : Order) : o.blot.prev = o.prev := by
  unfold blot; split <;> rfl

@[simp] theorem blot_blot (o : Order) : o.blot.blot = o.blot := by
  by_cases h : o.orderId = 0 <;> simp [blot, h]

theorem blot_linkNext (o : Order) (v : Nat) : ({ o with next := v } : Order).blot = { o.blot with next := v } := by
  by_cases h : o.orderId = 0 <;> simp [blot, h]

theorem blot_linkPrev (o : Order) (v : Nat) : ({ o with prev := v } : Order).blot = { o.blot with prev := v } := by
  by_cases h : o.orderId = 0 <;> simp [blot, h]

theorem blot_free (o : Order) (v : Nat) :
    ({ o.blot with orderId := 0, next := v, prev := NIL } : Order).blot =
      ({ o with orderId := 0, next := v, prev := NIL } : Order).blot := by
  by_cases h : o.orderId = 0 <;> simp [blot, h]

end Order

namespace Flat

/-- The memory without what its blank slots have left over. -/
def blot (f : Flat) : Flat := { f with ord := fun s => (f.ord s).blot }

@[simp] theorem blot_blot (f : Flat) : f.blot.blot = f.blot := by
  simp only [blot, Order.blot_blot]

theorem blot_setOrd (f : Flat) (s : Nat) (o : Order) :
    (f.setOrd s o).blot = f.blot.setOrd s o.blot := by
  simp only [blot, setOrd, mk.injEq, true_and, and_true]
  funext y
  split <;> rfl

theorem blot_linkNext (f : Flat) (s v : Nat) : (f.linkNext s v).blot = f.blot.linkNext s v := by
  simp only [blot, linkNext, mk.injEq, true_and, and_true]
  funext y
  split
  · exact Order.blot_linkNext _ _
  · rfl

theorem blot_linkPrev (f : Flat) (s v : Nat) : (f.linkPrev s v).blot = f.blot.linkPrev s v := by
  simp only [blot, linkPrev, mk.injEq, true_and, and_true]
  funext y
  split
  · exact Order.blot_linkPrev _ _
  · rfl

theorem blot_ord (f : Flat) (s : Nat) : f.blot.ord s = (f.ord s).blot := rfl

theorem blot_alloc (f : Flat) : f.alloc.blot = f.blot.alloc := by
  have hfree : f.blot.freeHead = f.freeHead := rfl
  unfold alloc
  rw [hfree]
  split
  · simp only [blot, next, Order.blot_next]
  · rfl

theorem blot_place (f : Flat) (slot : Nat) (r : Resting) :
    (f.place slot r).blot = (f.blot.place slot r).blot := by
  have hwrite : ∀ (o : Order) l t x s,
      (((f.setOrd slot o).setLvl x t l).linkNext s slot).blot =
        ((f.blot.setOrd slot o.blot).setLvl x t l).linkNext s slot := by
    intro o l t x s
    rw [blot_linkNext, ← blot_setOrd]
    rfl
  have hagain : ∀ (o : Order) l t x s,
      (((f.blot.setOrd slot o).setLvl x t l).linkNext s slot).blot =
        ((f.blot.setOrd slot o.blot).setLvl x t l).linkNext s slot := by
    intro o l t x s
    have e : ((f.blot.setOrd slot o).setLvl x t l).blot = ((f.blot.setOrd slot o).blot).setLvl x t l := rfl
    rw [blot_linkNext, e, blot_setOrd, blot_blot]
  exact (hwrite _ _ _ _ _).trans (hagain _ _ _ _ _).symm

theorem blot_enter (f : Flat) (slot : Nat) (r : Resting) :
    (f.enter slot r).blot = (f.blot.enter slot r).blot := by
  change ((f.place slot r).blot.setIds _).noteBest _ _ =
    ((f.blot.place slot r).blot.setIds _).noteBest _ _
  rw [blot_place]
  rfl

/-- An insert does not read what a blank slot has left over. -/
theorem blot_insert (f : Flat) (r : Resting) : (f.insert r).blot = (f.blot.insert r).blot := by
  change (f.alloc.enter f.nextSlot r).blot = (f.blot.alloc.enter f.nextSlot r).blot
  rw [blot_enter, blot_alloc]

/-- Neither does a partial fill of a live order. -/
theorem blot_fillSlot (f : Flat) {slot : Nat} (h : (f.ord slot).orderId ≠ 0) (n : Int) :
    (f.fillSlot slot n).blot = (f.blot.fillSlot slot n).blot := by
  have ho : f.blot.ord slot = f.ord slot := Order.blot_of_live h
  unfold fillSlot
  rw [ho]
  change (f.setOrd slot _).blot.setLvl _ _ _ = (f.blot.setOrd slot _).blot.setLvl _ _ _
  rw [blot_setOrd, blot_setOrd, blot_blot]
  rfl

theorem blot_unlink (f : Flat) (slot : Nat) (x : Lane) (t : Nat) (rem : Int) :
    (f.unlink slot x t rem).blot = f.blot.unlink slot x t rem := by
  unfold unlink
  simp only [blot_ord, Order.blot_next, Order.blot_prev]
  change ((f.linkNext _ _).linkPrev _ _).blot.setLvl _ _ _ = _
  rw [blot_linkPrev, blot_linkNext]
  rfl

theorem blot_free (f : Flat) (slot : Nat) : (f.free slot).blot = (f.blot.free slot).blot := by
  have h := Order.blot_free (f.ord slot) f.freeHead
  change { (f.setOrd slot _).blot with freeHead := slot } =
    { (f.blot.setOrd slot _).blot with freeHead := slot }
  rw [blot_setOrd, blot_setOrd, blot_blot, blot_ord, ← h]
  rfl

/-- What a removal books in a slot is blotted out once the slot is free. -/
theorem blot_booked (f : Flat) (slot : Nat) (x : Lane) (t : Nat) (rem n : Int) :
    (((f.setOrd slot { f.ord slot with filled := n }).unlink slot x t rem).free slot).blot =
      ((f.unlink slot x t rem).free slot).blot := by
  have hslot : (f.setOrd slot { f.ord slot with filled := n }).ord slot =
      { f.ord slot with filled := n } := if_pos rfl
  unfold free unlink
  rw [hslot]
  simp only [blot, setOrd, setLvl, linkPrev, linkNext, mk.injEq, true_and, and_true]
  funext y
  by_cases hy : y = slot
  · subst hy
    simp only [if_true, Order.blot]
    split_ifs <;> rfl
  · simp only [if_neg hy]

theorem blot_repairBest (f : Flat) (x : Lane) (t : Nat) :
    (f.repairBest x t).blot = f.blot.repairBest x t := by
  cases x <;> rfl

/-- The memory without the order `o` of `slot`, before the best is repaired. -/
def taken (f : Flat) (ids : IdMap) (slot : Nat) (o : Order) : Flat :=
  ((f.setIds ids).unlink slot (laneOf o.side) (f.grid.tickOf o.price) (i64 (o.qty - o.filled))).free
    slot

theorem blot_taken (f : Flat) (ids : IdMap) (slot : Nat) (o : Order) :
    (f.taken ids slot o).blot = (f.blot.taken ids slot o).blot := by
  have hids : (f.blot.setIds ids).blot = (f.setIds ids).blot :=
    congrArg (setIds · ids) (blot_blot f)
  rw [taken, taken, blot_free, blot_unlink, ← hids, ← blot_unlink, ← blot_free]
  rfl

/-- A removal leaves the same memory, but for what the freed slot has left over,
whatever it books. -/
theorem blot_remove_mark (f : Flat) (orderId : Int) (slot : Nat) {mark : Order → Order}
    (hm : Books mark) : (f.remove orderId slot mark).blot =
      (f.taken (f.ids.remove orderId) slot (f.ord slot)).blot.repairBest (laneOf (f.ord slot).side)
        (f.grid.tickOf (f.ord slot).price) := by
  obtain ⟨n, hn⟩ : ∃ n, mark (f.ord slot) = { f.ord slot with filled := n } := by
    obtain e | e := hm (f.ord slot)
    · exact ⟨(f.ord slot).filled, e⟩
    · exact ⟨(f.ord slot).qty, e⟩
  have h := blot_booked (f.setIds (f.ids.remove orderId)) slot (laneOf (f.ord slot).side)
    (f.grid.tickOf (f.ord slot).price) (i64 ((f.ord slot).qty - (f.ord slot).filled)) n
  refine (blot_repairBest _ _ _).trans (congrArg (repairBest · _ _) (Eq.trans ?_ h))
  rw [hn]
  rfl

/-- A removal of a live order does not read what blank slots have left over. -/
theorem blot_remove (f : Flat) (orderId : Int) {slot : Nat} (h : (f.ord slot).orderId ≠ 0)
    {mark mark' : Order → Order} (hm : Books mark) (hm' : Books mark') :
    (f.remove orderId slot mark).blot = (f.blot.remove orderId slot mark').blot := by
  have ho : f.blot.ord slot = f.ord slot := Order.blot_of_live h
  rw [blot_remove_mark f orderId slot hm, blot_remove_mark f.blot orderId slot hm', ho, blot_taken]
  rfl

end Flat

/-- The same call, or a cancel for a fill, or a fill for a cancel. -/
inductive Op.Swap : Op → Op → Prop where
  | same (op : Op) : Swap op op
  | fillFor (orderId : Int) : Swap (.cancel orderId) (.fill orderId)
  | cancelFor (orderId : Int) : Swap (.fill orderId) (.cancel orderId)

namespace Op.Swap

variable {op op' : Op}

theorem symm (h : Swap op op') : Swap op' op := by
  cases h with
  | same => exact same _
  | fillFor => exact cancelFor _
  | cancelFor => exact fillFor _

theorem ledger (h : Swap op op') (L : Ledger) : L.apply op = L.apply op' := by
  cases h <;> rfl

theorem admitted (h : Swap op op') {g : Grid} {L : Ledger} : op.Admitted g L ↔ op'.Admitted g L := by
  cases h <;> exact Iff.rfl

theorem ready (h : Swap op op') {cap : Nat} {g : Grid} {L : Ledger} :
    op.Ready cap g L ↔ op'.Ready cap g L := by
  cases h <;> exact Iff.rfl

/-- A call does the same to the memory, whichever of the two it is. -/
theorem step_blot (h : Swap op op') {f f' : Flat} {L : Ledger} {q : Lane → Nat → List Nat}
    (hrep : Rep f L q) (hop : op.Admitted f.grid L) (e : f.blot = f'.blot) :
    (f.step op).blot = (f'.step op').blot := by
  have hids : f'.ids = f.ids := (congrArg Flat.ids e).symm
  have hlive : ∀ {orderId : Int}, orderId ∈ L.ids → ∃ slot, f.ids orderId = some slot ∧
      (f.ord slot).orderId ≠ 0 ∧ (f'.ord slot).orderId ≠ 0 := by
    intro orderId hmem
    obtain ⟨slot, hs, hq, -⟩ := hrep.ids_isSome hmem
    have hne := hrep.queued_id_ne hq
    have hid := congrArg Order.orderId (congrFun (congrArg Flat.ord e) slot)
    simp only [Flat.blot_ord, Order.blot_orderId] at hid
    exact ⟨slot, hs, hne, hid ▸ hne⟩
  have hremove : ∀ {orderId : Int} {mark mark' : Order → Order}, orderId ∈ L.ids →
      Flat.Books mark → Flat.Books mark' → ∃ slot, f.ids orderId = some slot ∧
        (f.remove orderId slot mark).blot = (f'.remove orderId slot mark').blot := by
    intro orderId mark mark' hmem hm hm'
    obtain ⟨slot, hs, hne, hne'⟩ := hlive hmem
    refine ⟨slot, hs, ?_⟩
    rw [f.blot_remove orderId hne hm hm, f'.blot_remove orderId hne' hm' hm, e]
  cases h with
  | same =>
    cases op with
    | insert orderId price qty side =>
      simp only [Flat.step]
      rw [f.blot_insert, f'.blot_insert, e]
    | update orderId n =>
      obtain ⟨slot, hs, hne, hne'⟩ := hlive hop.1
      simp only [Flat.step, hids, hs]
      rw [f.blot_fillSlot hne, f'.blot_fillSlot hne', e]
    | cancel orderId =>
      obtain ⟨slot, hs, e⟩ := hremove hop books_withdrawn books_withdrawn
      simpa only [Flat.step, hids, hs] using e
    | fill orderId =>
      obtain ⟨slot, hs, e⟩ := hremove hop books_completed books_completed
      simpa only [Flat.step, hids, hs] using e
  | fillFor orderId =>
    obtain ⟨slot, hs, e⟩ := hremove hop books_withdrawn books_completed
    simpa only [Flat.step, hids, hs] using e
  | cancelFor orderId =>
    obtain ⟨slot, hs, e⟩ := hremove hop books_completed books_withdrawn
    simpa only [Flat.step, hids, hs] using e

/-- The same of a whole run. -/
theorem steps_blot {ops ops' : List Op} (h : List.Forall₂ Swap ops ops') {cap : Nat} {f f' : Flat}
    {L : Ledger} (hholds : f.Holds cap L) (hready : HiPerf.Ready cap f.grid L ops)
    (e : f.blot = f'.blot) :
    (f.steps ops).blot = (f'.steps ops').blot ∧ HiPerf.Ready cap f.grid L ops' ∧
      L.after ops = L.after ops' := by
  induction h generalizing f f' L with
  | nil => exact ⟨e, trivial, rfl⟩
  | cons hop _ ih =>
    rename_i op op' ops ops' _
    obtain ⟨q, fl, hrep, -, -⟩ := id hholds
    have hgrid := f.step_grid op
    obtain ⟨e', hready', hledger⟩ := ih (hholds.step hready.1) (hgrid.symm ▸ hready.2)
      (hop.step_blot hrep hready.1.1 e)
    rw [hgrid, hop.ledger L] at hready'
    refine ⟨e', ⟨hop.ready.mp hready.1, hready'⟩, ?_⟩
    rw [Ledger.after_cons, Ledger.after_cons, hledger, hop.ledger L]

theorem wellFormed {cfg : SmrConfig} {ops ops' : List Op} (h : List.Forall₂ Swap ops ops')
    {L : Ledger} (hwf : HiPerf.WellFormed cfg L ops) : HiPerf.WellFormed cfg L ops' := by
  induction h generalizing L with
  | nil => trivial
  | cons hop _ ih =>
    refine ⟨?_, hop.ledger L ▸ ih hwf.2⟩
    have h₁ := hwf.1
    cases hop <;> exact h₁

theorem slotsFit {ops ops' : List Op} (h : List.Forall₂ Swap ops ops') {L : Ledger}
    (hslots : HiPerf.SlotsFit L ops) : HiPerf.SlotsFit L ops' := by
  induction h generalizing L with
  | nil => trivial
  | cons hop _ ih =>
    refine ⟨?_, hop.ledger L ▸ ih hslots.2⟩
    have h₁ := hslots.1
    cases hop <;> exact h₁

end Op.Swap

theorem WellFormed.take {cfg : SmrConfig} {L : Ledger} {ops : List Op} (h : WellFormed cfg L ops)
    (n : Nat) : WellFormed cfg L (ops.take n) := by
  rw [← List.take_append_drop n ops, wellFormed_append] at h
  exact h.1

theorem SlotsFit.take {L : Ledger} {ops : List Op} (h : SlotsFit L ops) (n : Nat) :
    SlotsFit L (ops.take n) := by
  induction ops generalizing L n with
  | nil => rw [List.take_nil]; trivial
  | cons op ops ih =>
    cases n with
    | zero => trivial
    | succ n => exact ⟨h.1, ih h.2 n⟩

end HiPerf
