import HiPerf.Book.Run

/-!
The memory of a store that uses no slot twice: a new order comes to rest above
every resting one, and the slot of a removed order is cleared.
-/

namespace HiPerf

open Machine Fifo Ladder

variable {f : Flat} {L : Ledger} {q : Lane → Nat → List Nat} {n : Nat}

namespace Flat

def setHwm (f : Flat) (hwm : Nat) : Flat := { f with hwm }

/-- Put a new order in `slot`, which becomes the highest one. -/
def append (f : Flat) (slot : Nat) (r : Resting) : Flat := (f.setHwm (u32 (slot + 1))).enter slot r

/-- Take the order in `slot` out of its queue and clear the slot. -/
def delete (f : Flat) (slot : Nat) : Flat :=
  ((f.unlinked slot withdrawn).setOrd slot Order.zero).repairBest (laneOf (f.ord slot).side)
    (f.grid.tickOf (f.ord slot).price)

end Flat

/-- `f` holds the resting orders `L` in slots below `n` and nothing else. -/
structure Sparse (f : Flat) (L : Ledger) (q : Lane → Nat → List Nat) (n : Nat) : Prop where
  rep : Rep f L q
  blank : ∀ s, ¬ Queued q s → f.ord s = Order.zero
  below : ∀ s, Queued q s → s < n
  freeHead : f.freeHead = NIL

/-- The mark of used slots may be anything above the resting orders. -/
theorem Rep.setHwm (h : Rep f L q) (hn : n ≤ NIL) (hbelow : ∀ s, Queued q s → s < n)
    (hlive : ∀ s, (f.ord s).orderId ≠ 0 → Queued q s) : Rep (f.setHwm n) L q where
  grid_ok := h.grid_ok
  valid := h.valid
  queues x t :=
    { fifo := (h.queues x t).fifo
      recs := (h.queues x t).recs
      count := (h.queues x t).count
      qty := (h.queues x t).qty
      below := fun s hs => hbelow s ⟨x, t, hs⟩ }
  live s _ hs := hlive s hs
  ids := h.ids
  hwm_le := hn
  bestBid := h.bestBid
  bestAsk := h.bestAsk
  plain := h.plain

namespace Sparse

theorem live (h : Sparse f L q n) (s : Nat) : Queued q s ↔ (f.ord s).orderId ≠ 0 := by
  constructor
  · exact h.rep.queued_id_ne
  · intro hs
    by_contra hq
    rw [h.blank s hq] at hs
    exact hs rfl

/-- An empty memory. -/
theorem empty (hg : f.grid.Ok) (hlvl : ∀ x t, f.lvl x t = PriceLevel.EMPTY)
    (hord : ∀ s, f.ord s = Order.zero) (hids : ∀ i, f.ids i = none) (hh : f.hwm = 0)
    (hb : f.bestBid = -1) (ha : f.bestAsk = -1) (hf : f.freeHead = NIL) :
    Sparse f [] (fun _ _ => []) 0 where
  rep := Rep.empty hg hlvl hord hids hh hb ha
  blank s _ := hord s
  below s hs := by
    obtain ⟨_, _, hs⟩ := hs
    cases hs
  freeHead := hf

theorem append (h : Sparse f L q n) (hroom : n < NIL) {r : Resting} (hr0 : r.filled = 0)
    (ha : (Op.insert r.orderId r.price r.qty r.side).Admitted f.grid L) :
    Sparse (f.append n r) (L ++ [r]) (pushQ q (laneOf r.side) (f.grid.tickOf r.price) n) (n + 1) := by
  have hu : u32 (n + 1) = n + 1 := u32_eq_self (n := n + 1) (by simp only [NIL] at hroom; omega)
  have hlt : n < (f.setHwm (u32 (n + 1))).hwm := Nat.lt_of_lt_of_eq (Nat.lt_succ_self n) hu.symm
  have hfree : ¬ Queued q n := fun hq => Nat.lt_irrefl n (h.below n hq)
  have hblank : ((f.setHwm (u32 (n + 1))).ord n).orderId = 0 := congrArg Order.orderId (h.blank n hfree)
  have hrep : Rep (f.setHwm (u32 (n + 1))) L q :=
    h.rep.setHwm (by omega) (fun s hs => by have := h.below s hs; omega) fun s => (h.live s).mpr
  refine ⟨hrep.enter hlt hblank hr0 ha, fun s hs => ?_, fun s hs => ?_, h.freeHead⟩
  · rw [queued_pushQ, not_or] at hs
    exact (place_ord_ne hrep r hs.1 hs.2).trans (h.blank s hs.1)
  · rcases (queued_pushQ q _ _ n s).mp hs with hs | rfl
    · exact Nat.lt_succ_of_lt (h.below s hs)
    · exact Nat.lt_succ_self s

theorem fillSlot (h : Sparse f L q n) {slot : Nat} (hs : Queued q slot) {fillQty : Int}
    (hq : 0 ≤ fillQty) :
    Sparse (f.fillSlot slot fillQty) (L.apply (.update (f.ord slot).orderId fillQty)) q n where
  rep := h.rep.fillSlot hs hq
  blank s hsq := by
    rw [fillSlot_ord, if_neg, h.blank s hsq]
    rintro rfl
    exact hsq hs
  below := h.below
  freeHead := h.freeHead

theorem delete_ord (f : Flat) (slot s : Nat) : (f.delete slot).ord s =
    if s = slot then Order.zero else (f.unlinked slot Flat.withdrawn).ord s := by
  unfold Flat.delete
  cases laneOf (f.ord slot).side <;> rfl

theorem delete (h : Sparse f L q n) {slot : Nat} (hs : Queued q slot) :
    Sparse (f.delete slot) (L.apply (.cancel (f.ord slot).orderId)) (dropQ q slot) n where
  rep := by
    refine h.rep.take hs rfl rfl rfl (fun s hne => ?_) ?_ (fun s => ?_) ?_ rfl rfl
    · exact (congrArg Order.orderId (if_neg hne)).trans (unlinked_orderId hne)
    · exact congrArg Order.orderId (if_pos rfl)
    · change (if s = slot then Order.zero else (f.unlinked slot Flat.withdrawn).ord s).Plain
      split
      · exact Order.Plain.zero
      · exact h.rep.unlinked_plain books_withdrawn s
    · refine (h.rep.unlinked_queues hs books_withdrawn).frame rfl rfl (Nat.le_refl _)
        fun x t s hsq => ?_
      exact if_neg ((queued_dropQ h.rep slot s).mp ⟨x, t, hsq⟩).2
  blank s hsq := by
    rw [queued_dropQ h.rep, not_and_or, not_not] at hsq
    rw [delete_ord]
    split
    · rfl
    · rename_i hne
      have hsq' := hsq.resolve_right hne
      rw [h.rep.unlinked_ord hs books_withdrawn hsq', h.blank s hsq']
  below s hsq := h.below s ((queued_dropQ h.rep slot s).mp hsq).1
  freeHead := by
    unfold Flat.delete
    cases laneOf (f.ord slot).side <;> exact h.freeHead

end Sparse

/-- A memory and the slot its next order gets. -/
structure Tape where
  flat : Flat
  next : Nat

namespace Tape

def step (m : Tape) : Op → Tape
  | .insert orderId price qty side =>
    ⟨m.flat.append m.next ⟨orderId, price, qty, 0, side⟩, m.next + 1⟩
  | .update orderId fillQty =>
    match m.flat.ids orderId with
    | some slot => { m with flat := m.flat.fillSlot slot fillQty }
    | none => m
  | .cancel orderId =>
    match m.flat.ids orderId with
    | some slot => { m with flat := m.flat.delete slot }
    | none => m
  | .fill orderId =>
    match m.flat.ids orderId with
    | some slot => { m with flat := m.flat.delete slot }
    | none => m

def steps (m : Tape) (ops : List Op) : Tape := ops.foldl step m

/-- The memory holds `L`. -/
def Holds (m : Tape) (L : Ledger) : Prop := ∃ q, Sparse m.flat L q m.next

theorem step_next (m : Tape) (op : Op) : (m.step op).next = m.next + op.inserts := by
  cases op with
  | insert orderId price qty side => rfl
  | update orderId fillQty => simp only [step]; split <;> rfl
  | cancel orderId => simp only [step]; split <;> rfl
  | fill orderId => simp only [step]; split <;> rfl

theorem steps_next (m : Tape) (ops : List Op) : (m.steps ops).next = m.next + inserts ops := by
  induction ops generalizing m with
  | nil => rfl
  | cons op ops ih =>
    change ((m.step op).steps ops).next = _
    rw [ih, step_next, inserts, inserts, List.map_cons, List.sum_cons, Nat.add_assoc]

theorem step_grid (m : Tape) (op : Op) : (m.step op).flat.grid = m.flat.grid := by
  have hdelete : ∀ slot, (m.flat.delete slot).grid = m.flat.grid := by
    intro slot
    unfold Flat.delete
    cases laneOf (m.flat.ord slot).side <;> rfl
  cases op with
  | insert orderId price qty side => rfl
  | update orderId fillQty => simp only [step]; split <;> rfl
  | cancel orderId => simp only [step]; split <;> first | exact hdelete _ | rfl
  | fill orderId => simp only [step]; split <;> first | exact hdelete _ | rfl

/-- One call keeps the memory in step with the ledger. -/
theorem Holds.step {m : Tape} (h : m.Holds L) {op : Op} (hadm : op.Admitted m.flat.grid L)
    (hroom : m.next + op.inserts ≤ NIL) : (m.step op).Holds (L.apply op) := by
  obtain ⟨q, hs⟩ := h
  have hdelete : ∀ orderId ∈ L.ids, ∃ slot, m.flat.ids orderId = some slot ∧
      ∃ q, Sparse (m.flat.delete slot) (L.apply (.cancel orderId)) q m.next := by
    intro orderId hid
    obtain ⟨slot, e, hq, rfl⟩ := hs.rep.ids_isSome hid
    exact ⟨slot, e, _, hs.delete hq⟩
  cases op with
  | insert orderId price qty side => exact ⟨_, hs.append hroom rfl hadm⟩
  | update orderId fillQty =>
    obtain ⟨slot, e, hq, rfl⟩ := hs.rep.ids_isSome hadm.1
    simp only [Tape.step, e]
    exact ⟨q, hs.fillSlot hq hadm.2⟩
  | cancel orderId =>
    obtain ⟨slot, e, h⟩ := hdelete orderId hadm
    simp only [Tape.step, e]
    exact h
  | fill orderId =>
    obtain ⟨slot, e, h⟩ := hdelete orderId hadm
    simp only [Tape.step, e]
    exact h

end Tape

end HiPerf
