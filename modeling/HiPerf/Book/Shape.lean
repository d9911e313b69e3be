import HiPerf.Book.Model
import HiPerf.Lib.Along

/-!
No call, whether or not it stops, changes the grid of a book or the size of its
arrays.
-/

namespace HiPerf

open Machine Exec

namespace Book

structure SameShape (b b' : Book) : Prop where
  priceMin : b'.priceMin = b.priceMin
  tick : b'.tick = b.tick
  nLevels : b'.nLevels = b.nLevels
  bids : b'.bids.size = b.bids.size
  asks : b'.asks.size = b.asks.size
  pool : b'.pool.size = b.pool.size

instance : Std.Refl SameShape := ⟨fun _ => ⟨rfl, rfl, rfl, rfl, rfl, rfl⟩⟩

instance : IsTrans Book SameShape := ⟨fun _ _ _ h h' =>
  ⟨h'.priceMin.trans h.priceMin, h'.tick.trans h.tick, h'.nLevels.trans h.nLevels,
    h'.bids.trans h.bids, h'.asks.trans h.asks, h'.pool.trans h.pool⟩⟩

abbrev Shaped {α : Type} (x : Run Book α) : Prop := Along SameShape x

/-- Assignments to the other fields. -/
theorem modify_shaped {g : Book → Book} (h : ∀ b, SameShape b (g b)) :
    Shaped (modify g : Run Book PUnit) := Along.modify h

theorem order_shaped (slot : Nat) : Shaped (order slot) :=
  Along.read fun b => by unfold last order; cases b.pool[slot]? <;> rfl

theorem level_shaped (side t : Nat) : Shaped (level side t) :=
  Along.read fun b => by unfold last level; cases (b.lane side)[t]? <;> rfl

theorem getSlot_shaped (orderId : Int) : Shaped (getSlot orderId) :=
  Along.read fun b => by unfold last getSlot; cases b.idmap orderId <;> rfl

theorem removeId_shaped (orderId : Int) (text : String) : Shaped (removeId orderId text) := by
  intro b
  unfold last removeId
  cases b.idmap orderId with
  | none => exact refl_of SameShape b
  | some slot => exact ⟨rfl, rfl, rfl, rfl, rfl, rfl⟩

theorem tickOf_shaped (price : Int) : Shaped (tickOf price) :=
  Along.get_bind fun _ => Along.ite (Along.throw _) (Along.ite (Along.throw _) (Along.pure _))

theorem setOrder_shaped (slot : Nat) (o : Order) : Shaped (setOrder slot o) := by
  intro b
  by_cases h : slot < b.pool.size
  · simp only [last, setOrder, if_pos h]
    exact ⟨rfl, rfl, rfl, rfl, rfl, Array.size_setIfInBounds⟩
  · simp only [last, setOrder, if_neg h]
    exact refl_of SameShape b

theorem setLevel_shaped (side t : Nat) (l : PriceLevel) : Shaped (setLevel side t l) := by
  intro b
  by_cases h : t < (b.lane side).size
  · simp only [last, setLevel, if_pos h]
    split
    · exact ⟨rfl, rfl, rfl, Array.size_setIfInBounds, rfl, rfl⟩
    · exact ⟨rfl, rfl, rfl, rfl, Array.size_setIfInBounds, rfl⟩
  · simp only [last, setLevel, if_neg h]
    exact refl_of SameShape b

theorem setNext_shaped (slot v : Nat) : Shaped (setNext slot v) :=
  (order_shaped slot).bind fun _ => setOrder_shaped slot _

theorem setPrev_shaped (slot v : Nat) : Shaped (setPrev slot v) :=
  (order_shaped slot).bind fun _ => setOrder_shaped slot _

theorem allocSlot_shaped : Shaped allocSlot := by
  refine Along.get_bind fun _ => Along.ite ?_ (Along.ite (Along.throw _) ?_)
  · exact (order_shaped _).bind fun o => (modify_shaped fun _ => by constructor <;> rfl).bind
      fun _ => Along.pure _
  · exact (modify_shaped fun _ => by constructor <;> rfl).bind fun _ => Along.pure _

theorem freeSlot_shaped (slot : Nat) : Shaped (freeSlot slot) :=
  Along.get_bind fun _ => (order_shaped slot).bind fun _ => (setOrder_shaped slot _).bind fun _ =>
    modify_shaped fun _ => by constructor <;> rfl

theorem noteBest_shaped (side t : Nat) : Shaped (noteBest side t) :=
  (modify_shaped fun _ => by constructor <;> rfl).bind fun _ =>
    modify_shaped fun _ => by constructor <;> rfl

theorem insert_shaped (orderId price qty : Int) (side : Nat) :
    Shaped (insert orderId price qty side) := by
  unfold insert
  refine (tickOf_shaped price).bind fun t => allocSlot_shaped.bind fun slot =>
    (level_shaped side t).bind fun old => (setOrder_shaped slot _).bind fun _ =>
      (level_shaped side t).bind fun lvl => (setLevel_shaped side t _).bind fun _ => ?_
  have hend : Shaped (do
      modify fun b => { b with idmap := b.idmap.insert orderId slot }
      noteBest side t) :=
    (modify_shaped fun _ => by constructor <;> rfl).bind fun _ => noteBest_shaped side t
  exact Along.ite ((setNext_shaped old.tail slot).bind fun _ => hend) hend

theorem update_shaped (orderId fillQty : Int) : Shaped (update orderId fillQty) :=
  (getSlot_shaped orderId).bind fun slot => (order_shaped slot).bind fun o =>
    (setOrder_shaped slot _).bind fun _ => (tickOf_shaped o.price).bind fun t =>
      (level_shaped o.side t).bind fun _ => setLevel_shaped o.side t _

theorem unlink_shaped (slot side t : Nat) (rem : Int) : Shaped (unlink slot side t rem) := by
  unfold unlink
  refine (order_shaped slot).bind fun o => ?_
  have hlevel : Shaped (do
      let lvl ← level side t
      setLevel side t
        { head := if lvl.head = slot then o.next else lvl.head
          tail := if lvl.tail = slot then o.prev else lvl.tail
          qtyTotal := i64 (lvl.qtyTotal - rem)
          count := u32 (lvl.count - 1) }) :=
    (level_shaped side t).bind fun _ => setLevel_shaped side t _
  have hprev : Shaped (do
      if o.next ≠ NIL then setPrev o.next o.prev
      let lvl ← level side t
      setLevel side t
        { head := if lvl.head = slot then o.next else lvl.head
          tail := if lvl.tail = slot then o.prev else lvl.tail
          qtyTotal := i64 (lvl.qtyTotal - rem)
          count := u32 (lvl.count - 1) }) :=
    Along.ite ((setPrev_shaped o.next o.prev).bind fun _ => hlevel) hlevel
  exact Along.ite ((setNext_shaped o.prev o.next).bind fun _ => hprev) hprev

theorem scanBids_shaped (t : Nat) : Shaped (scanBids t) := by
  induction t with
  | zero => exact (level_shaped 0 0).bind fun _ => Along.ite (Along.pure _) (Along.pure _)
  | succ t ih => exact (level_shaped 0 (t + 1)).bind fun _ => Along.ite (Along.pure _) ih

theorem scanAsks_shaped (t n : Nat) : Shaped (scanAsks t n) := by
  induction n generalizing t with
  | zero => exact Along.pure _
  | succ n ih => exact (level_shaped 1 t).bind fun _ => Along.ite (Along.pure _) (ih (t + 1))

theorem repairBest_shaped (side t : Nat) : Shaped (repairBest side t) := by
  refine Along.get_bind fun _ => Along.ite ?_ ?_
  · exact Along.ite (Along.pure _) ((level_shaped 0 t).bind fun _ => Along.ite (Along.pure _)
      ((scanBids_shaped t).bind fun _ => modify_shaped fun _ => by constructor <;> rfl))
  · exact Along.ite (Along.pure _) ((level_shaped 1 t).bind fun _ => Along.ite (Along.pure _)
      ((scanAsks_shaped t _).bind fun _ => modify_shaped fun _ => by constructor <;> rfl))

theorem cancel_shaped (orderId : Int) : Shaped (cancel orderId) :=
  (removeId_shaped orderId _).bind fun slot => (order_shaped slot).bind fun o =>
    (tickOf_shaped o.price).bind fun t => (unlink_shaped slot o.side t _).bind fun _ =>
      (freeSlot_shaped slot).bind fun _ => repairBest_shaped o.side t

theorem fill_shaped (orderId : Int) : Shaped (fill orderId) :=
  (removeId_shaped orderId _).bind fun slot => (order_shaped slot).bind fun o =>
    (setOrder_shaped slot _).bind fun _ => (tickOf_shaped o.price).bind fun t =>
      (unlink_shaped slot o.side t _).bind fun _ =>
        (freeSlot_shaped slot).bind fun _ => repairBest_shaped o.side t

theorem apply_shaped (op : Op) : Shaped (apply op) := by
  cases op with
  | insert orderId price qty side => exact insert_shaped orderId price qty side
  | update orderId fillQty => exact update_shaped orderId fillQty
  | cancel orderId => exact cancel_shaped orderId
  | fill orderId => exact fill_shaped orderId

theorem run_shaped (ops : List Op) : Shaped (run ops) := Along.runAll apply_shaped ops

end Book

end HiPerf
