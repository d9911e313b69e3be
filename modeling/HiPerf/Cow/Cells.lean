import HiPerf.Cow.Model
import HiPerf.Lib.Along

/-!
A copy-on-write book touches its chunks through `order_mut` and `level_mut`
alone. What these two keep, every call keeps; everything else in a call leaves
the chunks and their tables as they are.
-/

namespace HiPerf

open Machine Exec Epoch

namespace CowBook

/-- The chunks, the tables and the generation are the same. -/
structure SameCells (w w' : CowBook) : Prop where
  mem : w'.mem = w.mem
  gen : w'.gen = w.gen
  chunk : w'.chunk = w.chunk
  orderChunks : w'.orderChunks = w.orderChunks
  bidChunks : w'.bidChunks = w.bidChunks
  askChunks : w'.askChunks = w.askChunks

instance : Std.Refl SameCells := ⟨fun _ => ⟨rfl, rfl, rfl, rfl, rfl, rfl⟩⟩

instance : IsTrans CowBook SameCells := ⟨fun _ _ _ h h' => ⟨h'.mem.trans h.mem, h'.gen.trans h.gen,
  h'.chunk.trans h.chunk, h'.orderChunks.trans h.orderChunks, h'.bidChunks.trans h.bidChunks,
  h'.askChunks.trans h.askChunks⟩⟩

/-- A program that leaves the chunks alone. -/
abbrev Reads {α : Type} (x : Run CowBook α) : Prop := Along SameCells x

theorem order_reads (slot : Nat) : Reads (order slot) :=
  Along.read fun w => by unfold last order; cases w.order? slot <;> rfl

theorem level_reads (side t : Nat) : Reads (level side t) :=
  Along.read fun w => by unfold last level; cases w.level? side t <;> rfl

theorem getSlot_reads (orderId : Int) : Reads (getSlot orderId) :=
  Along.read fun w => by unfold last getSlot; cases w.idmap orderId <;> rfl

theorem removeId_reads (orderId : Int) (text : String) : Reads (removeId orderId text) := by
  intro w
  unfold last removeId
  cases w.idmap orderId with
  | none => exact ⟨rfl, rfl, rfl, rfl, rfl, rfl⟩
  | some slot => exact ⟨rfl, rfl, rfl, rfl, rfl, rfl⟩

theorem tickOf_reads (price : Int) : Reads (tickOf price) :=
  Along.get_bind fun _ => Along.ite (Along.throw _) (Along.ite (Along.throw _) (Along.pure _))

theorem allocSlot_reads : Reads allocSlot := by
  refine Along.get_bind fun _ => Along.ite ?_ (Along.ite (Along.throw _) ?_)
  · exact (order_reads _).bind fun o =>
      (Along.modify fun _ => ⟨rfl, rfl, rfl, rfl, rfl, rfl⟩).bind fun _ => Along.pure _
  · exact (Along.modify fun _ => ⟨rfl, rfl, rfl, rfl, rfl, rfl⟩).bind fun _ => Along.pure _

theorem noteBest_reads (side t : Nat) : Reads (noteBest side t) :=
  (Along.modify fun _ => ⟨rfl, rfl, rfl, rfl, rfl, rfl⟩).bind fun _ =>
    Along.modify fun _ => ⟨rfl, rfl, rfl, rfl, rfl, rfl⟩

theorem scanBids_reads (t : Nat) : Reads (scanBids t) := by
  induction t with
  | zero => exact (level_reads 0 0).bind fun l => Along.ite (Along.pure _) (Along.pure _)
  | succ t ih => exact (level_reads 0 (t + 1)).bind fun l => Along.ite (Along.pure _) ih

theorem scanAsks_reads (t n : Nat) : Reads (scanAsks t n) := by
  induction n generalizing t with
  | zero => exact Along.pure _
  | succ n ih => exact (level_reads 1 t).bind fun l => Along.ite (Along.pure _) (ih (t + 1))

theorem repairBest_reads (side t : Nat) : Reads (repairBest side t) := by
  refine Along.get_bind fun w => Along.ite ?_ ?_
  · exact Along.ite (Along.pure _) ((level_reads 0 t).bind fun l => Along.ite (Along.pure _)
      ((scanBids_reads t).bind fun nb => Along.modify fun _ => ⟨rfl, rfl, rfl, rfl, rfl, rfl⟩))
  · exact Along.ite (Along.pure _) ((level_reads 1 t).bind fun l => Along.ite (Along.pure _)
      ((scanAsks_reads t _).bind fun na => Along.modify fun _ => ⟨rfl, rfl, rfl, rfl, rfl, rfl⟩))

/-- A preorder that the two accessors keep to, and that sees nothing but chunks. -/
structure Cellwise (R : CowBook → CowBook → Prop) : Prop where
  same : ∀ {w w'}, SameCells w w' → R w w'
  order : ∀ slot write, Along R (orderMut slot write)
  level : ∀ side t write, Along R (levelMut side t write)

namespace Cellwise

variable {R : CowBook → CowBook → Prop} {α : Type}

theorem reads (h : Cellwise R) {x : Run CowBook α} (hx : Reads x) : Along R x :=
  fun w => h.same (hx w)

theorem scalars (h : Cellwise R) {g : CowBook → CowBook} (hg : ∀ w, SameCells w (g w)) :
    Along R (modify g : Run CowBook Unit) := fun w => h.same (hg w)

variable [IsTrans CowBook R]

theorem freeSlot (h : Cellwise R) (slot : Nat) : Along R (freeSlot slot) :=
  Along.get_bind fun _ => (h.order slot _).bind fun _ =>
    h.scalars fun _ => ⟨rfl, rfl, rfl, rfl, rfl, rfl⟩

theorem insert (h : Cellwise R) (orderId price qty : Int) (side : Nat) :
    Along R (insert orderId price qty side) := by
  unfold CowBook.insert
  refine (h.reads (tickOf_reads price)).bind fun t => (h.reads allocSlot_reads).bind fun slot =>
    (h.reads (level_reads side t)).bind fun lvl => (h.order slot _).bind fun _ =>
      (h.level side t _).bind fun _ => ?_
  have hend : Along R (do
      modify fun w => { w with idmap := w.idmap.insert orderId slot }
      noteBest side t) := by
    refine (h.scalars ?_).bind fun _ => h.reads (noteBest_reads side t)
    exact fun _ => ⟨rfl, rfl, rfl, rfl, rfl, rfl⟩
  exact Along.ite ((h.order lvl.tail _).bind fun _ => hend) hend

variable [Std.Refl R]

theorem update (h : Cellwise R) (orderId fillQty : Int) : Along R (update orderId fillQty) :=
  (h.reads (getSlot_reads orderId)).bind fun slot => (h.order slot _).bind fun o =>
    (h.reads (tickOf_reads o.price)).bind fun t => (h.level o.side t _).bind fun _ => Along.pure _

theorem unlink (h : Cellwise R) (slot side t : Nat) (rem : Int) :
    Along R (unlink slot side t rem) := by
  unfold CowBook.unlink
  refine (h.reads (order_reads slot)).bind fun o => ?_
  have hlevel : Along R (do
      let _ ← levelMut side t fun lvl =>
        { head := if lvl.head = slot then o.next else lvl.head
          tail := if lvl.tail = slot then o.prev else lvl.tail
          qtyTotal := i64 (lvl.qtyTotal - rem)
          count := u32 (lvl.count - 1) }) :=
    (h.level side t _).bind fun _ => Along.pure _
  have hprev : Along R (do
      if o.next ≠ NIL then let _ ← orderMut o.next fun n => { n with prev := o.prev }
      let _ ← levelMut side t fun lvl =>
        { head := if lvl.head = slot then o.next else lvl.head
          tail := if lvl.tail = slot then o.prev else lvl.tail
          qtyTotal := i64 (lvl.qtyTotal - rem)
          count := u32 (lvl.count - 1) }) :=
    Along.ite ((h.order o.next _).bind fun _ => hlevel) hlevel
  exact Along.ite ((h.order o.prev _).bind fun _ => hprev) hprev

theorem cancel (h : Cellwise R) (orderId : Int) : Along R (cancel orderId) :=
  (h.reads (removeId_reads orderId _)).bind fun slot => (h.reads (order_reads slot)).bind fun o =>
    (h.reads (tickOf_reads o.price)).bind fun t => (h.unlink slot o.side t _).bind fun _ =>
      (h.freeSlot slot).bind fun _ => h.reads (repairBest_reads o.side t)

theorem fill (h : Cellwise R) (orderId : Int) : Along R (fill orderId) :=
  (h.reads (removeId_reads orderId _)).bind fun slot => (h.order slot _).bind fun o =>
    (h.reads (tickOf_reads o.price)).bind fun t => (h.unlink slot o.side t _).bind fun _ =>
      (h.freeSlot slot).bind fun _ => h.reads (repairBest_reads o.side t)

/-- What the accessors keep, a call keeps, whether or not it stops. -/
theorem apply (h : Cellwise R) (op : Op) : Along R (apply op) := by
  cases op with
  | insert orderId price qty side => exact h.insert orderId price qty side
  | update orderId fillQty => exact h.update orderId fillQty
  | cancel orderId => exact h.cancel orderId
  | fill orderId => exact h.fill orderId

end Cellwise

/-- The addresses in the tables are chunks of the memory, each in one place of one table. -/
structure Tabled (w : CowBook) : Prop where
  orders : Held w.mem.orders w.orderChunks
  bids : Held w.mem.levels w.bidChunks
  asks : Held w.mem.levels w.askChunks
  apart : Apart w.bidChunks w.askChunks

theorem Tabled.lane {w : CowBook} (h : w.Tabled) (side : Nat) : Held w.mem.levels (w.lane side) := by
  unfold CowBook.lane
  split
  · exact h.bids
  · exact h.asks

theorem Tabled.same {w w' : CowBook} (h : w.Tabled) (hs : SameCells w w') : w'.Tabled := by
  obtain ⟨hmem, -, -, ho, hb, ha⟩ := hs
  refine ⟨?_, ?_, ?_, ?_⟩
  · rw [hmem, ho]
    exact h.orders
  · rw [hmem, hb]
    exact h.bids
  · rw [hmem, ha]
    exact h.asks
  · rw [hb, ha]
    exact h.apart

theorem Tabled.setOrders {w : CowBook} (h : w.Tabled) {heap : Heap Order} {table : Array Nat}
    (hheld : Held heap table) : (w.setOrders heap table).Tabled := ⟨hheld, h.bids, h.asks, h.apart⟩

@[simp] theorem setLevels_gen (w : CowBook) (side : Nat) (heap : Heap PriceLevel)
    (table : Array Nat) : (w.setLevels side heap table).gen = w.gen := by
  unfold setLevels
  split <;> rfl

@[simp] theorem setLevels_mem (w : CowBook) (side : Nat) (heap : Heap PriceLevel)
    (table : Array Nat) : (w.setLevels side heap table).mem = ⟨w.mem.orders, heap⟩ := by
  unfold setLevels
  split <;> rfl

@[simp] theorem setLevels_lane (w : CowBook) (side : Nat) (heap : Heap PriceLevel)
    (table : Array Nat) : (w.setLevels side heap table).lane side = table := by
  unfold setLevels CowBook.lane
  split <;> rfl

theorem Tabled.setLevels {w : CowBook} (h : w.Tabled) {side ci : Nat} {heap heap' : Heap PriceLevel}
    {table : Array Nat} (e : own w.mem.levels (w.lane side) w.gen ci = some (heap, table))
    (hheld : Held heap' table) (hsize : heap'.size = heap.size) :
    (w.setLevels side heap' table).Tabled := by
  have hother : ∀ other, Held w.mem.levels other → Held heap' other := fun other ho =>
    ⟨fun i a e' => by have := ho.lt i a e'; have := own_size e; omega, ho.inj⟩
  unfold CowBook.lane at e
  unfold CowBook.setLevels
  by_cases hs : side = 0
  · rw [if_pos hs] at e ⊢
    exact ⟨h.orders, hheld, hother _ h.asks, own_apart h.apart h.asks.lt e⟩
  · rw [if_neg hs] at e ⊢
    exact ⟨h.orders, hother _ h.bids, hheld, (own_apart h.apart.symm h.bids.lt e).symm⟩

theorem Tabled.orderMut {w : CowBook} (h : w.Tabled) (slot : Nat) (write : Order → Order) :
    (last (orderMut slot write) w).Tabled := by
  unfold last CowBook.orderMut
  cases e : own w.mem.orders w.orderChunks w.gen (slot / w.chunk) with
  | none => exact h
  | some p =>
    obtain ⟨heap, table⟩ := p
    have hheld := own_held h.orders e
    cases hg : Epoch.get heap table w.chunk slot with
    | none =>
      simp only [hg]
      exact h.setOrders hheld
    | some o =>
      simp only [hg]
      exact h.setOrders (put_held hheld)

theorem Tabled.levelMut {w : CowBook} (h : w.Tabled) (side t : Nat) (write : PriceLevel → PriceLevel) :
    (last (levelMut side t write) w).Tabled := by
  unfold last CowBook.levelMut
  cases e : own w.mem.levels (w.lane side) w.gen (t / LEVEL_CHUNK) with
  | none => exact h
  | some p =>
    obtain ⟨heap, table⟩ := p
    have hheld := own_held (h.lane side) e
    cases hg : Epoch.get heap table LEVEL_CHUNK t with
    | none =>
      simp only [hg]
      exact h.setLevels e hheld rfl
    | some l =>
      simp only [hg]
      exact h.setLevels e (put_held hheld) (put_size ..)

/-- Tables in order stay in order. -/
def StaysTabled (w w' : CowBook) : Prop := w.Tabled → w'.Tabled

instance : Std.Refl StaysTabled := ⟨fun _ h => h⟩

instance : IsTrans CowBook StaysTabled := ⟨fun _ _ _ h h' hw => h' (h hw)⟩

theorem tabled_cellwise : Cellwise StaysTabled where
  same hs h := h.same hs
  order slot write _ h := h.orderMut slot write
  level side t write _ h := h.levelMut side t write

end CowBook

end HiPerf
