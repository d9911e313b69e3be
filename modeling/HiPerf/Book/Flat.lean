import HiPerf.Book.Ledger
import HiPerf.Lib.Ladder

/-!
The book as a memory: slots, levels, scalars and the id-map, with no bounds on
either. Every store of the repository, whatever holds its slots, performs these
steps; each is stated once, with the wrapping the code has.
-/

namespace HiPerf

open Machine

/-- What a caller sees of a slot. -/
def Order.resting (o : Order) : Resting := ⟨o.orderId, o.price, o.qty, o.filled, o.side⟩

structure Flat where
  grid : Grid
  ord : Nat → Order
  lvl : Lane → Nat → PriceLevel
  hwm : Nat
  freeHead : Nat
  bestBid : Int
  bestAsk : Int
  ids : IdMap

namespace Flat

def next (f : Flat) (s : Nat) : Nat := (f.ord s).next

def prev (f : Flat) (s : Nat) : Nat := (f.ord s).prev

def setOrd (f : Flat) (s : Nat) (o : Order) : Flat :=
  { f with ord := fun y => if y = s then o else f.ord y }

def setLvl (f : Flat) (x : Lane) (t : Nat) (l : PriceLevel) : Flat :=
  { f with lvl := fun y u => if y = x ∧ u = t then l else f.lvl y u }

def setIds (f : Flat) (ids : IdMap) : Flat := { f with ids }

def setBestBid (f : Flat) (bestBid : Int) : Flat := { f with bestBid }

def setBestAsk (f : Flat) (bestAsk : Int) : Flat := { f with bestAsk }

/-- Write a `next` link, unless there is no slot to write. -/
def linkNext (f : Flat) (s v : Nat) : Flat :=
  { f with ord := fun y => if y = s ∧ s ≠ NIL then { f.ord y with next := v } else f.ord y }

def linkPrev (f : Flat) (s v : Nat) : Flat :=
  { f with ord := fun y => if y = s ∧ s ≠ NIL then { f.ord y with prev := v } else f.ord y }

/-- The slot the next new order gets: the last one freed, else a fresh one. -/
def nextSlot (f : Flat) : Nat := if f.freeHead ≠ NIL then f.freeHead else f.hwm

def alloc (f : Flat) : Flat :=
  if f.freeHead ≠ NIL then { f with freeHead := f.next f.freeHead }
  else { f with hwm := u32 (f.hwm + 1) }

/-- Write a new order into `slot` and link it behind the tail of its level. -/
def place (f : Flat) (slot : Nat) (r : Resting) : Flat :=
  let x := laneOf r.side
  let t := f.grid.tickOf r.price
  let l := f.lvl x t
  ((f.setOrd slot ⟨r.orderId, r.price, r.qty, r.filled, NIL, l.tail, r.side⟩).setLvl x t
    { head := if l.tail = NIL then slot else l.head
      tail := slot
      qtyTotal := i64 (l.qtyTotal + r.qty)
      count := u32 (l.count + 1) }).linkNext l.tail slot

/-- Compare a level that has just been occupied with the cached best. -/
def noteBest (f : Flat) (side t : Nat) : Flat :=
  (f.setBestBid (if side = 0 ∧ (f.bestBid < 0 ∨ f.bestBid < t) then t else f.bestBid)).setBestAsk
    (if side = 1 ∧ (f.bestAsk < 0 ∨ (t : Int) < f.bestAsk) then t else f.bestAsk)

/-- Put a new order in `slot`. -/
def enter (f : Flat) (slot : Nat) (r : Resting) : Flat :=
  ((f.place slot r).setIds (f.ids.insert r.orderId slot)).noteBest r.side (f.grid.tickOf r.price)

def insert (f : Flat) (r : Resting) : Flat := f.alloc.enter f.nextSlot r

/-- A partial fill of the order in `slot`. -/
def fillSlot (f : Flat) (slot : Nat) (fillQty : Int) : Flat :=
  let o := f.ord slot
  let add := min fillQty (i64 (o.qty - o.filled))
  let x := laneOf o.side
  let t := f.grid.tickOf o.price
  (f.setOrd slot { o with filled := i64 (o.filled + add) }).setLvl x t
    { f.lvl x t with qtyTotal := i64 ((f.lvl x t).qtyTotal - add) }

/-- Take `slot` out of the queue at level `t`, and `rem` out of its quantity. -/
def unlink (f : Flat) (slot : Nat) (x : Lane) (t : Nat) (rem : Int) : Flat :=
  let o := f.ord slot
  let l := f.lvl x t
  ((f.linkNext o.prev o.next).linkPrev o.next o.prev).setLvl x t
    { head := if l.head = slot then o.next else l.head
      tail := if l.tail = slot then o.prev else l.tail
      qtyTotal := i64 (l.qtyTotal - rem)
      count := u32 (l.count - 1) }

/-- Put `slot` at the front of the free list. -/
def free (f : Flat) (slot : Nat) : Flat :=
  { f.setOrd slot { f.ord slot with orderId := 0, next := f.freeHead, prev := NIL } with
    freeHead := slot }

/-- Search inwards from level `t` if it was the cached best and is now empty. -/
def repairBest (f : Flat) (x : Lane) (t : Nat) : Flat :=
  match x with
  | .bid => f.setBestBid
      (if f.bestBid ≠ t ∨ (f.lvl .bid t).head ≠ NIL then f.bestBid
      else Ladder.scanDown (fun u => (f.lvl .bid u).head ≠ NIL) t)
  | .ask => f.setBestAsk
      (if f.bestAsk ≠ t ∨ (f.lvl .ask t).head ≠ NIL then f.bestAsk
      else Ladder.scanUp (fun u => (f.lvl .ask u).head ≠ NIL) t (f.grid.nLevels - t))

/-- Remove the order in `slot`; `mark` is what the removal books on it. -/
def remove (f : Flat) (orderId : Int) (slot : Nat) (mark : Order → Order) : Flat :=
  let o := f.ord slot
  let x := laneOf o.side
  let t := f.grid.tickOf o.price
  let f' := (f.setOrd slot (mark o)).setIds (f.ids.remove orderId)
  ((f'.unlink slot x t (i64 (o.qty - o.filled))).free slot).repairBest x t

/-- What a cancel books: nothing. -/
def withdrawn (o : Order) : Order := o

/-- What a fill books: the whole quantity. -/
def completed (o : Order) : Order := { o with filled := o.qty }

theorem setLvl_self (f : Flat) (x : Lane) (t : Nat) (l : PriceLevel) :
    (f.setLvl x t l).lvl x = fun u => if u = t then l else f.lvl x u := by
  funext u
  simp [setLvl]

theorem setLvl_other (f : Flat) {x y : Lane} (h : y ≠ x) (t : Nat) (l : PriceLevel) :
    (f.setLvl x t l).lvl y = f.lvl y := by
  funext u
  simp [setLvl, h]

theorem setLvl_setLvl (f : Flat) (x : Lane) (t : Nat) (l l' : PriceLevel) :
    (f.setLvl x t l).setLvl x t l' = f.setLvl x t l' := by
  simp only [setLvl, mk.injEq, true_and, and_true]
  funext y u
  split <;> rfl

end Flat

end HiPerf
