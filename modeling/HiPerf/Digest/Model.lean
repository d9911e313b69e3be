import HiPerf.Book.Flat
import HiPerf.Snapshot.Encode
import Mathlib.Data.List.Lex

/-!
The canonical digests of `smr-collections/common/src/digest.rs`: the cached
bests, every occupied level as a queue of order ids, and the resting orders
sorted by id. A digest is laid out as a list of fields.
-/

namespace HiPerf

open Machine Bytes

/-- Why there is no digest: a panic, or a chain that comes back to itself. -/
inductive Halt where
  | panic (p : Panic)
  | endless
  deriving DecidableEq, Repr

namespace Digest

def putLevel (side tick : Nat) (qtyTotal : Int) (count : Nat) : List Field :=
  [(1, side), (4, tick), (8, u64 qtyTotal), (4, count)]

def putOrder (r : Resting) : List Field :=
  [(8, u64 r.orderId), (8, u64 r.price), (8, u64 r.qty), (8, u64 r.filled), (1, r.side)]

/-- The tuple `live` holds for an order, in the order it is compared. -/
def key (r : Resting) : List Int := [r.orderId, r.price, r.qty, r.filled, r.side]

/-- `live.sort_unstable()`: equal tuples are equal, so no sort could tell. -/
def sortUnstable (live : List Resting) : List Resting :=
  live.mergeSort fun a b => decide (key a ≤ key b)

/-- What stops the digest where there is nothing to read is `p`. -/
def read {α : Type} (p : Panic) : Option α → Except Halt α
  | some a => pure a
  | none => throw (.panic p)

/-- The loop over the slots from `slot` on, of which `n` are left. -/
def liveFrom (order : Nat → Option Order) (slot : Nat) : Nat → Except Halt (List Resting)
  | 0 => pure []
  | n + 1 => do
    let o ← read .indexOutOfBounds (order slot)
    let live ← liveFrom order (slot + 1) n
    return if o.orderId ≠ 0 then o.resting :: live else live

/-- `while s != NIL`, in a store of fewer than `n` slots: a walk that has read
`n` of them has read one twice. -/
def walk (order : Nat → Option Order) (p : Panic) : Nat → Nat → Except Halt (List Field)
  | 0, _ => throw .endless
  | n + 1, s =>
    if s = NIL then pure []
    else do
      let o ← read p (order s)
      let ids ← walk order p n o.next
      return (8, u64 o.orderId) :: ids

/-- The loop over the levels of a lane from `t` on, of which `n` are left. -/
def lane (order : Nat → Option Order) (room side : Nat) (level : Nat → Option PriceLevel)
    (t : Nat) : Nat → Except Halt (List Field)
  | 0 => pure []
  | n + 1 => do
    let lvl ← read .indexOutOfBounds (level t)
    if lvl.head = NIL then lane order room side level (t + 1) n
    else do
      let ids ← walk order .indexOutOfBounds (room + 1) lvl.head
      let rest ← lane order room side level (t + 1) n
      return putLevel side t lvl.qtyTotal lvl.count ++ ids ++ rest

/-- The digest of what `v` shows, in a store of `room` slots. -/
def digest (room : Nat) (v : Source) : Except Halt (List UInt8) := do
  let live ← liveFrom v.order 0 v.scalars.hwm
  let bids ← lane v.order room 0 (v.level 0) 0 (v.width 0)
  let asks ← lane v.order room 1 (v.level 1) 0 (v.width 1)
  return bytes ([(4, u32 v.scalars.bestBid), (4, u32 v.scalars.bestAsk), (4, live.length)] ++
    bids ++ asks ++ (sortUnstable live).flatMap putOrder)

end Digest

def digestBook (b : Book) : Except Halt (List UInt8) := Digest.digest b.pool.size b.source

/-- `digest_root(r)` at a moment when the memory is `m`. -/
def digestRoot (r : Root) (m : Memory) : Except Halt (List UInt8) :=
  Digest.digest (Epoch.places m.orders r.orderChunks).length (r.source fun _ => m)

end HiPerf
