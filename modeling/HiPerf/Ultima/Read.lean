import HiPerf.Digest.Model
import HiPerf.Ultima.Model

/-!
What a reader makes of a version: the digest `digest_ultima` and the image
`encode_at`, both from the tables of that version alone.
-/

namespace HiPerf

open Machine Tables Bytes

variable {db : Db}

/-- The loop over the levels of a side, from `t` on, of which `k` are left. -/
def rowLane (levels : db.Table LevelRec) (orders : db.Table Order) (nLevels side t : Nat) :
    Nat → Except Halt (List Field)
  | 0 => pure []
  | k + 1 =>
    match db.get levels (side * nLevels + t + 1) with
    | none => rowLane levels orders nLevels side (t + 1) k
    | some (_, _, l) =>
      if l.head = NIL then rowLane levels orders nLevels side (t + 1) k
      else do
        let ids ← Digest.walk (fun s => db.get orders (rowOf s)) (.message "chain order")
          (db.len orders + 1) l.head
        let rest ← rowLane levels orders nLevels side (t + 1) k
        return Digest.putLevel side t l.qtyTotal l.count ++ ids ++ rest

def digestTables (levels : db.Table LevelRec) (orders : db.Table Order) (m : MetaRec) :
    Except Halt (List UInt8) := do
  let bids ← rowLane levels orders m.nLevels 0 0 m.nLevels
  let asks ← rowLane levels orders m.nLevels 1 0 m.nLevels
  let live := (db.iter orders).map fun r => r.2.resting
  return bytes ([(4, u32 m.bestBid), (4, u32 m.bestAsk), (4, db.len orders)] ++ bids ++ asks ++
    (Digest.sortUnstable live).flatMap Digest.putOrder)

def digestUltima (store : db.Store (UltimaTables db)) (version : Nat) :
    Except Halt (List UInt8) := do
  let rtx ← Digest.read (.message "read txn") (db.beginRead store version)
  let levels ← Digest.read (.message "levels") (db.readTable rtx.levels)
  let orders ← Digest.read (.message "orders") (db.readTable rtx.orders)
  let metas ← Digest.read (.message "meta") (db.readTable rtx.metas)
  let m ← Digest.read (.message "meta rec") (db.get metas 1)
  digestTables levels orders m

/-- Ultima never recycles a slot, so there is no free list to encode. -/
def MetaRec.scalars (m : MetaRec) : Scalars :=
  ⟨m.priceMin, m.tick, m.nLevels, m.capacity, m.hwm, m.bestBid, m.bestAsk, NIL⟩

namespace Encoder

def putLevelRows : List (Nat × LevelRec) → Run Encoder Unit
  | [] => pure ()
  | (_, side, t, l) :: rows =>
    if l.head = NIL then putLevelRows rows
    else do
      putLevel side t l
      putLevelRows rows

def putOrderRows : List (Nat × Order) → Run Encoder Unit
  | [] => pure ()
  | (row, o) :: rows => do
    putOrder (slotOf row) o
    putOrderRows rows

def messageTables (levels : db.Table LevelRec) (orders : db.Table Order) (m : MetaRec) :
    Run Encoder Nat := do
  let levelCount := u16 ((db.iter levels).countP fun r => r.2.2.2.head ≠ NIL)
  setLimit (HEADER_LEN + SBE_BLOCK_LENGTH)
  header
  scalars m.scalars
  groupWrap LEVELS_BLOCK levelCount
  putLevelRows (db.iter levels)
  groupWrap ORDERS_BLOCK (u16 (db.len orders))
  putOrderRows (db.iter orders)
  return (← get).limit

def messageAt (store : db.Store (UltimaTables db)) (version : Nat) : Run Encoder Nat := do
  let rtx ← expect "read txn" (db.beginRead store version)
  let levels ← expect "levels" (db.readTable rtx.levels)
  let orders ← expect "orders" (db.readTable rtx.orders)
  let metas ← expect "meta" (db.readTable rtx.metas)
  let m ← expect "meta rec" (db.get metas 1)
  messageTables levels orders m

end Encoder

def encodeAt (crc32c : List UInt8 → UInt32) (store : db.Store (UltimaTables db)) (version : Nat)
    (buf : List UInt8) : Except Panic (List UInt8 × Nat) :=
  match (Encoder.messageAt store version >>= Encoder.trailer crc32c) ⟨buf, 0, 0, 0, 0⟩ with
  | .ok len e => .ok (e.data, len)
  | .error p _ => .error p

end HiPerf
