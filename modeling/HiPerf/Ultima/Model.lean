import HiPerf.Churn.Model
import HiPerf.Lib.Tables
import HiPerf.Snapshot.Image

/-!
The order book over `ultima_db` of `smr-collections/ultima-common/src/lib.rs`.
Levels, orders and scalars are rows of three tables, orders are linked through
`row - 1`, a removed order is a deleted row, and every call is one transaction.
What the database does is a parameter. An orders row has the fields of `Order`.
-/

namespace HiPerf

open Machine Tables

/-- The one row of the table of scalars. -/
structure MetaRec where
  priceMin : Int
  tick : Int
  nLevels : Nat
  capacity : Nat
  hwm : Nat
  bestBid : Int
  bestAsk : Int
  deriving DecidableEq, Repr

/-- The tables of a version, or of a transaction: those that were ever opened. -/
structure UltimaTables (db : Db) where
  levels : Option (db.Table LevelRec)
  orders : Option (db.Table Order)
  metas : Option (db.Table MetaRec)

def UltimaTables.empty (db : Db) : UltimaTables db := ⟨none, none, none⟩

structure UltimaBook (db : Db) where
  store : db.Store (UltimaTables db)
  version : Nat
  priceMin : Int
  tick : Int
  nLevels : Nat
  ids : IdMap

def slotOf (row : Nat) : Nat := u32 ((row : Int) - 1)

def rowOf (slot : Nat) : Nat := slot + 1

def expect {σ α : Type} (text : String) : Option α → Run σ α
  | some a => pure a
  | none => throw (.message text)

namespace UltimaBook

variable {db : Db}

def levelId (u : UltimaBook db) (side t : Nat) : Nat := side * u.nLevels + t + 1

def tickOf (price : Int) : Run (UltimaBook db) Nat := do
  let u ← get
  gridTick u.priceMin u.tick price

/-- `self.ids[&order_id]`. -/
def rowId (orderId : Int) : Run (UltimaBook db) Nat := fun u =>
  match u.ids orderId with
  | some row => .ok row u
  | none => .error .missingKey u

/-- `self.ids.remove(&order_id).expect(..)`. -/
def removeId (orderId : Int) (text : String) : Run (UltimaBook db) Nat := fun u =>
  match u.ids orderId with
  | some row => .ok row { u with ids := u.ids.remove orderId }
  | none => .error (.message text) u

def openTable {α : Type} (text : String) (t : Option (db.Table α)) :
    Run (UltimaBook db) (db.Table α) := expect text (db.openTable t)

/-- Write a `next` link, unless there is no row to write. -/
def linkNext (orders : db.Table Order) (slot next : Nat) (text text' : String) :
    Run (UltimaBook db) (db.Table Order) :=
  if slot ≠ NIL then do
    let p ← expect text (db.get orders (rowOf slot))
    expect text' (db.update orders (rowOf slot) { p with next })
  else pure orders

def linkPrev (orders : db.Table Order) (slot prev : Nat) (text text' : String) :
    Run (UltimaBook db) (db.Table Order) :=
  if slot ≠ NIL then do
    let n ← expect text (db.get orders (rowOf slot))
    expect text' (db.update orders (rowOf slot) { n with prev })
  else pure orders

/-- A level behind whose tail an order of `qty` comes to rest in `slot`. -/
def pushed (lvl : PriceLevel) (slot : Nat) (qty : Int) : PriceLevel where
  head := if lvl.tail = NIL then slot else lvl.head
  tail := slot
  qtyTotal := i64 (lvl.qtyTotal + qty)
  count := u32 (lvl.count + 1)

/-- A level that the order `o` in `slot` leaves. -/
def popped (lvl : PriceLevel) (slot : Nat) (o : Order) : PriceLevel where
  head := if lvl.head = slot then o.next else lvl.head
  tail := if lvl.tail = slot then o.prev else lvl.tail
  qtyTotal := i64 (lvl.qtyTotal - i64 (o.qty - o.filled))
  count := u32 (lvl.count - 1)

/-- The scalars after an insert at level `t`. -/
def noted (m : MetaRec) (slot side t : Nat) : MetaRec :=
  { m with
    hwm := u32 (slot + 1)
    bestBid := if side = 0 ∧ (m.bestBid < 0 ∨ i32 t > m.bestBid) then i32 t else m.bestBid
    bestAsk := if side = 1 ∧ (m.bestAsk < 0 ∨ i32 t < m.bestAsk) then i32 t else m.bestAsk }

/-- `for i in (0..=t).rev()`: the first occupied level, or -1. -/
def scanBids (occupied : Nat → Bool) : Nat → Int
  | 0 => if occupied 0 then i32 0 else -1
  | t + 1 => if occupied (t + 1) then i32 (t + 1 : Nat) else scanBids occupied t

/-- `for i in t..self.n_levels`, of which `n` are left. -/
def scanAsks (occupied : Nat → Bool) (t : Nat) : Nat → Int
  | 0 => -1
  | n + 1 => if occupied t then i32 t else scanAsks occupied (t + 1) n

/-- The scalars after level `t` was emptied; none if it was not the cached best. -/
def rescanBest (u : UltimaBook db) (levels : db.Table LevelRec) (m : MetaRec) (side t : Nat) :
    Option MetaRec :=
  let occupied := fun lid => (db.get levels lid).any fun r => r.2.2.head ≠ NIL
  if side = 0 then
    if m.bestBid ≠ i32 t then none
    else some { m with bestBid := scanBids (fun i => occupied (u.levelId 0 i)) t }
  else
    if m.bestAsk ≠ i32 t then none
    else some { m with bestAsk := scanAsks (fun i => occupied (u.levelId 1 i)) t (u.nLevels - t) }

def repairBest (wtx : UltimaTables db) (side t : Nat) : Run (UltimaBook db) (UltimaTables db) := do
  let (metas, levels) ← expect "open_tables2" (db.openTables2 wtx.metas wtx.levels)
  let m ← expect "meta rec" (db.get metas 1)
  match rescanBest (← get) levels m side t with
  | none => return { wtx with levels := some levels, metas := some metas }
  | some m =>
    let metas ← expect "meta update" (db.update metas 1 m)
    return { wtx with levels := some levels, metas := some metas }

def applyInsert (wtx : UltimaTables db) (orderId price qty : Int) (side : Nat) :
    Run (UltimaBook db) (UltimaTables db) := do
  let t ← tickOf price
  let lid := (← get).levelId side t
  let levels ← openTable "levels" wtx.levels
  let (lvlSide, lvlTick, lvl) ← expect "level" (db.get levels lid)
  let prevTail := lvl.tail
  let orders ← openTable "orders" wtx.orders
  let (row, orders) ← expect "order insert"
    (db.insert orders ⟨orderId, price, qty, 0, NIL, prevTail, side⟩)
  let slot := slotOf row
  modify fun u => { u with ids := u.ids.insert orderId row }
  let orders ← linkNext orders prevTail slot "prev order" "prev update"
  let levels ← openTable "levels" (some levels)
  let levels ← expect "level update" (db.update levels lid (lvlSide, lvlTick, pushed lvl slot qty))
  let metas ← openTable "meta" wtx.metas
  let m ← expect "meta rec" (db.get metas 1)
  let metas ← expect "meta update" (db.update metas 1 (noted m slot side t))
  return ⟨some levels, some orders, some metas⟩

def applyUpdate (wtx : UltimaTables db) (orderId fillQty : Int) :
    Run (UltimaBook db) (UltimaTables db) := do
  let row ← rowId orderId
  let orders ← openTable "orders" wtx.orders
  let o ← expect "order" (db.get orders row)
  let add := min fillQty (i64 (o.qty - o.filled))
  let t ← tickOf o.price
  let lid := (← get).levelId o.side t
  let orders ← expect "order update" (db.update orders row { o with filled := i64 (o.filled + add) })
  let levels ← openTable "levels" wtx.levels
  let (lvlSide, lvlTick, lvl) ← expect "level" (db.get levels lid)
  let levels ← expect "level update"
    (db.update levels lid (lvlSide, lvlTick, { lvl with qtyTotal := i64 (lvl.qtyTotal - add) }))
  return { wtx with levels := some levels, orders := some orders }

/-- A cancel and a full fill alike delete the row. -/
def applyCancel (wtx : UltimaTables db) (orderId : Int) :
    Run (UltimaBook db) (UltimaTables db) := do
  let row ← removeId orderId "cancel: unknown order id"
  let slot := slotOf row
  let orders ← openTable "orders" wtx.orders
  let o ← expect "order" (db.get orders row)
  let t ← tickOf o.price
  let lid := (← get).levelId o.side t
  let orders ← linkNext orders o.prev o.next "prev order" "prev update"
  let orders ← linkPrev orders o.next o.prev "next order" "next update"
  let orders ← expect "order delete" (db.delete orders row)
  let levels ← openTable "levels" wtx.levels
  let (lvlSide, lvlTick, lvl) ← expect "level" (db.get levels lid)
  let lvl := popped lvl slot o
  let levels ← expect "level update" (db.update levels lid (lvlSide, lvlTick, lvl))
  let wtx := { wtx with levels := some levels, orders := some orders }
  if lvl.head = NIL then repairBest wtx o.side t else return wtx

/-- Three tables that stay open. -/
abbrev Handles (db : Db) := db.Table LevelRec × db.Table Order × db.Table MetaRec

def applyInsertMt (h : Handles db) (orderId price qty : Int) (side : Nat) :
    Run (UltimaBook db) (Handles db) := do
  let (levels, orders, metas) := h
  let t ← tickOf price
  let lid := (← get).levelId side t
  let (lvlSide, lvlTick, lvl) ← expect "level" (db.get levels lid)
  let prevTail := lvl.tail
  let (row, orders) ← expect "order insert"
    (db.insert orders ⟨orderId, price, qty, 0, NIL, prevTail, side⟩)
  let slot := slotOf row
  modify fun u => { u with ids := u.ids.insert orderId row }
  let orders ← linkNext orders prevTail slot "prev order" "prev update"
  let levels ← expect "level update" (db.update levels lid (lvlSide, lvlTick, pushed lvl slot qty))
  let m ← expect "meta rec" (db.get metas 1)
  let metas ← expect "meta update" (db.update metas 1 (noted m slot side t))
  return (levels, orders, metas)

def applyUpdateMt (h : db.Table Order × db.Table LevelRec) (orderId fillQty : Int) :
    Run (UltimaBook db) (db.Table Order × db.Table LevelRec) := do
  let (orders, levels) := h
  let row ← rowId orderId
  let o ← expect "order" (db.get orders row)
  let add := min fillQty (i64 (o.qty - o.filled))
  let t ← tickOf o.price
  let lid := (← get).levelId o.side t
  let orders ← expect "order update" (db.update orders row { o with filled := i64 (o.filled + add) })
  let (lvlSide, lvlTick, lvl) ← expect "level" (db.get levels lid)
  let levels ← expect "level update"
    (db.update levels lid (lvlSide, lvlTick, { lvl with qtyTotal := i64 (lvl.qtyTotal - add) }))
  return (orders, levels)

def applyCancelMt (h : Handles db) (orderId : Int) : Run (UltimaBook db) (Handles db) := do
  let (levels, orders, metas) := h
  let row ← removeId orderId "cancel: unknown order id"
  let slot := slotOf row
  let o ← expect "order" (db.get orders row)
  let t ← tickOf o.price
  let lid := (← get).levelId o.side t
  let orders ← linkNext orders o.prev o.next "prev order" "prev update"
  let orders ← linkPrev orders o.next o.prev "next order" "next update"
  let orders ← expect "order delete" (db.delete orders row)
  let (lvlSide, lvlTick, lvl) ← expect "level" (db.get levels lid)
  let lvl := popped lvl slot o
  let levels ← expect "level update" (db.update levels lid (lvlSide, lvlTick, lvl))
  if lvl.head = NIL then do
    let m ← expect "meta rec" (db.get metas 1)
    match rescanBest (← get) levels m o.side t with
    | none => return (levels, orders, metas)
    | some m =>
      let metas ← expect "meta update" (db.update metas 1 m)
      return (levels, orders, metas)
  else return (levels, orders, metas)

/-- `self.version += 1; begin_write(..); ..; commit()`. -/
def transaction (body : UltimaTables db → Run (UltimaBook db) (UltimaTables db)) :
    Run (UltimaBook db) Unit := do
  modify fun u => { u with version := u.version + 1 }
  let u ← get
  let wtx ← expect "wtx" (db.beginWrite u.store u.version)
  let wtx ← body wtx
  let u ← get
  let store ← expect "commit" (db.commit u.store u.version wtx)
  modify fun u => { u with store }

def insert (orderId price qty : Int) (side : Nat) : Run (UltimaBook db) Unit :=
  transaction fun wtx => applyInsert wtx orderId price qty side

def cancel (orderId : Int) : Run (UltimaBook db) Unit :=
  transaction fun wtx => applyCancel wtx orderId

def fill (orderId : Int) : Run (UltimaBook db) Unit := cancel orderId

def update (orderId fillQty : Int) : Run (UltimaBook db) Unit :=
  transaction fun wtx => applyUpdate wtx orderId fillQty

def apply : Op → Run (UltimaBook db) Unit
  | .insert orderId price qty side => insert orderId price qty side
  | .update orderId fillQty => update orderId fillQty
  | .cancel orderId => cancel orderId
  | .fill orderId => fill orderId

def run (ops : List Op) : Run (UltimaBook db) Unit := Exec.runAll apply ops

/-- The commands of a batch in one transaction; an empty batch is none. -/
def batchTxn {κ : Type} (apply : UltimaTables db → κ → Run (UltimaBook db) (UltimaTables db))
    (cmds : List κ) : Run (UltimaBook db) Unit :=
  if cmds = [] then pure () else transaction fun wtx => cmds.foldlM apply wtx

/-- The same with the tables opened once, to handles that the commands share. -/
def batchTxnMulti {κ η : Type} (opened : UltimaTables db → Run (UltimaBook db) η)
    (apply : η → κ → Run (UltimaBook db) η) (closed : UltimaTables db → η → UltimaTables db)
    (cmds : List κ) : Run (UltimaBook db) Unit :=
  if cmds = [] then pure ()
  else transaction fun wtx => do
    let h ← opened wtx
    let h ← cmds.foldlM apply h
    return closed wtx h

def openAll (wtx : UltimaTables db) : Run (UltimaBook db) (Handles db) :=
  expect "open_tables3" (db.openTables3 wtx.levels wtx.orders wtx.metas)

/-- The same tables, named in another order. -/
def openAll' (wtx : UltimaTables db) : Run (UltimaBook db) (Handles db) := do
  let (orders, levels, metas) ← expect "open_tables3"
    (db.openTables3 wtx.orders wtx.levels wtx.metas)
  return (levels, orders, metas)

def closeAll (_ : UltimaTables db) (h : Handles db) : UltimaTables db :=
  ⟨some h.1, some h.2.1, some h.2.2⟩

def insertBatchTxn (cmds : List Insert) : Run (UltimaBook db) Unit :=
  batchTxn (fun wtx c => applyInsert wtx c.orderId c.price c.qty c.side) cmds

def insertBatchTxnMulti (cmds : List Insert) : Run (UltimaBook db) Unit :=
  batchTxnMulti openAll (fun h c => applyInsertMt h c.orderId c.price c.qty c.side) closeAll cmds

def updateBatchTxn (cmds : List (Int × Int)) : Run (UltimaBook db) Unit :=
  batchTxn (fun wtx c => applyUpdate wtx c.1 c.2) cmds

def updateBatchTxnMulti (cmds : List (Int × Int)) : Run (UltimaBook db) Unit :=
  batchTxnMulti (fun wtx => expect "open_tables2" (db.openTables2 wtx.orders wtx.levels))
    (fun h c => applyUpdateMt h c.1 c.2)
    (fun wtx h => { wtx with orders := some h.1, levels := some h.2 }) cmds

def cancelBatchTxn (cmds : List Int) : Run (UltimaBook db) Unit :=
  batchTxn (fun wtx orderId => applyCancel wtx orderId) cmds

def cancelBatchTxnMulti (cmds : List Int) : Run (UltimaBook db) Unit :=
  batchTxnMulti openAll' (fun h orderId => applyCancelMt h orderId) closeAll cmds

def applyChurn (wtx : UltimaTables db) : ChurnOp → Run (UltimaBook db) (UltimaTables db)
  | .insert orderId price qty side => applyInsert wtx orderId price qty side
  | .cancel orderId => applyCancel wtx orderId
  | .fill orderId => applyCancel wtx orderId

def applyChurnMt (h : Handles db) : ChurnOp → Run (UltimaBook db) (Handles db)
  | .insert orderId price qty side => applyInsertMt h orderId price qty side
  | .cancel orderId => applyCancelMt h orderId
  | .fill orderId => applyCancelMt h orderId

def churnBatchTxn (ops : List ChurnOp) : Run (UltimaBook db) Unit := batchTxn applyChurn ops

def churnBatchTxnMulti (ops : List ChurnOp) : Run (UltimaBook db) Unit :=
  batchTxnMulti openAll' applyChurnMt closeAll ops

/-- A store without tables. -/
def empty (db : Db) (cfg : SmrConfig) : UltimaBook db where
  store := db.create (UltimaTables.empty db)
  version := 0
  priceMin := cfg.priceMin
  tick := cfg.tick
  nLevels := cfg.levels
  ids := IdMap.empty

/-- The loop over the levels of a side, from `t` on, of which `n` are left. -/
def seedLane (levels : db.Table LevelRec) (side t : Nat) :
    Nat → Run (UltimaBook db) (db.Table LevelRec)
  | 0 => pure levels
  | n + 1 => do
    let (_, levels) ← expect "level insert" (db.insert levels (side, t, PriceLevel.EMPTY))
    seedLane levels side (t + 1) n

/-- What the first transaction of a book writes. -/
def seed (cfg : SmrConfig) (wtx : UltimaTables db) : Run (UltimaBook db) (UltimaTables db) := do
  let levels ← openTable "levels" wtx.levels
  let levels ← seedLane levels 0 0 cfg.levels
  let levels ← seedLane levels 1 0 cfg.levels
  let metas ← openTable "meta" wtx.metas
  let (_, metas) ← expect "meta insert"
    (db.insert metas ⟨cfg.priceMin, cfg.tick, cfg.levels, u32 cfg.cap, 0, -1, -1⟩)
  return { wtx with levels := some levels, metas := some metas }

def new (db : Db) (cfg : SmrConfig) : Except Panic (UltimaBook db) :=
  match transaction (seed cfg) (empty db cfg) with
  | .ok _ u => .ok u
  | .error p _ => .error p

end UltimaBook

end HiPerf
