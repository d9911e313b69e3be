import HiPerf.Snapshot.RoundTrip
import HiPerf.Ultima.Read

/-!
`restore_ultima`: the rows of the three tables are read from an image and
installed in one bulk load. The number of levels is compared with that of the
configuration; the schema version and the capacity are not looked at.
-/

namespace HiPerf

open Machine Tables Exec Bytes

/-- What has been read of the groups. -/
structure Loading where
  levels : List (Nat × LevelRec)
  orders : List (Nat × Order)
  ids : IdMap

/-- The levels of a book without orders, by row. -/
def emptyRows (nLevels : Nat) : List (Nat × LevelRec) :=
  (List.range (2 * nLevels)).map fun i => (i + 1, i / nLevels, i % nLevels, PriceLevel.EMPTY)

namespace Decoder

/-- `levels[i] = row`. -/
def setRow (i : Nat) (row : Nat × LevelRec) : Restoring Loading Unit := fun x =>
  if i < x.levels.length then .ok () { x with levels := x.levels.set i row }
  else .error (.panic .indexOutOfBounds) x

def putLevelRow (nLevels : Nat) (r : LevelRec) : Restoring Loading Unit :=
  let lid := r.1 * nLevels + r.2.1 + 1
  setRow (lid - 1) (lid, r)

/-- `orders.last().is_some_and(|&(prev, _)| id <= prev)` is an error. -/
def checkAscending (row : Nat) : Restoring Loading Unit := fun x =>
  if x.orders.getLast?.any fun r => decide (row ≤ r.1) then
    .error (.err "orders group not in ascending slot order") x
  else .ok () x

def pushOrderRow (row : Nat) (o : Order) : Restoring Loading Unit :=
  modify fun x => { x with ids := x.ids.insert o.orderId row, orders := x.orders ++ [(row, o)] }

/-- The loop over a group, of which `n` blocks are left. -/
def readRows (text : String) (readRow : Nat → Restoring Loading Unit) :
    Nat → Group → Restoring Loading Group
  | 0, g => pure g
  | n + 1, g =>
    match g.advance with
    | none => throw (.panic (.message text))
    | some g => do
      readRow g.offset
      readRows text readRow n g

def readLevelRow (buf : List UInt8) (nLevels offset : Nat) : Restoring Loading Unit := do
  let r ← getLevel buf offset
  putLevelRow nLevels r

def readOrderRow (buf : List UInt8) (offset : Nat) : Restoring Loading Unit := do
  let slot ← getU32 buf offset
  checkAscending (rowOf slot)
  let (_, o) ← getOrder buf offset
  pushOrderRow (rowOf slot) o

/-- Read a message; the result is the row of scalars. -/
def loadMessage (buf : List UInt8) (cfg : SmrConfig) : Restoring Loading MetaRec := do
  let actingBlockLength ← getU16 buf 0
  let priceMin ← getI64 buf HEADER_LEN
  let tick ← getI64 buf (HEADER_LEN + 8)
  let nLevels ← getU32 buf (HEADER_LEN + 16)
  let capacity ← getU32 buf (HEADER_LEN + 20)
  let hwm ← getU32 buf (HEADER_LEN + 24)
  let bestBid ← getI32 buf (HEADER_LEN + 28)
  let bestAsk ← getI32 buf (HEADER_LEN + 32)
  if nLevels ≠ cfg.levels then
    throw (.err "nLevels mismatch vs config")
  modify fun x => { x with levels := emptyRows nLevels }
  let g ← groupWrap buf (HEADER_LEN + actingBlockLength)
  let g ← readRows "level present" (readLevelRow buf nLevels) g.count g
  let g ← groupWrap buf g.limit
  let _ ← readRows "order present" (readOrderRow buf) g.count g
  return ⟨priceMin, tick, nLevels, capacity, hwm, bestBid, bestAsk⟩

end Decoder

namespace UltimaBook

variable {db : Db}

/-- `batch.add(..)`, which builds the table. -/
def bulkAdd {α : Type} (name : String) (rows : List (Nat × α)) : Except Fault (db.Table α) :=
  match db.replace rows with
  | .ok t => .ok t
  | .error e => .error (.err s!"bulk add {name}: {e}")

/-- Install the rows as one version of a fresh store. -/
def bulkLoad (cfg : SmrConfig) (m : MetaRec) (x : Loading) : Except Fault (UltimaBook db) := do
  let levels ← bulkAdd "levels" x.levels
  let orders ← bulkAdd "orders" x.orders
  let metas ← bulkAdd "meta" [(1, m)]
  match db.bulkCommit (empty db cfg).store ⟨some levels, some orders, some metas⟩ with
  | .ok (version, store) => pure { empty db cfg with store, version, ids := x.ids }
  | .error e => throw (.err s!"bulk commit: {e}")

end UltimaBook

def restoreUltima (db : Db) (crc32c : List UInt8 → UInt32) (image : List UInt8) (cfg : SmrConfig) :
    Except Fault (UltimaBook db) := do
  let buf ← Decoder.checked crc32c image
  match Decoder.loadMessage buf cfg ⟨[], [], IdMap.empty⟩ with
  | .ok m x => UltimaBook.bulkLoad cfg m x
  | .error f _ => throw f

namespace Decoder

variable {buf : List UInt8} {fs : List Field}

/-- A loop over a group reads the records the group holds. -/
theorem readRows_ok {β : Type} {fields : β → List Field} {size base count : Nat} (text : String)
    {readRow : Nat → Restoring Loading Unit} {put : β → Restoring Loading Unit}
    (hsize : ∀ b, width (fields b) = size) (hc : count < 65536) (rs : List β) (k : Nat)
    (h : Holds buf (base + size * k) ((rs.map fields).flatten ++ fs))
    (hrow : ∀ b ∈ rs, ∀ i fs, Holds buf i (fields b ++ fs) → readRow i = put b)
    (hk : k + rs.length = count) :
    readRows text readRow rs.length (Group.at base size count k) = (do
      runAll put rs
      pure (Group.at base size count count)) := by
  induction rs generalizing k with
  | nil =>
    obtain rfl : k = count := by simpa using hk
    rfl
  | cons r rs ih =>
    rw [List.map_cons, List.flatten_cons, List.append_assoc] at h
    have hrest := h.append_right
    rw [hsize, Nat.add_assoc, ← Nat.mul_succ] at hrest
    have hoff : (Group.at base size count (k + 1)).offset = base + size * k := by
      simp [Group.at]
    rw [List.length_cons] at hk
    rw [List.length_cons, readRows, Group.advance_at (by omega) hc]
    simp only [hoff]
    rw [hrow r (by simp) _ _ h, ih (k + 1) hrest (fun r hr => hrow r (by simp [hr])) (by omega)]
    simp only [runAll, bind_assoc]

theorem readLevelRow_ok {nLevels i : Nat} {r : LevelRec} (h : Holds buf i (levelFields r ++ fs))
    (hr : r.1 ≤ 1 ∧ r.2.1 < 4294967296 ∧ r.2.2.Plain) :
    readLevelRow buf nLevels i = putLevelRow nLevels r :=
  funext fun s => by rw [readLevelRow, bind_ok (getLevel_ok h hr.1 hr.2.1 hr.2.2 s)]

/-- An order, put behind those that came before it. -/
def putOrderRow (r : OrderRec) : Restoring Loading Unit := do
  checkAscending (rowOf r.1)
  pushOrderRow (rowOf r.1) r.2

theorem readOrderRow_ok {i : Nat} {r : OrderRec} (h : Holds buf i (orderFields r ++ fs))
    (hr : r.1 < 4294967296 ∧ r.2.Plain) : readOrderRow buf i = putOrderRow r := by
  have hslot : Holds buf i ((4, r.1) :: _) := h
  have horder : (getOrder buf i : Restoring Loading OrderRec) = pure r :=
    funext fun s => getOrder_ok h hr.1 hr.2 s
  funext s
  rw [readOrderRow, bind_ok (getU32_ok hslot hr.1 s)]
  simp only [horder, pure_bind]
  rfl

/-- The groups of an image, as rows. -/
def putRows (nLevels : Nat) (m : Image) : Restoring Loading Unit := do
  runAll (putLevelRow nLevels) m.levels
  runAll putOrderRow m.orders

/-- The row of scalars an image gives. -/
def metaOf (s : Scalars) : MetaRec :=
  ⟨s.priceMin, s.tick, s.nLevels, s.capacity, s.hwm, s.bestBid, s.bestAsk⟩

/-- What is read of an image, whatever the version in its header. -/
theorem loadMessage_image {m : Image} (hm : m.Plain) (cfg : SmrConfig)
    (h₀ : Holds buf 0 [(2, SBE_BLOCK_LENGTH)])
    (h₈ : Holds buf HEADER_LEN (m.scalars.fields ++ (groupFields LEVELS_BLOCK m.levelCount ++
      ((m.levels.map levelFields).flatten ++ (groupFields ORDERS_BLOCK m.orderCount ++
        ((m.orders.map orderFields).flatten ++ [])))))) (s : Loading) :
    loadMessage buf cfg s =
      if m.scalars.nLevels = cfg.levels then
        (putRows cfg.levels m >>= fun _ => pure (metaOf m.scalars))
          { s with levels := emptyRows cfg.levels }
      else .error (.err "nLevels mismatch vs config") s := by
  have hs := hm.scalars
  have h₁₆ : Holds _ (HEADER_LEN + 8) _ := h₈.tail
  have h₂₄ : Holds _ (HEADER_LEN + 16) _ := h₁₆.tail
  have h₂₈ : Holds _ (HEADER_LEN + 20) _ := h₂₄.tail
  have h₃₂ : Holds _ (HEADER_LEN + 24) _ := h₂₈.tail
  have h₃₆ : Holds _ (HEADER_LEN + 28) _ := h₃₂.tail
  have h₄₀ : Holds _ (HEADER_LEN + 32) _ := h₃₆.tail
  have hwrap : Holds buf (HEADER_LEN + SBE_BLOCK_LENGTH)
      (groupFields LEVELS_BLOCK m.levelCount ++ ((m.levels.map levelFields).flatten ++
        (groupFields ORDERS_BLOCK m.orderCount ++ ((m.orders.map orderFields).flatten ++ [])))) :=
    h₈.append_right
  have hlevels : Holds buf (HEADER_LEN + SBE_BLOCK_LENGTH + 4 + LEVELS_BLOCK * 0)
      ((m.levels.map levelFields).flatten ++ (groupFields ORDERS_BLOCK m.orderCount ++
        ((m.orders.map orderFields).flatten ++ []))) := hwrap.append_right
  have hblocks : width (m.levels.map levelFields).flatten = LEVELS_BLOCK * m.levelCount := by
    rw [width_flatten LEVELS_BLOCK, List.length_map, hm.levelCount]
    intro b hb
    obtain ⟨r, -, rfl⟩ := List.mem_map.mp hb
    exact levelFields_width r
  have hwrap' : Holds buf (HEADER_LEN + SBE_BLOCK_LENGTH + 4 + LEVELS_BLOCK * m.levelCount)
      (groupFields ORDERS_BLOCK m.orderCount ++ ((m.orders.map orderFields).flatten ++ [])) := by
    have := hlevels.append_right
    rwa [hblocks] at this
  have horders : Holds buf
      (HEADER_LEN + SBE_BLOCK_LENGTH + 4 + LEVELS_BLOCK * m.levelCount + 4 + ORDERS_BLOCK * 0)
      ((m.orders.map orderFields).flatten ++ []) := hwrap'.append_right
  have hread := readRows_ok "level present" levelFields_width hm.levelCount_lt m.levels 0 hlevels
    (fun r hr i fs h => @readLevelRow_ok _ fs m.scalars.nLevels i r h (hm.levels r hr))
    (by rw [hm.levelCount, Nat.zero_add])
  have hread' := readRows_ok "order present" orderFields_width hm.orderCount_lt m.orders 0 horders
    (fun r hr i fs h => readOrderRow_ok h (hm.orders r hr)) (by rw [hm.orderCount, Nat.zero_add])
  rw [hm.levelCount] at hread
  rw [hm.orderCount] at hread'
  have hwrapped : (groupWrap buf (HEADER_LEN + SBE_BLOCK_LENGTH) : Restoring Loading Group) =
      pure (Group.at (HEADER_LEN + SBE_BLOCK_LENGTH + 4) LEVELS_BLOCK m.levelCount 0) :=
    funext fun s => groupWrap_ok hwrap (by decide) hm.levelCount_lt s
  have hwrapped' : (groupWrap buf
      (HEADER_LEN + SBE_BLOCK_LENGTH + 4 + LEVELS_BLOCK * m.levelCount) :
        Restoring Loading Group) =
      pure (Group.at (HEADER_LEN + SBE_BLOCK_LENGTH + 4 + LEVELS_BLOCK * m.levelCount + 4)
        ORDERS_BLOCK m.orderCount 0) :=
    funext fun s => groupWrap_ok hwrap' (by decide) hm.orderCount_lt s
  have hat : ∀ base size count k, (Group.at base size count k).count = count ∧
      (Group.at base size count k).limit = base + size * k := fun _ _ _ _ => ⟨rfl, rfl⟩
  unfold loadMessage
  rw [bind_ok (getU16_ok h₀ (by decide) s), bind_ok (getI64_ok h₈ hs.priceMin s),
    bind_ok (getI64_ok h₁₆ hs.tick s), bind_ok (getU32_ok h₂₄ hs.nLevels s),
    bind_ok (getU32_ok h₂₈ hs.capacity s), bind_ok (getU32_ok h₃₂ hs.hwm s),
    bind_ok (getI32_ok h₃₆ hs.bestBid s), bind_ok (getI32_ok h₄₀ hs.bestAsk s), ite_run]
  by_cases hn : m.scalars.nLevels = cfg.levels
  · rw [if_pos hn, if_neg (not_not.mpr hn)]
    simp only [pure_bind, modify_bind, hwrapped, (hat _ _ _ _).1, hread, bind_assoc,
      (hat _ _ _ _).2, hwrapped', hread', putRows, ← hn]
    rfl
  · rw [if_neg hn, if_pos hn]
    rfl

/-- Orders in ascending order of their slots are all taken. -/
theorem putOrderRows_ok (rs : List OrderRec) (x : Loading)
    (hsorted : rs.Pairwise fun r r' => r.1 < r'.1)
    (hlast : ∀ r ∈ rs, ∀ r' ∈ x.orders, r'.1 < rowOf r.1) :
    runAll putOrderRow rs x = .ok () { x with
      orders := x.orders ++ rs.map fun r => (rowOf r.1, r.2)
      ids := rs.foldl (fun ids r => ids.insert r.2.orderId (rowOf r.1)) x.ids } := by
  induction rs generalizing x with
  | nil => simp [runAll]
  | cons r rs ih =>
    obtain ⟨hr, hrs⟩ := List.pairwise_cons.mp hsorted
    have hput : putOrderRow r x = .ok () { x with
        ids := x.ids.insert r.2.orderId (rowOf r.1), orders := x.orders ++ [(rowOf r.1, r.2)] } := by
      have hcheck : checkAscending (rowOf r.1) x = .ok () x := by
        refine if_neg fun hany => ?_
        cases e : x.orders.getLast? with
        | none => simp [e] at hany
        | some r' =>
          rw [e, Option.any_some, decide_eq_true_eq] at hany
          exact absurd hany (Nat.not_le.mpr (hlast r (by simp) r' (List.mem_of_getLast? e)))
      rw [putOrderRow, bind_ok hcheck]
      rfl
    refine (bind_ok hput _).trans ((ih _ hrs fun r' hr' r'' hr'' => ?_).trans ?_)
    · obtain h | h := List.mem_append.mp hr''
      · exact hlast r' (by simp [hr']) r'' h
      · rw [List.mem_singleton.mp h]
        exact Nat.succ_lt_succ (hr r' hr')
    · simp

/-- The place of a level in the levels table. -/
def levelIndex (nLevels : Nat) (r : LevelRec) : Nat := r.1 * nLevels + r.2.1

theorem putLevelRows_ok {nLevels : Nat} (rs : List LevelRec) (x : Loading)
    (h : ∀ r ∈ rs, levelIndex nLevels r < x.levels.length) :
    runAll (putLevelRow nLevels) rs x = .ok () { x with
      levels := rs.foldl (fun ls r => ls.set (levelIndex nLevels r) (levelIndex nLevels r + 1, r))
        x.levels } := by
  induction rs generalizing x with
  | nil => rfl
  | cons r rs ih =>
    have hput : putLevelRow nLevels r x = .ok () { x with
        levels := x.levels.set (levelIndex nLevels r) (levelIndex nLevels r + 1, r) } := by
      simp only [putLevelRow, setRow, Nat.add_sub_cancel]
      exact if_pos (h r (by simp))
    exact (bind_ok hput _).trans (ih _ fun r' hr' => by
      rw [List.length_set]
      exact h r' (by simp [hr']))

/-- The rows of a bulk load of levels that are told by their places. -/
theorem set_levels {nLevels : Nat} {g : Nat → LevelRec} (rs : List LevelRec)
    (h : ∀ r ∈ rs, g (levelIndex nLevels r) = r) (ls : List (Nat × LevelRec)) (i : Nat) :
    (rs.foldl (fun ls r => ls.set (levelIndex nLevels r) (levelIndex nLevels r + 1, r)) ls)[i]? =
      if i ∈ rs.map (levelIndex nLevels) then (ls[i]?.map fun _ => (i + 1, g i)) else ls[i]? := by
  induction rs generalizing ls with
  | nil => simp
  | cons r rs ih =>
    rw [List.foldl_cons, ih (fun r hr => h r (by simp [hr])), List.getElem?_set]
    have hr := h r (by simp)
    by_cases e : levelIndex nLevels r = i
    · subst e
      by_cases hlt : levelIndex nLevels r < ls.length
      · simp [hlt, hr]
      · simp [hlt]
    · have hne : i ≠ levelIndex nLevels r := Ne.symm e
      simp only [e, if_false, List.map_cons, List.mem_cons, hne, false_or]

end Decoder

end HiPerf
