import HiPerf.Book.Rep
import HiPerf.Snapshot.Restore

/-!
Decoding an image: every field comes back, and the blocks of both groups reach
the book under way one after the other.
-/

namespace HiPerf

open Machine Exec Bytes

/-- The values the fields of a level can hold. -/
structure PriceLevel.Plain (l : PriceLevel) : Prop where
  head : l.head ≤ NIL
  tail : l.tail ≤ NIL
  qtyTotal : InI64 l.qtyTotal
  count : l.count < 4294967296

structure Scalars.Plain (s : Scalars) : Prop where
  priceMin : InI64 s.priceMin
  tick : InI64 s.tick
  nLevels : s.nLevels < 4294967296
  capacity : s.capacity < 4294967296
  hwm : s.hwm < 4294967296
  bestBid : InI32 s.bestBid
  bestAsk : InI32 s.bestAsk
  freeHead : s.freeHead ≤ NIL

/-- An image a decoder reads back as it is. -/
structure Image.Plain (m : Image) : Prop where
  scalars : m.scalars.Plain
  levelCount : m.levels.length = m.levelCount
  levelCount_lt : m.levelCount < 65536
  levels : ∀ r ∈ m.levels, r.1 ≤ 1 ∧ r.2.1 < 4294967296 ∧ r.2.2.Plain
  orderCount : m.orders.length = m.orderCount
  orderCount_lt : m.orderCount < 65536
  orders : ∀ r ∈ m.orders, r.1 < 4294967296 ∧ r.2.Plain

namespace Decoder

variable {σ : Type} {buf : List UInt8} {i v : Nat} {fs : List Field}

theorem get_ok {w : Nat} (h : Holds buf i ((w, v) :: fs)) (s : σ) :
    get buf i w s = .ok (le w v) s := by
  obtain ⟨hlen, hget⟩ := h.get
  rw [get, if_pos hlen, hget]
  rfl

theorem getU8_ok (h : Holds buf i ((1, v) :: fs)) (hv : v < 256) (s : σ) :
    getU8 buf i s = .ok v s := by
  rw [getU8, bind_ok (get_ok h s), unle_le_of_lt (by simpa using hv)]
  rfl

theorem getU16_ok (h : Holds buf i ((2, v) :: fs)) (hv : v < 65536) (s : σ) :
    getU16 buf i s = .ok v s := by
  rw [getU16, bind_ok (get_ok h s), unle_le_of_lt (by simpa using hv)]
  rfl

theorem getU32_ok (h : Holds buf i ((4, v) :: fs)) (hv : v < 4294967296) (s : σ) :
    getU32 buf i s = .ok v s := by
  rw [getU32, bind_ok (get_ok h s), unle_le_of_lt (by simpa using hv)]
  rfl

theorem getI32_ok {x : Int} (h : Holds buf i ((4, u32 x) :: fs)) (hx : InI32 x) (s : σ) :
    getI32 buf i s = .ok x s := by
  rw [getI32, bind_ok (get_ok h s), unle_le_of_lt (by simpa using u32_lt x), i32_u32 hx]
  rfl

theorem getI64_ok {x : Int} (h : Holds buf i ((8, u64 x) :: fs)) (hx : InI64 x) (s : σ) :
    getI64 buf i s = .ok x s := by
  rw [getI64, bind_ok (get_ok h s), unle_le_of_lt (by simpa using u64_lt x), i64_u64 hx]
  rfl

theorem sideU8_sideEnum {side : Nat} (h : side ≤ 1) : sideU8 (sideEnum side) = side := by
  obtain rfl | rfl : side = 0 ∨ side = 1 := by omega
  · rfl
  · rfl

theorem sideEnum_lt (side : Nat) : sideEnum side < 256 := by
  unfold sideEnum
  split <;> decide

theorem getLevel_ok {r : LevelRec} (h : Holds buf i (levelFields r ++ fs)) (hside : r.1 ≤ 1)
    (ht : r.2.1 < 4294967296) (hl : r.2.2.Plain) (s : σ) : getLevel buf i s = .ok r s := by
  obtain ⟨side, t, l⟩ := r
  have h₁ : Holds buf (i + 1) _ := h.tail
  have h₅ : Holds buf (i + 5) _ := h₁.tail
  have h₁₃ : Holds buf (i + 13) _ := h₅.tail
  have h₁₇ : Holds buf (i + 17) _ := h₁₃.tail
  have h₂₁ : Holds buf (i + 21) _ := h₁₇.tail
  have hhead : l.head < 4294967296 := Nat.lt_of_le_of_lt hl.head (by decide)
  have htail : l.tail < 4294967296 := Nat.lt_of_le_of_lt hl.tail (by decide)
  rw [getLevel, bind_ok (getU8_ok h (sideEnum_lt side) s), bind_ok (getU32_ok h₁ ht s),
    bind_ok (getU32_ok h₁₇ hhead s), bind_ok (getU32_ok h₂₁ htail s),
    bind_ok (getI64_ok h₅ hl.qtyTotal s), bind_ok (getU32_ok h₁₃ hl.count s), sideU8_sideEnum hside]
  rfl

theorem getOrder_ok {r : OrderRec} (h : Holds buf i (orderFields r ++ fs))
    (hs : r.1 < 4294967296) (ho : r.2.Plain) (s : σ) : getOrder buf i s = .ok r s := by
  obtain ⟨slot, o⟩ := r
  have h₄ : Holds buf (i + 4) _ := h.tail
  have h₁₂ : Holds buf (i + 12) _ := h₄.tail
  have h₂₀ : Holds buf (i + 20) _ := h₁₂.tail
  have h₂₈ : Holds buf (i + 28) _ := h₂₀.tail
  have h₃₆ : Holds buf (i + 36) _ := h₂₈.tail
  have h₃₇ : Holds buf (i + 37) _ := h₃₆.tail
  have h₄₁ : Holds buf (i + 41) _ := h₃₇.tail
  have hnext : o.next < 4294967296 := Nat.lt_of_le_of_lt ho.next (by decide)
  have hprev : o.prev < 4294967296 := Nat.lt_of_le_of_lt ho.prev (by decide)
  rw [getOrder, bind_ok (getU32_ok h hs s), bind_ok (getI64_ok h₄ ho.orderId s),
    bind_ok (getI64_ok h₁₂ ho.price s), bind_ok (getI64_ok h₂₀ ho.qty s),
    bind_ok (getI64_ok h₂₈ ho.filled s), bind_ok (getU32_ok h₃₇ hnext s),
    bind_ok (getU32_ok h₄₁ hprev s), bind_ok (getU8_ok h₃₆ (sideEnum_lt _) s),
    sideU8_sideEnum ho.side]
  rfl

/-- A group of which `k` blocks have been read. -/
def Group.at (base size count k : Nat) : Group where
  blockLength := size
  count := count
  index := u64 (k - 1)
  offset := if k = 0 then 0 else base + size * (k - 1)
  limit := base + size * k

theorem Group.advance_at {base size count k : Nat} (hk : k < count) (hc : count < 65536) :
    (Group.at base size count k).advance = some (Group.at base size count (k + 1)) := by
  have hidx : u64 ((u64 ((k : Int) - 1) : Nat) + 1) = k := Encoder.u64_pred_succ (by omega)
  simp only [Group.advance, Group.at, hidx, if_neg (show ¬ k ≥ count by omega), Option.some.injEq,
    Group.mk.injEq, true_and, Nat.add_sub_cancel, Nat.succ_ne_zero, if_false]
  refine ⟨?_, by ring⟩
  unfold u64
  omega

theorem groupWrap_ok {size count : Nat} (h : Holds buf i (groupFields size count ++ fs))
    (hs : size < 65536) (hc : count < 65536) (s : σ) :
    groupWrap buf i s = .ok (Group.at (i + 4) size count 0) s := by
  have h₂ : Holds buf (i + 2) _ := h.tail
  rw [groupWrap, bind_ok (getU16_ok h hs s), bind_ok (getU16_ok h₂ hc s)]
  rfl

variable (S : Sink σ)

theorem readLevels_ok {base count : Nat} (hc : count < 65536) (rs : List LevelRec) (k : Nat)
    (h : Holds buf (base + LEVELS_BLOCK * k) ((rs.map levelFields).flatten ++ fs))
    (hrs : ∀ r ∈ rs, r.1 ≤ 1 ∧ r.2.1 < 4294967296 ∧ r.2.2.Plain) (hk : k + rs.length = count) :
    readLevels S buf rs.length (Group.at base LEVELS_BLOCK count k) = (do
      Exec.runAll (fun r => lift (S.putLevel r.1 r.2.1 r.2.2)) rs
      pure (Group.at base LEVELS_BLOCK count count)) := by
  induction rs generalizing k with
  | nil =>
    obtain rfl : k = count := by simpa using hk
    rfl
  | cons r rs ih =>
    rw [List.map_cons, List.flatten_cons, List.append_assoc] at h
    obtain ⟨hside, ht, hl⟩ := hrs r (by simp)
    have hrest := h.append_right
    rw [levelFields_width, Nat.add_assoc, ← Nat.mul_succ] at hrest
    have hoff : (Group.at base LEVELS_BLOCK count (k + 1)).offset = base + LEVELS_BLOCK * k := by
      simp [Group.at]
    rw [List.length_cons] at hk
    funext s
    rw [List.length_cons, readLevels, Group.advance_at (by omega) hc]
    simp only [hoff]
    rw [bind_ok (getLevel_ok h hside ht hl s)]
    have := ih (k + 1) hrest (fun r hr => hrs r (by simp [hr])) (by omega)
    simp only [this, Exec.runAll, bind_assoc]

theorem readOrders_ok {base count : Nat} (hc : count < 65536) (rs : List OrderRec) (k : Nat)
    (h : Holds buf (base + ORDERS_BLOCK * k) ((rs.map orderFields).flatten ++ fs))
    (hrs : ∀ r ∈ rs, r.1 < 4294967296 ∧ r.2.Plain) (hk : k + rs.length = count) :
    readOrders S buf rs.length (Group.at base ORDERS_BLOCK count k) = (do
      Exec.runAll (fun r => lift (S.putOrder r.1 r.2)) rs
      pure (Group.at base ORDERS_BLOCK count count)) := by
  induction rs generalizing k with
  | nil =>
    obtain rfl : k = count := by simpa using hk
    rfl
  | cons r rs ih =>
    rw [List.map_cons, List.flatten_cons, List.append_assoc] at h
    obtain ⟨hs, ho⟩ := hrs r (by simp)
    have hrest := h.append_right
    rw [orderFields_width, Nat.add_assoc, ← Nat.mul_succ] at hrest
    have hoff : (Group.at base ORDERS_BLOCK count (k + 1)).offset = base + ORDERS_BLOCK * k := by
      simp [Group.at]
    rw [List.length_cons] at hk
    funext s
    rw [List.length_cons, readOrders, Group.advance_at (by omega) hc]
    simp only [hoff]
    rw [bind_ok (getOrder_ok h hs ho s)]
    have := ih (k + 1) hrest (fun r hr => hrs r (by simp [hr])) (by omega)
    simp only [this, Exec.runAll, bind_assoc]

/-- Everything but the groups. -/
def setScalars (s : Scalars) (x : σ) : σ :=
  S.setFreeHead s.freeHead (S.setHead s.priceMin s.tick s.nLevels s.hwm s.bestBid s.bestAsk x)

/-- The groups of an image, into the book under way. -/
def putRecords (m : Image) : Restoring σ Unit := do
  Exec.runAll (fun r => lift (S.putLevel r.1 r.2.1 r.2.2)) m.levels
  Exec.runAll (fun r => lift (S.putOrder r.1 r.2)) m.orders

/-- The fields of an image, from the front. -/
theorem image_holds (m : Image) : Holds (bytes m.fields) 0
    (headerFields ++ (m.scalars.fields ++ (groupFields LEVELS_BLOCK m.levelCount ++
      ((m.levels.map levelFields).flatten ++ (groupFields ORDERS_BLOCK m.orderCount ++
        ((m.orders.map orderFields).flatten ++ [])))))) :=
  ⟨[], [], by simp [Image.fields, Image.prefixFields], rfl⟩

theorem groups_image {m : Image} (hm : m.Plain) :
    groups S (bytes m.fields) (HEADER_LEN + SBE_BLOCK_LENGTH) = putRecords S m := by
  have h := image_holds m
  rw [← List.append_assoc] at h
  have hwrap : Holds (bytes m.fields) (HEADER_LEN + SBE_BLOCK_LENGTH)
      (groupFields LEVELS_BLOCK m.levelCount ++ ((m.levels.map levelFields).flatten ++
        (groupFields ORDERS_BLOCK m.orderCount ++ ((m.orders.map orderFields).flatten ++ [])))) :=
    h.append_right
  have hlevels : Holds (bytes m.fields) (HEADER_LEN + SBE_BLOCK_LENGTH + 4 + LEVELS_BLOCK * 0)
      ((m.levels.map levelFields).flatten ++ (groupFields ORDERS_BLOCK m.orderCount ++
        ((m.orders.map orderFields).flatten ++ []))) := hwrap.append_right
  have hblocks : width (m.levels.map levelFields).flatten = LEVELS_BLOCK * m.levelCount := by
    rw [width_flatten LEVELS_BLOCK, List.length_map, hm.levelCount]
    intro b hb
    obtain ⟨r, -, rfl⟩ := List.mem_map.mp hb
    exact levelFields_width r
  have hwrap' : Holds (bytes m.fields)
      (HEADER_LEN + SBE_BLOCK_LENGTH + 4 + LEVELS_BLOCK * m.levelCount)
      (groupFields ORDERS_BLOCK m.orderCount ++ ((m.orders.map orderFields).flatten ++ [])) := by
    have := hlevels.append_right
    rwa [hblocks] at this
  have horders : Holds (bytes m.fields)
      (HEADER_LEN + SBE_BLOCK_LENGTH + 4 + LEVELS_BLOCK * m.levelCount + 4 + ORDERS_BLOCK * 0)
      ((m.orders.map orderFields).flatten ++ []) := hwrap'.append_right
  have hread := readLevels_ok S hm.levelCount_lt m.levels 0 hlevels hm.levels
    (by rw [hm.levelCount, Nat.zero_add])
  have hread' := readOrders_ok S hm.orderCount_lt m.orders 0 horders hm.orders
    (by rw [hm.orderCount, Nat.zero_add])
  rw [hm.levelCount] at hread
  rw [hm.orderCount] at hread'
  have hwrapped : (groupWrap (bytes m.fields) (HEADER_LEN + SBE_BLOCK_LENGTH) : Restoring σ Group) =
      pure (Group.at (HEADER_LEN + SBE_BLOCK_LENGTH + 4) LEVELS_BLOCK m.levelCount 0) :=
    funext fun s => groupWrap_ok hwrap (by decide) hm.levelCount_lt s
  have hwrapped' : (groupWrap (bytes m.fields)
      (HEADER_LEN + SBE_BLOCK_LENGTH + 4 + LEVELS_BLOCK * m.levelCount) : Restoring σ Group) =
      pure (Group.at (HEADER_LEN + SBE_BLOCK_LENGTH + 4 + LEVELS_BLOCK * m.levelCount + 4)
        ORDERS_BLOCK m.orderCount 0) :=
    funext fun s => groupWrap_ok hwrap' (by decide) hm.orderCount_lt s
  have hat : ∀ base size count k, (Group.at base size count k).count = count ∧
      (Group.at base size count k).limit = base + size * k := fun _ _ _ _ => ⟨rfl, rfl⟩
  simp only [groups, hwrapped, pure_bind, (hat _ _ _ _).1, hread, bind_assoc, (hat _ _ _ _).2,
    hwrapped', hread', putRecords, bind_pure_unit]

theorem message_image {m : Image} (hm : m.Plain) (cap : Nat) (s : σ) :
    message S (bytes m.fields) cap s =
      if m.scalars.capacity = cap then putRecords S m (setScalars S m.scalars s)
      else .error (.err s!"snapshot capacity {m.scalars.capacity} != SMRC_CAP {cap}")
        (S.setHead m.scalars.priceMin m.scalars.tick m.scalars.nLevels m.scalars.hwm
          m.scalars.bestBid m.scalars.bestAsk s) := by
  have hs := hm.scalars
  have h₀ := image_holds m
  have h₂ : Holds _ 2 _ := h₀.tail
  have h₄ : Holds _ 4 _ := h₂.tail
  have h₆ : Holds _ 6 _ := h₄.tail
  have h₈ : Holds _ HEADER_LEN _ := h₆.tail
  have h₁₆ : Holds _ (HEADER_LEN + 8) _ := h₈.tail
  have h₂₄ : Holds _ (HEADER_LEN + 16) _ := h₁₆.tail
  have h₂₈ : Holds _ (HEADER_LEN + 20) _ := h₂₄.tail
  have h₃₂ : Holds _ (HEADER_LEN + 24) _ := h₂₈.tail
  have h₃₆ : Holds _ (HEADER_LEN + 28) _ := h₃₂.tail
  have h₄₀ : Holds _ (HEADER_LEN + 32) _ := h₃₆.tail
  have h₄₄ : Holds _ (HEADER_LEN + 36) _ := h₄₀.tail
  have hfree : m.scalars.freeHead < 4294967296 := Nat.lt_of_le_of_lt hs.freeHead (by decide)
  unfold message
  rw [bind_ok (getU16_ok h₆ (by decide) s)]
  rw [ite_run, if_neg (by decide : ¬ SBE_SCHEMA_VERSION ≠ 2)]
  dsimp only
  rw [bind_ok (getU16_ok h₀ (by decide) s), bind_ok (getI64_ok h₈ hs.priceMin s),
    bind_ok (getI64_ok h₁₆ hs.tick s), bind_ok (getU32_ok h₂₄ hs.nLevels s),
    bind_ok (getU32_ok h₃₂ hs.hwm s), bind_ok (getI32_ok h₃₆ hs.bestBid s),
    bind_ok (getI32_ok h₄₀ hs.bestAsk s), modify_bind, bind_ok (getU32_ok h₂₈ hs.capacity _),
    ite_run]
  by_cases hcap : m.scalars.capacity = cap
  · rw [if_pos hcap, if_neg (not_not.mpr hcap), bind_ok (getU32_ok h₄₄ hfree _), modify_bind,
      groups_image S hm]
    rfl
  · rw [if_neg hcap, if_pos hcap]
    rfl

end Decoder

end HiPerf
