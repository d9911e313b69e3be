import HiPerf.Snapshot.Encode

/-!
What the encoders write, as a list of fields. Both groups keep as many blocks as
they declared: a block past the declared count overwrites the last one.
-/

namespace HiPerf

open Machine Exec Bytes

section Group

variable {β γ : Type}

/-- One more block for a group that declared `count` of them. -/
def push (count : Nat) (blocks : List β) (b : β) : List β :=
  if blocks.length < count then blocks ++ [b] else blocks.dropLast ++ [b]

/-- What a group that declared `count` blocks keeps of `bs`. -/
def kept (count : Nat) (bs : List β) : List β := bs.foldl (push count) []

theorem push_map (f : β → γ) (count : Nat) (blocks : List β) (b : β) :
    (push count blocks b).map f = push count (blocks.map f) (f b) := by
  unfold push
  rw [List.length_map]
  split
  · simp
  · simp

theorem foldl_push_map (f : β → γ) (count : Nat) (bs blocks : List β) :
    (bs.foldl (push count) blocks).map f = (bs.map f).foldl (push count) (blocks.map f) := by
  induction bs generalizing blocks with
  | nil => rfl
  | cons b bs ih => rw [List.foldl_cons, ih, push_map]; rfl

theorem push_length_le {count : Nat} {blocks : List β} (b : β) (h : blocks.length ≤ count) :
    blocks.length ≤ (push count blocks b).length := by
  unfold push
  split
  · simp
  · simp; omega

theorem push_le_count {count : Nat} (hc : 0 < count) {blocks : List β} (b : β)
    (h : blocks.length ≤ count) : (push count blocks b).length ≤ count := by
  unfold push
  split
  · simp; omega
  · simp; omega

theorem foldl_push_length {count : Nat} (hc : 0 < count) (bs blocks : List β)
    (h : blocks.length ≤ count) :
    blocks.length ≤ (bs.foldl (push count) blocks).length ∧
      (bs.foldl (push count) blocks).length ≤ count := by
  induction bs generalizing blocks with
  | nil => exact ⟨Nat.le_refl _, h⟩
  | cons b bs ih =>
    obtain ⟨h₁, h₂⟩ := ih _ (push_le_count hc b h)
    exact ⟨(push_length_le b h).trans h₁, h₂⟩

theorem foldl_push_of_le {count : Nat} (bs : List β) {blocks : List β}
    (h : blocks.length + bs.length ≤ count) : bs.foldl (push count) blocks = blocks ++ bs := by
  induction bs generalizing blocks with
  | nil => simp
  | cons b bs ih =>
    simp only [List.length_cons] at h
    have e : push count blocks b = blocks ++ [b] := if_pos (by omega)
    rw [List.foldl_cons, e, ih (by simp; omega)]
    simp

/-- A group keeps every block it declared. -/
theorem kept_of_le {count : Nat} {bs : List β} (h : bs.length ≤ count) : kept count bs = bs := by
  rw [kept, foldl_push_of_le bs (by simpa using h), List.nil_append]

theorem kept_length_le (count : Nat) (bs : List β) : (kept count bs).length ≤ bs.length := by
  have h : ∀ blocks : List β, (bs.foldl (push count) blocks).length ≤ blocks.length + bs.length := by
    induction bs with
    | nil => simp
    | cons b bs ih =>
      intro blocks
      refine (ih _).trans ?_
      unfold push
      split <;> simp <;> omega
  exact (h []).trans_eq (Nat.zero_add _)

/-- Of more blocks than it declared, a group keeps the first ones and the last. -/
theorem kept_of_gt {count : Nat} (hc : 0 < count) {bs : List β} (b : β) (h : count ≤ bs.length) :
    kept count (bs ++ [b]) = bs.take (count - 1) ++ [b] := by
  induction bs using List.reverseRecOn generalizing b with
  | nil => simp at h; omega
  | append_singleton bs a ih =>
    rw [kept, List.foldl_append, List.foldl_cons, List.foldl_nil]
    change push count (kept count (bs ++ [a])) b = _
    by_cases hlt : count ≤ bs.length
    · rw [ih a hlt, push, if_neg (by simp; omega), List.dropLast_concat,
        List.take_append_of_le_length (by omega)]
    · simp only [List.length_append, List.length_cons, List.length_nil] at h
      rw [kept_of_le (by simp; omega), push, if_neg (by simp; omega), List.dropLast_concat,
        List.take_append_of_le_length (by omega), List.take_of_length_le (by omega)]

end Group

def headerFields : List Field :=
  [(2, SBE_BLOCK_LENGTH), (2, SBE_TEMPLATE_ID), (2, SBE_SCHEMA_ID), (2, SBE_SCHEMA_VERSION)]

def Scalars.fields (s : Scalars) : List Field :=
  [(8, u64 s.priceMin), (8, u64 s.tick), (4, s.nLevels), (4, s.capacity), (4, s.hwm),
    (4, u32 s.bestBid), (4, u32 s.bestAsk), (4, s.freeHead)]

def groupFields (blockLength count : Nat) : List Field := [(2, blockLength), (2, count)]

/-- A level as an image has it: side, tick and aggregate. -/
abbrev LevelRec := Nat × Nat × PriceLevel

abbrev OrderRec := Nat × Order

def levelFields : LevelRec → List Field
  | (side, t, l) =>
    [(1, sideEnum side), (4, t), (8, u64 l.qtyTotal), (4, l.count), (4, l.head), (4, l.tail)]

def orderFields : OrderRec → List Field
  | (slot, o) =>
    [(4, slot), (8, u64 o.orderId), (8, u64 o.price), (8, u64 o.qty), (8, u64 o.filled),
      (1, sideEnum o.side), (4, o.next), (4, o.prev)]

theorem levelFields_width (r : LevelRec) : width (levelFields r) = LEVELS_BLOCK := rfl

theorem orderFields_width (r : OrderRec) : width (orderFields r) = ORDERS_BLOCK := rfl

structure Image where
  scalars : Scalars
  levelCount : Nat
  levels : List LevelRec
  orderCount : Nat
  orders : List OrderRec

/-- The fields up to the blocks of the orders group. -/
def Image.prefixFields (m : Image) : List Field :=
  headerFields ++ m.scalars.fields ++ groupFields LEVELS_BLOCK m.levelCount ++
    (m.levels.map levelFields).flatten ++ groupFields ORDERS_BLOCK m.orderCount

def Image.fields (m : Image) : List Field := m.prefixFields ++ (m.orders.map orderFields).flatten

theorem Image.prefixFields_width (m : Image) :
    width m.prefixFields = 56 + LEVELS_BLOCK * m.levels.length := by
  have h : width (m.levels.map levelFields).flatten = LEVELS_BLOCK * m.levels.length := by
    rw [width_flatten LEVELS_BLOCK, List.length_map]
    intro b hb
    obtain ⟨r, -, rfl⟩ := List.mem_map.mp hb
    exact levelFields_width r
  simp only [prefixFields, width_append, h]
  simp only [headerFields, Scalars.fields, groupFields, width_cons, width_nil]
  omega

theorem Image.width_fields (m : Image) :
    width m.fields = 56 + LEVELS_BLOCK * m.levels.length + ORDERS_BLOCK * m.orders.length := by
  have h : width (m.orders.map orderFields).flatten = ORDERS_BLOCK * m.orders.length := by
    rw [width_flatten ORDERS_BLOCK, List.length_map]
    intro b hb
    obtain ⟨r, -, rfl⟩ := List.mem_map.mp hb
    exact orderFields_width r
  rw [fields, width_append, prefixFields_width, h]

namespace Source

/-- The occupied levels of a lane, from level `t` on. -/
def laneRecs (v : Source) (side t n : Nat) : List LevelRec :=
  (List.range' t n).filterMap fun u =>
    (v.level side u).bind fun l => if l.head = NIL then none else some (side, u, l)

def levelRecs (v : Source) : List LevelRec :=
  v.laneRecs 0 0 (v.width 0) ++ v.laneRecs 1 0 (v.width 1)

def orderRecs (v : Source) (slot n : Nat) : List OrderRec :=
  (List.range' slot n).map fun s => (s, (v.order s).getD Order.zero)

def image (v : Source) : Image where
  scalars := v.scalars
  levelCount := u16 v.levelRecs.length
  levels := kept (u16 v.levelRecs.length) v.levelRecs
  orderCount := u16 v.scalars.hwm
  orders := kept (u16 v.scalars.hwm) (v.orderRecs 0 v.scalars.hwm)

/-- A buffer this long is large enough. -/
def room (v : Source) : Nat := 60 + LEVELS_BLOCK * v.levelRecs.length + ORDERS_BLOCK * v.scalars.hwm

theorem image_le_room (v : Source) : Bytes.width v.image.fields + 4 ≤ v.room := by
  have h₁ := kept_length_le (u16 v.levelRecs.length) v.levelRecs
  have h₂ := kept_length_le (u16 v.scalars.hwm) (v.orderRecs 0 v.scalars.hwm)
  have h₃ : (v.orderRecs 0 v.scalars.hwm).length = v.scalars.hwm := by simp [orderRecs]
  rw [Image.width_fields]
  simp only [image, room, LEVELS_BLOCK, ORDERS_BLOCK]
  omega

/-- Every read of `v` finds something, and both passes over a level the same. -/
structure Readable (v : Source) : Prop where
  level : ∀ side ≤ 1, ∀ t < v.width side, (v.level side t).isSome
  count : ∀ side ≤ 1, ∀ t < v.width side, v.countLevel side t = v.level side t
  order : ∀ slot < v.scalars.hwm, (v.order slot).isSome
  room : v.room ≤ USIZE_MAX

end Source

/-- What the encoders have written, and where they stand. -/
structure Written where
  fields : List Field
  limit : Nat
  count : Nat
  index : Nat
  offset : Nat

/-- An encoder that has written `t`, with `room` bytes to write to in all. -/
structure Encoder.Wrote (room : Nat) (e : Encoder) (t : Written) : Prop where
  written : bytes t.fields <+: e.data
  room_le : room ≤ e.data.length
  room_fits : room ≤ USIZE_MAX
  limit : e.limit = t.limit
  count : e.count = t.count
  index : e.index = t.index
  offset : e.offset = t.offset

namespace Encoder

variable {room : Nat} {t : Written}

theorem put_runs {i w v : Nat} (hi : i = width t.fields) (h : i + w ≤ room) :
    Runs (Wrote room) (put i (le w v)) t () { t with fields := t.fields ++ [(w, v)] } := by
  intro e he
  have hlen := he.room_le
  have hfit := he.room_fits
  have hb : i + (le w v).length ≤ e.data.length := by rw [le_length]; omega
  refine ⟨{ e with data := Bytes.put e.data i (le w v) }, ?_, { he with
    written := ?_
    room_le := by rw [put_length hb]; exact hlen }⟩
  · rw [put, if_pos ⟨by rw [le_length]; omega, hb⟩]
  · have := put_prefix (le w v) he.written
    rw [bytes_length, ← hi] at this
    simpa [bytes_append, bytes_cons] using this

/-- Write fields one behind the other. -/
def putAll (i : Nat) : List Field → Run Encoder Unit
  | [] => pure ()
  | f :: fs => do
    put i (le f.1 f.2)
    putAll (i + f.1) fs

theorem putAll_runs {i : Nat} (fs : List Field) (hi : i = width t.fields)
    (h : i + width fs ≤ room) :
    Runs (Wrote room) (putAll i fs) t () { t with fields := t.fields ++ fs } := by
  induction fs generalizing i t with
  | nil => rw [List.append_nil]; exact Runs.pure _
  | cons f fs ih =>
    rw [width_cons] at h
    have hrest := ih (i := i + f.1) (t := { t with fields := t.fields ++ [f] })
      (by rw [width_append, ← hi]; simp) (by omega)
    simp only [List.append_assoc, List.singleton_append] at hrest
    exact (put_runs (w := f.1) (v := f.2) hi (by omega)).bind hrest

theorem setLimit_runs (limit : Nat) : Runs (Wrote room) (setLimit limit) t () { t with limit } :=
  Runs.modify fun _ he => { he with limit := rfl }

theorem header_eq : header = putAll 0 headerFields := by
  simp only [header, headerFields, putAll, putU16, bind_pure_unit, Nat.zero_add]

theorem scalars_eq (s : Scalars) : scalars s = putAll HEADER_LEN s.fields := by
  simp only [scalars, Scalars.fields, putAll, putI64, putU32, putI32, bind_pure_unit, Nat.add_assoc,
    Nat.reduceAdd]

theorem putLevel_eq (side t : Nat) (l : PriceLevel) : putLevel side t l =
    (advance LEVELS_BLOCK >>= fun _ => get >>= fun e => putAll e.offset (levelFields (side, t, l))) := by
  simp only [putLevel, levelFields, putAll, putI64, putU32, putU8, bind_pure_unit, Nat.add_assoc,
    Nat.reduceAdd]

theorem putOrder_eq (slot : Nat) (o : Order) : putOrder slot o =
    (advance ORDERS_BLOCK >>= fun _ => get >>= fun e => putAll e.offset (orderFields (slot, o))) := by
  simp only [putOrder, orderFields, putAll, putI64, putU32, putU8, bind_pure_unit, Nat.add_assoc,
    Nat.reduceAdd]

/-- Inside a group of blocks of `size` bytes: what came before it and the blocks
it has so far. -/
def inGroup (base : List Field) (size count : Nat) (blocks : List (List Field)) : Written where
  fields := base ++ blocks.flatten
  limit := width base + size * blocks.length
  count := count
  index := u64 (blocks.length - 1)
  offset := if blocks = [] then USIZE_MAX else width base + size * (blocks.length - 1)

theorem groupWrap_runs {size count : Nat} (hl : t.limit = width t.fields)
    (h : t.limit + 4 ≤ room) :
    Runs (Wrote room) (groupWrap size count) t ()
      (inGroup (t.fields ++ groupFields size count) size count []) := by
  refine Runs.get_bind fun e he => ?_
  rw [he.limit]
  refine (setLimit_runs _).bind ((put_runs (by exact hl) (by omega)).bind ?_)
  refine (put_runs ?_ (by omega)).bind (Runs.modify fun e he => ?_)
  · simp only [hl, width_append, width_cons, width_nil]
  · refine ⟨?_, he.room_le, he.room_fits, ?_, rfl, rfl, rfl⟩
    · simpa [inGroup, groupFields] using he.written
    · rw [he.limit]
      simp [inGroup, groupFields, hl]

theorem u64_pred_succ {n : Nat} (h : n < 65536) : u64 ((u64 ((n : Int) - 1) : Nat) + 1) = n := by
  unfold u64
  omega

/-- One block: a fresh one as long as the group has room for it, else in place
of the last one. -/
theorem block_runs {base : List Field} {size count : Nat} {blocks : List (List Field)}
    {fs : List Field} (hsize : ∀ b ∈ blocks, width b = size) (hfs : width fs = size)
    (hcount : blocks.length ≤ count) (hpos : 0 < count) (hmax : count < 65536)
    (hroom : width base + size * (push count blocks fs).length ≤ room) :
    Runs (Wrote room)
      (advance size >>= fun _ => get >>= fun e => putAll e.offset fs)
      (inGroup base size count blocks) () (inGroup base size count (push count blocks fs)) := by
  have hidx : u64 ((u64 ((blocks.length : Int) - 1) : Nat) + 1) = blocks.length :=
    u64_pred_succ (by omega)
  by_cases hlt : blocks.length < count
  · have hpush : push count blocks fs = blocks ++ [fs] := if_pos hlt
    rw [hpush] at hroom ⊢
    simp only [List.length_append, List.length_cons, List.length_nil, Nat.zero_add] at hroom
    have hadv : Runs (Wrote room) (advance size) (inGroup base size count blocks) ()
        { inGroup base size count blocks with
          offset := width base + size * blocks.length
          limit := width base + size * blocks.length + size
          index := blocks.length } := by
      refine Runs.get_bind fun e he => ?_
      rw [he.index, he.count]
      simp only [inGroup, hidx]
      refine Runs.ite (fun h => absurd h (by omega)) fun _ => Runs.modify fun e he => ?_
      exact { he with
        offset := he.limit
        limit := by rw [he.limit]
        index := rfl }
    refine hadv.bind (Runs.get_bind fun e he => ?_)
    rw [he.offset]
    have hbytes : width base + size * blocks.length =
        width (inGroup base size count blocks).fields := by
      rw [inGroup, width_append, width_flatten size hsize]
    have hfit : width base + size * blocks.length + width fs ≤ room := by
      rw [hfs, Nat.add_assoc, ← Nat.mul_succ]; exact hroom
    convert putAll_runs (t := { inGroup base size count blocks with
        offset := width base + size * blocks.length
        limit := width base + size * blocks.length + size
        index := blocks.length }) fs hbytes hfit using 1
    simp only [inGroup, List.flatten_append, List.flatten_cons, List.flatten_nil, List.append_nil,
      List.append_assoc, List.length_append, List.length_cons, List.length_nil, Nat.zero_add,
      Nat.mul_add, Nat.mul_one, Nat.add_assoc, Nat.add_sub_cancel, Written.mk.injEq, true_and]
    refine ⟨?_, by simp⟩
    unfold u64
    omega
  · have hne : blocks ≠ [] := by rintro rfl; simp at hlt; omega
    have hpush : push count blocks fs = blocks.dropLast ++ [fs] := if_neg hlt
    have hlen : (blocks.dropLast ++ [fs]).length = blocks.length := by
      have := List.length_pos_iff.mpr hne
      simp only [List.length_append, List.length_dropLast, List.length_cons, List.length_nil]
      omega
    rw [hpush, hlen] at hroom
    rw [hpush]
    have hadv : Runs (Wrote room) (advance size) (inGroup base size count blocks) ()
        (inGroup base size count blocks) := by
      refine Runs.get_bind fun e he => ?_
      rw [he.index, he.count]
      simp only [inGroup, hidx]
      exact Runs.ite (fun _ => Runs.pure _) fun h => absurd h (by omega)
    refine hadv.bind (Runs.get_bind fun e he => ?_)
    -- the block goes over the last one, so only what is before that stays written
    have hback : ∀ e, Wrote room e (inGroup base size count blocks) → Wrote room e
        { inGroup base size count blocks with fields := base ++ blocks.dropLast.flatten } := by
      intro e he
      refine { he with written := List.IsPrefix.trans ?_ he.written }
      have hsplit : blocks.flatten = blocks.dropLast.flatten ++ blocks.getLast hne := by
        conv_lhs => rw [← List.dropLast_append_getLast hne]
        simp
      rw [inGroup, hsplit, bytes_append, bytes_append, bytes_append, ← List.append_assoc]
      exact List.prefix_append _ _
    have hdrop : width base + size * (blocks.length - 1) =
        width (base ++ blocks.dropLast.flatten) := by
      rw [width_append, width_flatten size fun b hb => hsize b ((List.dropLast_sublist _).subset hb),
        List.length_dropLast]
    have hfit : width base + size * (blocks.length - 1) + width fs ≤ room := by
      have := List.length_pos_iff.mpr hne
      rw [hfs, Nat.add_assoc, ← Nat.mul_succ]
      rwa [show (blocks.length - 1).succ = blocks.length by omega]
    have hput := putAll_runs
      (t := { inGroup base size count blocks with fields := base ++ blocks.dropLast.flatten }) fs hdrop
      hfit
    have hoff : (inGroup base size count blocks).offset = width base + size * (blocks.length - 1) :=
      if_neg hne
    rw [he.offset, hoff]
    intro e he
    obtain ⟨e', hrun, he'⟩ := hput e (hback e he)
    refine ⟨e', hrun, ?_⟩
    convert he' using 1
    simp only [inGroup, hlen, if_neg hne, List.flatten_append, List.flatten_cons, List.flatten_nil,
      List.append_nil, List.append_assoc]
    simp

end Encoder

end HiPerf
