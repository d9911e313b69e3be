import HiPerf.Go.Agree
import HiPerf.Go.Snapshot
import HiPerf.Serial.Intact
import HiPerf.Snapshot.Exact
import HiPerf.Snapshot.FlatImage

/-!
What the Go encoder writes. An image with groups the codec can count is the one the Rust
encoder writes, whatever the buffer held before; with a longer group the encoder stops.
-/

namespace HiPerf.Go

open Machine Exec Serial Bytes

/-- A message under way: its buffer has `len` bytes and begins with the fields `t.1`, and of
the `t.2.1` blocks of its group `t.2.2` are written. -/
structure Stands (len : Nat) (m : Flyweight) (t : List Field × Nat × Nat) : Prop where
  length : m.buffer.length = len
  wrote : m.Wrote t.1
  position : m.position = width t.1
  count : m.count = t.2.1
  index : m.index = t.2.2

/-- `Next`, and the setters of the block. -/
def putBlock (blockLength : Nat) (gs : List Field) : Run Flyweight Unit :=
  Flyweight.next blockLength >>= fun _ => get >>= fun m => Flyweight.putFields m.offset gs

section

variable {len blockLength count k : Nat} {m : Flyweight} {fs gs : List Field}

theorem putBlock_runs (hwidth : width gs = blockLength) (hk : k < count)
    (hroom : width fs + blockLength ≤ len) :
    Runs (Stands len) (putBlock blockLength gs) (fs, count, k) () (fs ++ gs, count, k + 1) := by
  intro m hm
  have hlen : m.buffer.length = len := hm.length
  have hpos : m.position = width fs := hm.position
  have hcount : m.count = count := hm.count
  have hindex : m.index = k := hm.index
  have hnext := @Flyweight.next_ok m blockLength (by omega) (by omega)
  obtain ⟨b, e, hb, hblen⟩ := @Flyweight.putFields_ok
    { m with offset := m.position, position := m.position + blockLength, index := m.index + 1 }
    fs m.position gs hm.wrote hpos (by dsimp only; omega)
  refine ⟨_, (bind_ok hnext _).trans e, ?_⟩
  constructor
  · exact hblen.trans hlen
  · exact hb
  · dsimp only
    rw [width_append, hwidth, hpos]
  · exact hcount
  · exact congrArg (· + 1) hindex

theorem putBlock_stops (hm : Stands len m (fs, count, k)) (hk : count ≤ k) :
    ∃ p m', putBlock blockLength gs m = .error p m' := by
  have hcount : m.count = count := hm.count
  have hindex : m.index = k := hm.index
  obtain ⟨p, e⟩ := @Flyweight.next_stops m blockLength (by omega)
  exact ⟨p, m, bind_error e _⟩

theorem putBlocks_runs (bs : List (List Field)) (hwidth : ∀ b ∈ bs, width b = blockLength)
    (hk : k + bs.length ≤ count) (hroom : width fs + blockLength * bs.length ≤ len) :
    Runs (Stands len) (runAll (putBlock blockLength) bs) (fs, count, k) ()
      (fs ++ bs.flatten, count, k + bs.length) := by
  induction bs generalizing fs k with
  | nil =>
    rw [List.flatten_nil, List.append_nil]
    exact Runs.pure ()
  | cons b bs ih =>
    rw [List.length_cons, Nat.mul_succ] at hroom
    rw [List.length_cons] at hk
    have hb := hwidth b List.mem_cons_self
    have hrest := @ih (k + 1) (fs ++ b) (fun b hb => hwidth b (List.mem_cons_of_mem _ hb))
      (by omega) (by rw [width_append, hb]; omega)
    rw [List.append_assoc, Nat.add_assoc, Nat.add_comm 1] at hrest
    exact (putBlock_runs hb (by omega) (by omega)).bind hrest

/-- The block behind the last one that was declared is refused. -/
theorem putBlocks_stops (bs : List (List Field)) (hwidth : ∀ b ∈ bs, width b = blockLength)
    (hm : Stands len m (fs, count, k)) (hle : k ≤ count) (hk : count < k + bs.length)
    (hroom : width fs + blockLength * bs.length ≤ len) :
    ∃ p m', runAll (putBlock blockLength) bs m = .error p m' := by
  induction bs generalizing fs k m with
  | nil => exact absurd hk (Nat.not_lt_of_le hle)
  | cons b bs ih =>
    rw [List.length_cons, Nat.mul_succ] at hroom
    rw [List.length_cons] at hk
    have hb := hwidth b List.mem_cons_self
    by_cases hlt : k < count
    · obtain ⟨m', e, hm'⟩ := @putBlock_runs len blockLength count k fs b hb hlt (by omega) m hm
      obtain ⟨p, m'', e'⟩ := ih (fun b hb => hwidth b (List.mem_cons_of_mem _ hb)) hm' hlt
        (by omega) (by rw [width_append, hb]; omega)
      exact ⟨p, m'', (bind_ok e _).trans e'⟩
    · obtain ⟨p, m', e⟩ := @putBlock_stops len blockLength count k m fs b hm (by omega)
      exact ⟨p, m', bind_error e _⟩

theorem groupCount_runs {c i : Nat} (hcount : count ≤ 65534) (hroom : width fs + 4 ≤ len) :
    Runs (Stands len) (Flyweight.groupCount blockLength count) (fs, c, i) ()
      (fs ++ groupFields blockLength count, count, 0) := by
  intro m hm
  have hlen : m.buffer.length = len := hm.length
  have hpos : m.position = width fs := hm.position
  obtain ⟨b, e, hb, hblen⟩ := @Flyweight.groupCount_ok m fs blockLength count hcount hm.wrote hpos
    (by omega)
  refine ⟨_, e, ?_⟩
  constructor
  · exact hblen.trans hlen
  · exact hb
  · dsimp only
    rw [width_append, hpos]
    rfl
  · rfl
  · rfl

/-- A group and its blocks. -/
def putGroup (blockLength : Nat) (bs : List (List Field)) : Run Flyweight Unit :=
  Flyweight.groupCount blockLength (u16 bs.length) >>= fun _ => runAll (putBlock blockLength) bs

theorem putGroup_runs {c i : Nat} {bs : List (List Field)} (hwidth : ∀ b ∈ bs, width b = blockLength)
    (hroom : width fs + 4 + blockLength * bs.length ≤ len) (hcount : bs.length ≤ 65534) :
    Runs (Stands len) (putGroup blockLength bs) (fs, c, i) ()
      (fs ++ groupFields blockLength bs.length ++ bs.flatten, bs.length, bs.length) := by
  have hu : u16 bs.length = bs.length := Nat.mod_eq_of_lt (by omega)
  have hgroup := @groupCount_runs len blockLength bs.length fs c i hcount (by omega)
  have hblocks := @putBlocks_runs len blockLength bs.length 0 (fs ++ groupFields blockLength bs.length)
    bs hwidth (by omega) (by rw [width_append]; exact hroom)
  rw [Nat.zero_add] at hblocks
  rw [putGroup, hu]
  exact hgroup.bind hblocks

theorem putGroup_stops {c i : Nat} {bs : List (List Field)}
    (hwidth : ∀ b ∈ bs, width b = blockLength) (hm : Stands len m (fs, c, i))
    (hroom : width fs + 4 + blockLength * bs.length ≤ len) (hcount : 65534 < bs.length) :
    ∃ p m', putGroup blockLength bs m = .error p m' := by
  by_cases hfew : u16 bs.length ≤ 65534
  · have hless : u16 bs.length < 0 + bs.length := by
      simp only [u16] at hfew ⊢
      omega
    obtain ⟨m', e, hm'⟩ := @groupCount_runs len blockLength (u16 bs.length) fs c i hfew (by omega) m hm
    obtain ⟨p, m'', e'⟩ := putBlocks_stops bs hwidth hm' (Nat.zero_le _) hless
      (by rw [width_append]; exact hroom)
    exact ⟨p, m'', (bind_ok e _).trans e'⟩
  · obtain ⟨p, m', e⟩ := @Flyweight.groupCount_stops m blockLength (u16 bs.length) (by omega)
    exact ⟨p, m', bind_error e _⟩

end

namespace Book

/-- The records of the occupied levels of a lane, from level `t` on. -/
def laneRecs (side : Nat) : Nat → List PriceLevel → List LevelRec
  | _, [] => []
  | t, lvl :: lane =>
    if lvl.head = NIL then laneRecs side (t + 1) lane
    else (side, u32 t, lvl) :: laneRecs side (t + 1) lane

theorem writeLevel_eq (side t : Nat) (lvl : PriceLevel) :
    writeLevel side t lvl = putBlock LEVELS_BLOCK (levelFields (side, u32 t, lvl)) := by
  simp only [writeLevel, putBlock, levelFields, Flyweight.putFields, putSide, putInt64,
    Flyweight.putU32, bind_pure_unit, Nat.add_assoc, Nat.reduceAdd]

theorem writeOrder_eq (slot : Nat) (o : Order) :
    writeOrder slot o = putBlock ORDERS_BLOCK (orderFields (slot, o)) := by
  simp only [writeOrder, putBlock, orderFields, Flyweight.putFields, putSide, putInt64,
    Flyweight.putU32, bind_pure_unit, Nat.add_assoc, Nat.reduceAdd]

theorem setScalars_eq (b : Book) : setScalars b = Flyweight.putFields 8
    (Scalars.fields ⟨b.priceMin, b.tick, b.nLevels, u32 b.pool.size, b.hwm, b.bestBid, b.bestAsk,
      b.freeHead⟩) := by
  simp only [setScalars, Scalars.fields, Flyweight.putFields, putInt64, putInt32,
    Flyweight.putU32, bind_pure_unit, Nat.reduceAdd]

theorem countLane_eq (side t : Nat) (lane : List PriceLevel) (n : Nat) :
    countLane lane n = n + (laneRecs side t lane).length := by
  induction lane generalizing t n with
  | nil => rfl
  | cons lvl lane ih =>
    have hstep : countLane (lvl :: lane) n =
        countLane lane (if lvl.head ≠ NIL then n + 1 else n) := rfl
    rw [hstep, ih (t + 1), laneRecs]
    by_cases hnil : lvl.head = NIL
    · rw [if_pos hnil, if_neg (not_not.mpr hnil)]
    · rw [if_neg hnil, if_pos hnil, List.length_cons]
      omega

theorem writeLane_eq (side t : Nat) (lane : List PriceLevel) : writeLane side t lane =
    runAll (putBlock LEVELS_BLOCK) ((laneRecs side t lane).map levelFields) := by
  induction lane generalizing t with
  | nil => rfl
  | cons lvl lane ih =>
    rw [writeLane, laneRecs]
    split
    · exact ih (t + 1)
    · rw [ih (t + 1), writeLevel_eq, List.map_cons, runAll]

theorem writeOrders_eq {pool : Array Order} {ord : Nat → Order} {slot n : Nat}
    (hpool : ∀ s < slot + n, pool[s]? = some (ord s)) : writeOrders pool slot n =
      runAll (putBlock ORDERS_BLOCK) ((List.range' slot n).map fun s => orderFields (s, ord s)) := by
  induction n generalizing slot with
  | zero => rfl
  | succ n ih =>
    rw [writeOrders, hpool slot (by omega), ih fun s hs => hpool s (by omega), List.range'_succ,
      List.map_cons, runAll]
    dsimp only
    rw [writeOrder_eq]

/-- The records of a lane are those of the lane of the memory. -/
theorem laneRecs_range (side : Nat) (lvl : Nat → PriceLevel) {t n : Nat} (hn : t + n ≤ 4294967296) :
    laneRecs side t ((List.range' t n).map lvl) = (List.range' t n).filterMap fun u =>
      if (lvl u).head = NIL then none else some (side, u, lvl u) := by
  induction n generalizing t with
  | zero => rfl
  | succ n ih =>
    have hu : u32 (t : Int) = t := by
      simp only [u32]
      omega
    rw [List.range'_succ, List.map_cons, laneRecs, ih (by omega), hu, List.filterMap_cons]
    split <;> rfl

variable {cap size : Nat} {f : Flat} {L : Ledger} {q : Lane → Nat → List Nat} {g : Book}

theorem Shows.toList (h : g.Shows cap size (f.hwm, f)) (side : Nat) :
    (g.lane side).toList = (List.range' 0 f.grid.nLevels).map (f.lvl (laneOf side)) := by
  have hrows := h.lane side
  apply List.ext_getElem?
  intro t
  rw [List.getElem?_map, Array.getElem?_toList]
  by_cases ht : t < f.grid.nLevels
  · rw [hrows.get t ht, List.getElem?_range' ht]
    simp
  · have hsize : (g.lane side).size = f.grid.nLevels := hrows.size
    rw [Array.getElem?_eq_none (by omega), List.getElem?_eq_none (by simp; omega)]
    rfl

theorem Shows.laneRecs_eq (h : g.Shows cap size (f.hwm, f)) (hgrid : f.grid.nLevels ≤ 2147483648)
    (side : Nat) : laneRecs side 0 (g.lane side).toList = f.laneRecs side := by
  rw [h.toList, laneRecs_range side _ (by omega), Flat.laneRecs, List.range_eq_range']

theorem Shows.occupied_eq (h : g.Shows cap size (f.hwm, f)) (hgrid : f.grid.nLevels ≤ 2147483648) :
    g.occupied = f.levelRecs.length := by
  have hbids := h.laneRecs_eq hgrid 0
  have hasks := h.laneRecs_eq hgrid 1
  rw [occupied, countLane_eq 1 0, countLane_eq 0 0, Nat.zero_add, Flat.levelRecs, List.length_append,
    ← hbids, ← hasks]
  rfl

/-- The header, the scalars, and both groups. -/
theorem Shows.write_eq (h : g.Shows cap size (f.hwm, f)) (hgrid : f.grid.nLevels ≤ 2147483648) :
    write g = (Flyweight.applyHeader HiPerf.SBE_BLOCK_LENGTH HiPerf.SBE_TEMPLATE_ID
        HiPerf.SBE_SCHEMA_ID HiPerf.SBE_SCHEMA_VERSION >>= fun _ =>
      Flyweight.putFields 8 (f.image (u32 cap) (List.range f.hwm)).scalars.fields) >>= fun _ =>
        putGroup LEVELS_BLOCK (f.levelRecs.map levelFields) >>= fun _ =>
          putGroup ORDERS_BLOCK ((f.orderRecs (List.range f.hwm)).map orderFields) := by
  have hscalars : setScalars g =
      Flyweight.putFields 8 (f.image (u32 cap) (List.range f.hwm)).scalars.fields := by
    rw [setScalars_eq, h.priceMin, h.tick, h.nLevels, h.pool, h.hwm, h.bestBid, h.bestAsk,
      h.freeHead]
    rfl
  have hhwm : g.hwm = f.hwm := h.hwm
  have horders := @writeOrders_eq g.pool f.ord 0 f.hwm
    fun s hs => h.order s (by omega)
  have hbids : writeLane 0 0 g.bids.toList = runAll (putBlock LEVELS_BLOCK)
      ((f.laneRecs 0).map levelFields) := by
    rw [writeLane_eq, ← h.laneRecs_eq hgrid 0]
    rfl
  have hasks : writeLane 1 0 g.asks.toList = runAll (putBlock LEVELS_BLOCK)
      ((f.laneRecs 1).map levelFields) := by
    rw [writeLane_eq, ← h.laneRecs_eq hgrid 1]
    rfl
  rw [write, hscalars, hbids, hasks, h.occupied_eq hgrid, hhwm, horders]
  simp only [putGroup, Flat.levelRecs, List.map_append, runAll_append, List.length_append,
    List.length_map, Flat.orderRecs, List.map_map, List.range_eq_range', List.length_range',
    bind_assoc]
  rfl

theorem grow_take_length (n : Nat) (buf : List UInt8) : ((grow n buf).take n).length = n := by
  rw [grow]
  split
  · rw [List.length_take, List.length_replicate, Nat.min_self]
  · rw [List.length_take]
    omega

/-- The message before its groups. -/
theorem head_runs {len : Nat} (hlen : 48 ≤ len) (s : Scalars) :
    Runs (Stands len) (Flyweight.applyHeader HiPerf.SBE_BLOCK_LENGTH HiPerf.SBE_TEMPLATE_ID
        HiPerf.SBE_SCHEMA_ID HiPerf.SBE_SCHEMA_VERSION >>= fun _ => Flyweight.putFields 8 s.fields)
      ([], 0, 0) () (HiPerf.headerFields ++ s.fields, 0, 0) := by
  intro m hm
  have hmlen : m.buffer.length = len := hm.length
  obtain ⟨b, e, hb, hblen⟩ := @Flyweight.applyHeader_ok m HiPerf.SBE_BLOCK_LENGTH
    HiPerf.SBE_TEMPLATE_ID HiPerf.SBE_SCHEMA_ID HiPerf.SBE_SCHEMA_VERSION
    (show 48 ≤ m.buffer.length by omega)
  obtain ⟨b', e', hb', hblen'⟩ := @Flyweight.putFields_ok
    { m with buffer := b, position := Serial.HEADER_LEN + HiPerf.SBE_BLOCK_LENGTH }
    HiPerf.headerFields 8 s.fields hb rfl (show 48 ≤ b.length by omega)
  refine ⟨_, (bind_ok e _).trans e', ?_⟩
  constructor
  · exact hblen'.trans (hblen.trans hmlen)
  · exact hb'
  · rfl
  · exact hm.count
  · exact hm.index

theorem levels_width (f : Flat) : ∀ b ∈ f.levelRecs.map levelFields, width b = LEVELS_BLOCK := by
  intro b hb
  obtain ⟨r, -, rfl⟩ := List.mem_map.mp hb
  exact levelFields_width r

theorem orders_width (f : Flat) (slots : List Nat) :
    ∀ b ∈ (f.orderRecs slots).map orderFields, width b = ORDERS_BLOCK := by
  intro b hb
  obtain ⟨r, -, rfl⟩ := List.mem_map.mp hb
  exact orderFields_width r

theorem image_width (f : Flat) (capacity : Nat) : width (f.image capacity (List.range f.hwm)).fields =
    56 + LEVELS_BLOCK * f.levelRecs.length + ORDERS_BLOCK * f.hwm := by
  have horders : (f.orderRecs (List.range f.hwm)).length = f.hwm := by
    rw [Flat.orderRecs, List.length_map, List.length_range]
  rw [Image.width_fields]
  simp only [Flat.image, horders]

/-- The fields of the message up to its orders. -/
def levelsFields (f : Flat) (capacity : Nat) : List Field :=
  HiPerf.headerFields ++ (f.image capacity (List.range f.hwm)).scalars.fields ++
    groupFields LEVELS_BLOCK f.levelRecs.length ++ (f.levelRecs.map levelFields).flatten

theorem levelsFields_width (f : Flat) (capacity : Nat) :
    width (levelsFields f capacity) = 52 + LEVELS_BLOCK * f.levelRecs.length := by
  have hblocks : width (f.levelRecs.map levelFields).flatten = LEVELS_BLOCK * f.levelRecs.length := by
    rw [width_flatten LEVELS_BLOCK (levels_width f), List.length_map]
  rw [levelsFields, width_append, hblocks]
  rfl

theorem orderBlocks_length (f : Flat) :
    ((f.orderRecs (List.range f.hwm)).map orderFields).length = f.hwm := by
  rw [List.length_map, Flat.orderRecs, List.length_map, List.length_range]

section

variable {len : Nat} {m : Flyweight}

theorem levels_runs (f : Flat) (capacity : Nat) (hlevels : f.levelRecs.length ≤ 65534)
    (hroom : 52 + LEVELS_BLOCK * f.levelRecs.length ≤ len) :
    Runs (Stands len) (putGroup LEVELS_BLOCK (f.levelRecs.map levelFields))
      (HiPerf.headerFields ++ (f.image capacity (List.range f.hwm)).scalars.fields, 0, 0) ()
      (levelsFields f capacity, f.levelRecs.length, f.levelRecs.length) := by
  have hlen : (f.levelRecs.map levelFields).length = f.levelRecs.length := List.length_map _
  have h := @putGroup_runs len LEVELS_BLOCK
    (HiPerf.headerFields ++ (f.image capacity (List.range f.hwm)).scalars.fields) 0 0
    (f.levelRecs.map levelFields) (levels_width f) (by rw [hlen]; exact hroom) (by omega)
  rw [hlen] at h
  exact h

theorem levels_stops {capacity : Nat} (hlevels : 65534 < f.levelRecs.length)
    (hroom : 52 + LEVELS_BLOCK * f.levelRecs.length ≤ len)
    (hm : Stands len m
      (HiPerf.headerFields ++ (f.image capacity (List.range f.hwm)).scalars.fields, 0, 0)) :
    ∃ p m', putGroup LEVELS_BLOCK (f.levelRecs.map levelFields) m = .error p m' := by
  have hlen : (f.levelRecs.map levelFields).length = f.levelRecs.length := List.length_map _
  apply putGroup_stops (levels_width f) hm
  · rw [hlen]
    exact hroom
  · omega

/-- The message of a memory: its header, its scalars, and both groups. -/
def putImage (f : Flat) (capacity : Nat) : Run Flyweight Unit :=
  (Flyweight.applyHeader HiPerf.SBE_BLOCK_LENGTH HiPerf.SBE_TEMPLATE_ID HiPerf.SBE_SCHEMA_ID
      HiPerf.SBE_SCHEMA_VERSION >>= fun _ =>
    Flyweight.putFields 8 (f.image capacity (List.range f.hwm)).scalars.fields) >>= fun _ =>
      putGroup LEVELS_BLOCK (f.levelRecs.map levelFields) >>= fun _ =>
        putGroup ORDERS_BLOCK ((f.orderRecs (List.range f.hwm)).map orderFields)

theorem putImage_runs (f : Flat) (capacity : Nat) (hlevels : f.levelRecs.length ≤ 65534)
    (hhwm : f.hwm ≤ 65534) (hroom : width (f.image capacity (List.range f.hwm)).fields ≤ len) :
    Runs (Stands len) (putImage f capacity) ([], 0, 0) ()
      ((f.image capacity (List.range f.hwm)).fields, f.hwm, f.hwm) := by
  have hlen := orderBlocks_length f
  rw [image_width] at hroom
  have hhead := @head_runs len (by omega) (f.image capacity (List.range f.hwm)).scalars
  have hlevel := @levels_runs len f capacity hlevels (by omega)
  have horder := @putGroup_runs len ORDERS_BLOCK (levelsFields f capacity) f.levelRecs.length
    f.levelRecs.length _ (orders_width f (List.range f.hwm))
    (by rw [levelsFields_width, hlen]; omega) (by omega)
  have hfields : levelsFields f capacity ++ groupFields ORDERS_BLOCK f.hwm ++
      ((f.orderRecs (List.range f.hwm)).map orderFields).flatten =
      (f.image capacity (List.range f.hwm)).fields := by
    simp only [Image.fields, Image.prefixFields, levelsFields, Flat.image, List.length_range]
  rw [hlen, hfields] at horder
  exact hhead.bind (hlevel.bind horder)

/-- With no more than 65534 slots in use the message is the image of the memory. -/
theorem write_runs (h : g.Shows cap size (f.hwm, f)) (hgrid : f.grid.nLevels ≤ 2147483648)
    (hlevels : f.levelRecs.length ≤ 65534) (hhwm : f.hwm ≤ 65534)
    (hroom : width (f.image (u32 cap) (List.range f.hwm)).fields ≤ len) :
    Runs (Stands len) (write g) ([], 0, 0) ()
      ((f.image (u32 cap) (List.range f.hwm)).fields, f.hwm, f.hwm) := by
  rw [h.write_eq hgrid]
  exact putImage_runs f (u32 cap) hlevels hhwm hroom

/-- With more slots in use than that it is refused. -/
theorem write_stops (h : g.Shows cap size (f.hwm, f)) (hgrid : f.grid.nLevels ≤ 2147483648)
    (hhwm : 65534 < f.hwm) (hm : Stands len m ([], 0, 0))
    (hroom : width (f.image (u32 cap) (List.range f.hwm)).fields ≤ len) :
    ∃ p m', write g m = .error p m' := by
  have hlen := orderBlocks_length f
  rw [image_width] at hroom
  obtain ⟨m₁, e₁, hm₁⟩ := @head_runs len (by omega) (f.image (u32 cap) (List.range f.hwm)).scalars m hm
  rw [h.write_eq hgrid, bind_ok e₁]
  by_cases hlevels : f.levelRecs.length ≤ 65534
  · obtain ⟨m₂, e₂, hm₂⟩ := @levels_runs len f (u32 cap) hlevels (by omega) m₁ hm₁
    obtain ⟨p, m₃, e₃⟩ := putGroup_stops (orders_width f (List.range f.hwm)) hm₂
      (by rw [levelsFields_width, hlen]; omega) (by omega)
    exact ⟨p, m₃, (bind_ok e₂ _).trans e₃⟩
  · obtain ⟨p, m₂, e₂⟩ := levels_stops (Nat.lt_of_not_le hlevels) (by omega) hm₁
    exact ⟨p, m₂, bind_error e₂ _⟩

end

theorem Shows.encodedLength_eq (h : g.Shows cap size (f.hwm, f)) (hgrid : f.grid.nLevels ≤ 2147483648) :
    encodedLength g.occupied g.hwm =
      width (f.image (u32 cap) (List.range f.hwm)).fields + 4 := by
  have hhwm : g.hwm = f.hwm := h.hwm
  rw [image_width, h.occupied_eq hgrid, hhwm, encodedLength, HiPerf.SBE_BLOCK_LENGTH]
  simp only [LEVELS_BLOCK, ORDERS_BLOCK]
  omega

theorem stands_new (len : Nat) {buf : List UInt8} (h : buf.length = len) :
    Stands len ⟨buf, 0, 0, 0, 0⟩ ([], 0, 0) := ⟨h, List.nil_prefix, rfl, rfl, rfl⟩

/-- `Encode` fills what it took of its buffer with the image, and nothing is left there of what
was in it. -/
theorem encode_ok (crc32c : List UInt8 → UInt32) (h : g.Shows cap size (f.hwm, f))
    (hgrid : f.grid.nLevels ≤ 2147483648) (hlevels : f.levelRecs.length ≤ 65534)
    (hhwm : f.hwm ≤ 65534) (buf : List UInt8) :
    ∃ rest, encode crc32c g buf =
      .ok (Encoder.sealed crc32c (f.image (u32 cap) (List.range f.hwm)),
        Encoder.sealed crc32c (f.image (u32 cap) (List.range f.hwm)) ++ rest) := by
  have hn := h.encodedLength_eq hgrid
  have htake := grow_take_length (encodedLength g.occupied g.hwm) buf
  obtain ⟨m, e, hm⟩ := write_runs h hgrid hlevels hhwm (Nat.le_of_lt (by omega)) _
    (stands_new _ htake)
  have hlen : m.buffer.length = encodedLength g.occupied g.hwm := hm.length
  have hpos : m.position = width (f.image (u32 cap) (List.range f.hwm)).fields := hm.position
  have hwidth : 8 ≤ m.position := by
    rw [hpos, image_width]
    omega
  have hbody : m.buffer.take m.position = bytes (f.image (u32 cap) (List.range f.hwm)).fields := by
    have hprefix := List.prefix_iff_eq_take.mp hm.wrote
    rw [bytes_length] at hprefix
    rw [hpos]
    exact hprefix.symm
  have hend : 8 + (m.position - 8) = m.position := by omega
  have hput : Bytes.put m.buffer m.position
      (le 4 (crc32c (bytes (f.image (u32 cap) (List.range f.hwm)).fields)).toNat) =
      Encoder.sealed crc32c (f.image (u32 cap) (List.range f.hwm)) := by
    rw [Bytes.put, hbody, le_length, List.drop_eq_nil_of_le (by omega), List.append_nil]
    rfl
  have hseal : sealImage crc32c m = .ok (m.position + 4)
      { m with buffer := Encoder.sealed crc32c (f.image (u32 cap) (List.range f.hwm)) } := by
    rw [sealImage, get_bind]
    dsimp only
    rw [hend, if_neg (by omega), hbody, ← hput]
    exact bind_ok (Flyweight.putU32_ok (by omega)) _
  have hall : (Encoder.sealed crc32c (f.image (u32 cap) (List.range f.hwm))).length ≤
      m.position + 4 := by
    rw [Encoder.sealed_length, hpos]
  refine ⟨(grow (encodedLength g.occupied g.hwm) buf).drop (encodedLength g.occupied g.hwm), ?_⟩
  rw [encode, (bind_ok e _).trans hseal]
  dsimp only
  rw [List.take_of_length_le hall]

theorem encode_stops (crc32c : List UInt8 → UInt32) (h : g.Shows cap size (f.hwm, f))
    (hgrid : f.grid.nLevels ≤ 2147483648) (hhwm : 65534 < f.hwm) (buf : List UInt8) :
    ∃ p, encode crc32c g buf = .error p := by
  have hn := h.encodedLength_eq hgrid
  obtain ⟨p, m, e⟩ := write_stops h hgrid hhwm
    (stands_new _ (grow_take_length (encodedLength g.occupied g.hwm) buf)) (by omega)
  exact ⟨p, by rw [encode, bind_error e]⟩

end Book

end HiPerf.Go
