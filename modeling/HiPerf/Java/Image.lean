import HiPerf.Go.Reload
import HiPerf.Java.Agree
import HiPerf.Java.Snapshot

/-!
What the Java encoder writes into a buffer with room for it: the image the Rust encoder writes.
Its flyweights check less than those of Go, and do the same wherever those do not stop.
-/

namespace HiPerf.Java

open Machine Exec Serial Bytes HashMaps

variable {om : Long2ObjectHashMap Int}

section

variable {α : Type} {m : Flyweight}

/-- Whatever `x` does, `y` does. -/
abbrev Follows (y x : Run Flyweight α) : Prop := Lockstep False Eq x y

theorem follows_of {x y : Run Flyweight α} (h : ∀ m a m', x m = .ok a m' → y m = .ok a m') :
    Follows y x := by
  rintro m _ rfl
  constructor
  · intro a m' e
    exact ⟨m', h m a m' e, rfl⟩
  · exact False.elim

theorem follows_self (x : Run Flyweight α) : Follows x x := follows_of fun _ _ _ e => e

theorem next_follows (blockLength : Nat) :
    Follows (next blockLength) (Flyweight.next blockLength) := by
  apply follows_of
  intro m a m' e
  by_cases h : m.index < m.count ∧ m.position + blockLength ≤ m.buffer.length
  · rw [Flyweight.next_ok h.1 h.2] at e
    rw [← e, next, get_bind, bind_ok (Flyweight.panicIf_ok (Nat.not_le_of_lt h.1)), set_run]
  · obtain ⟨p, e'⟩ := Flyweight.next_stops h
    rw [e'] at e
    cases e

theorem setDimensions_ok {pos blockLength count : Nat} (h : pos + 4 ≤ m.buffer.length) :
    Flyweight.setDimensions pos blockLength count m = .ok () { m with
      buffer := Bytes.put (Bytes.put m.buffer pos (le 2 blockLength)) (pos + 2) (le 2 count) } := by
  have hfit : pos + (le 2 blockLength).length ≤ m.buffer.length := by
    rw [le_length]
    omega
  rw [Flyweight.setDimensions, Flyweight.putU16, bind_ok (Flyweight.put_ok hfit)]
  apply Flyweight.put_ok
  dsimp only
  rw [le_length, put_length hfit]
  omega

theorem groupCount_follows (blockLength count : Nat) :
    Follows (groupCount blockLength count) (Flyweight.groupCount blockLength count) := by
  apply follows_of
  intro m a m' e
  by_cases h : count ≤ 65534 ∧ m.position + 4 ≤ m.buffer.length
  · rw [Flyweight.groupCount, bind_ok (Flyweight.panicIf_ok (by omega)), get_bind,
      bind_ok (Flyweight.wrap_ok h.2), bind_ok (setDimensions_ok h.2), modify_run] at e
    rw [← e, groupCount, bind_ok (Flyweight.panicIf_ok (by omega)), get_bind, modify_bind,
      Int.toNat_natCast]
    exact setDimensions_ok h.2
  · obtain ⟨p, m₁, e'⟩ := Flyweight.groupCount_stops h
    rw [e'] at e
    cases e

theorem applyHeader_follows : Follows applyHeader (Flyweight.applyHeader HiPerf.SBE_BLOCK_LENGTH
    HiPerf.SBE_TEMPLATE_ID HiPerf.SBE_SCHEMA_ID HiPerf.SBE_SCHEMA_VERSION) := by
  apply follows_of
  intro m a m' e
  unfold Flyweight.applyHeader at e
  by_cases h : 0 + Serial.HEADER_LEN ≤ m.buffer.length
  · rw [bind_ok (Flyweight.wrap_ok h)] at e
    obtain ⟨_, m₁, e₁, e₂⟩ := bind_eq_ok.mp e
    by_cases h₁ : Serial.HEADER_LEN + HiPerf.SBE_BLOCK_LENGTH ≤ m₁.buffer.length
    · rw [Flyweight.setPosition_ok h₁] at e₂
      rw [← e₂, applyHeader, bind_ok e₁, modify_run]
      rfl
    · obtain ⟨p, e'⟩ := Flyweight.setPosition_stops (Nat.lt_of_not_le h₁)
      rw [e'] at e₂
      cases e₂
  · obtain ⟨p, e'⟩ := Flyweight.wrap_stops (Nat.lt_of_not_le h)
    rw [bind_error e'] at e
    cases e

end

/-- Only the low bytes of a number are written. -/
theorem le_mod (w n : Nat) : le w (n % 256 ^ w) = le w n := by
  induction w generalizing n with
  | zero => rfl
  | succ w ih =>
    have hlow : UInt8.ofNat (n % 256 ^ (w + 1)) = UInt8.ofNat n := by
      apply UInt8.toNat_inj.mp
      rw [UInt8.toNat_ofNat', UInt8.toNat_ofNat']
      exact Nat.mod_mod_of_dvd n (Dvd.intro_left (256 ^ w) rfl)
    have hrest : n % 256 ^ (w + 1) / 256 = n / 256 % 256 ^ w := by
      rw [Nat.pow_succ', Nat.mod_mul_right_div_self]
    rw [le, le, hlow, hrest, ih]

theorem u32_ofNat (x : Nat) : u32 x = x % 256 ^ 4 := by
  have hpow : 256 ^ 4 = 4294967296 := by decide
  rw [hpow]
  unfold u32
  omega

/-- The bytes of an `int` are those of the unsigned number it stands for. -/
theorem le_u32 (x : Nat) : le 4 (u32 x) = le 4 x := by
  rw [u32_ofNat, le_mod]

theorem u32_int (x : Nat) : u32 (int x) = u32 x := by
  unfold int i32 u32
  omega

theorem writeLevel_follows (side t : Nat) (l : PriceLevel) :
    Follows (writeLevel side t (shownLevel l))
      (Go.putBlock LEVELS_BLOCK (levelFields (side, t, l))) := by
  have e : writeLevel side t (shownLevel l) = (next LEVELS_BLOCK >>= fun _ => get >>= fun m =>
      Flyweight.putFields m.offset (levelFields (side, t, l))) := by
    simp only [writeLevel, shownLevel, putInt, putLong, putSide, u32_int, le_u32, levelFields,
      Flyweight.putFields, bind_pure_unit, Nat.add_assoc, Nat.reduceAdd]
  rw [e]
  exact (next_follows _).bind fun _ => follows_self _

theorem writeOrder_follows (slot : Nat) (o : HiPerf.Order) :
    Follows (writeOrder slot (shown slot o).cell)
      (Go.putBlock ORDERS_BLOCK (orderFields (slot, o))) := by
  have e : writeOrder slot (shown slot o).cell = (next ORDERS_BLOCK >>= fun _ => get >>= fun m =>
      Flyweight.putFields m.offset (orderFields (slot, o))) := by
    simp only [writeOrder, shown, Order.cell, putInt, putLong, putSide, u32_int, le_u32,
      orderFields, Flyweight.putFields, bind_pure_unit, Nat.add_assoc, Nat.reduceAdd]
  rw [e]
  exact (next_follows _).bind fun _ => follows_self _

namespace Book

variable {lvl : Nat → PriceLevel} {side t n slot cap : Nat}

theorem countLane_cons (l : Level) (lane : List Level) (k : Nat) :
    countLane (l :: lane) k = countLane lane (if l.head ≠ NIL then k + 1 else k) := by
  rw [countLane, List.foldl_cons, countLane]

theorem countLane_eq (hheads : ∀ t, (lvl t).head ≤ HiPerf.NIL) (side k : Nat) :
    countLane ((List.range' t n).map fun u => shownLevel (lvl u)) k =
      k + ((List.range' t n).filterMap fun u =>
        if (lvl u).head = HiPerf.NIL then none else some (side, u, lvl u)).length := by
  induction n generalizing t k with
  | zero =>
    rw [List.range'_zero, List.map_nil, List.filterMap_nil, List.length_nil, Nat.add_zero,
      countLane, List.foldl_nil]
  | succ n ih =>
    rw [List.range'_succ, List.map_cons, countLane_cons, ih]
    by_cases hnil : (lvl t).head = HiPerf.NIL
    · have hn : (shownLevel (lvl t)).head = NIL := (int_eq_nil (hheads t)).mpr hnil
      simp only [if_neg (not_not.mpr hn), List.filterMap_cons, if_pos hnil]
    · have hn : (shownLevel (lvl t)).head ≠ NIL := mt (int_eq_nil (hheads t)).mp hnil
      simp only [if_pos hn, List.filterMap_cons, if_neg hnil, List.length_cons]
      rw [Nat.add_assoc, Nat.add_comm 1]

theorem writeLane_follows (hheads : ∀ t, (lvl t).head ≤ HiPerf.NIL) :
    Follows (writeLane side t ((List.range' t n).map fun u => shownLevel (lvl u)))
      (runAll (Go.putBlock LEVELS_BLOCK) (((List.range' t n).filterMap fun u =>
        if (lvl u).head = HiPerf.NIL then none else some (side, u, lvl u)).map levelFields)) := by
  induction n generalizing t with
  | zero => exact Lockstep.pure _
  | succ n ih =>
    rw [List.range'_succ, List.map_cons, writeLane, List.filterMap_cons]
    by_cases hnil : (lvl t).head = HiPerf.NIL
    · have hn : (shownLevel (lvl t)).head = NIL := (int_eq_nil (hheads t)).mpr hnil
      rw [if_pos hn, if_pos hnil]
      exact ih
    · have hn : (shownLevel (lvl t)).head ≠ NIL := mt (int_eq_nil (hheads t)).mp hnil
      rw [if_neg hn, if_neg hnil]
      exact (writeLevel_follows side t (lvl t)).bind fun _ => ih

theorem writeOrders_follows {pool : Array Order} {ord : Nat → HiPerf.Order}
    (hpool : ∀ s < slot + n, pool[s]? = some (shown s (ord s))) : Follows (writeOrders pool slot n)
      (runAll (Go.putBlock ORDERS_BLOCK)
        ((List.range' slot n).map fun s => orderFields (s, ord s))) := by
  induction n generalizing slot with
  | zero => exact Lockstep.pure _
  | succ n ih =>
    rw [writeOrders, hpool slot (by omega), List.range'_succ, List.map_cons]
    exact (writeOrder_follows slot (ord slot)).bind fun _ => ih fun s hs => hpool s (by omega)

variable {f : Flat} {j : Book om}

theorem Shows.toList (h : j.Shows cap (f.hwm, f)) (side : Nat) : (j.lane side).toList =
    (List.range' 0 f.grid.nLevels).map fun u => shownLevel (f.lvl (laneOf side) u) := by
  have hrows := h.lane side
  apply List.ext_getElem?
  intro t
  rw [List.getElem?_map, Array.getElem?_toList]
  by_cases ht : t < f.grid.nLevels
  · rw [hrows.get t ht, List.getElem?_range' ht]
    simp
  · have hsize : (j.lane side).size = f.grid.nLevels := hrows.size
    rw [Array.getElem?_eq_none (by omega), List.getElem?_eq_none (by simp; omega)]
    rfl

theorem Shows.occupied_eq (h : j.Shows cap (f.hwm, f))
    (hheads : ∀ x t, (f.lvl x t).head ≤ HiPerf.NIL) : j.occupied = f.levelRecs.length := by
  have hbids : j.bids.toList = _ := h.toList 0
  have hasks : j.asks.toList = _ := h.toList 1
  rw [occupied, hbids, hasks, countLane_eq (hheads (laneOf 1)) 1,
    countLane_eq (hheads (laneOf 0)) 0, Nat.zero_add, Flat.levelRecs, List.length_append,
    Flat.laneRecs, Flat.laneRecs, List.range_eq_range']

/-- The header, the scalars, and both groups. -/
theorem Shows.write_follows (h : j.Shows cap (f.hwm, f))
    (hheads : ∀ x t, (f.lvl x t).head ≤ HiPerf.NIL) (hlevels : f.levelRecs.length ≤ 65534)
    (hhwm : f.hwm ≤ 65534) : Follows (write j) (Go.Book.putImage f (u32 cap)) := by
  have hscalars : setScalars j.priceMin j.tick j.nLevels j.pool.size j.hwm j.bestBid j.bestAsk
      j.freeHead = Flyweight.putFields 8 (f.image (u32 cap) (List.range f.hwm)).scalars.fields := by
    rw [h.priceMin, h.tick, h.nLevels, h.pool, h.hwm, h.bestBid, h.bestAsk, h.freeHead]
    simp only [setScalars, Flat.image, Scalars.fields, putInt, putLong, u32_int, le_u32,
      Flyweight.putFields, bind_pure_unit, Nat.reduceAdd]
  have hbids : Follows (writeLane 0 0 j.bids.toList)
      (runAll (Go.putBlock LEVELS_BLOCK) ((f.laneRecs 0).map levelFields)) := by
    have hlane : j.bids.toList = _ := h.toList 0
    rw [hlane, Flat.laneRecs, List.range_eq_range']
    exact writeLane_follows (hheads _)
  have hasks : Follows (writeLane 1 0 j.asks.toList)
      (runAll (Go.putBlock LEVELS_BLOCK) ((f.laneRecs 1).map levelFields)) := by
    have hlane : j.asks.toList = _ := h.toList 1
    rw [hlane, Flat.laneRecs, List.range_eq_range']
    exact writeLane_follows (hheads _)
  have hcount : u16 f.levelRecs.length = f.levelRecs.length := Nat.mod_eq_of_lt (by omega)
  have hslots : u16 f.hwm = f.hwm := Nat.mod_eq_of_lt (by omega)
  have hmark : j.hwm = f.hwm := h.hwm
  have horders := @writeOrders_follows f.hwm 0 j.pool f.ord fun s hs => h.order s (by omega)
  have e : Go.Book.putImage f (u32 cap) = (Flyweight.applyHeader HiPerf.SBE_BLOCK_LENGTH
      HiPerf.SBE_TEMPLATE_ID HiPerf.SBE_SCHEMA_ID HiPerf.SBE_SCHEMA_VERSION >>= fun _ =>
      Flyweight.putFields 8 (f.image (u32 cap) (List.range f.hwm)).scalars.fields >>= fun _ =>
      Flyweight.groupCount LEVELS_BLOCK f.levelRecs.length >>= fun _ =>
      runAll (Go.putBlock LEVELS_BLOCK) ((f.laneRecs 0).map levelFields) >>= fun _ =>
      runAll (Go.putBlock LEVELS_BLOCK) ((f.laneRecs 1).map levelFields) >>= fun _ =>
      Flyweight.groupCount ORDERS_BLOCK f.hwm >>= fun _ => runAll (Go.putBlock ORDERS_BLOCK)
        ((List.range' 0 f.hwm).map fun s => orderFields (s, f.ord s))) := by
    simp only [Go.Book.putImage, Go.putGroup, List.length_map, hcount, Flat.orderRecs,
      hslots, List.map_map, List.range_eq_range', List.length_range', bind_assoc]
    simp only [Flat.levelRecs, List.map_append, runAll_append, bind_assoc]
    rfl
  rw [e, write, hscalars, h.occupied_eq hheads, hmark, Int.toNat_natCast]
  apply applyHeader_follows.bind
  intro _
  apply (follows_self _).bind
  intro _
  apply (groupCount_follows _ _).bind
  intro _
  apply hbids.bind
  intro _
  apply hasks.bind
  intro _
  apply (groupCount_follows _ _).bind
  intro _
  exact horders

/-- In a buffer with room for it `encode` leaves the image, and what was behind it. -/
theorem encode_ok (crc32c : List UInt8 → UInt32) (h : j.Shows cap (f.hwm, f))
    (hheads : ∀ x t, (f.lvl x t).head ≤ HiPerf.NIL) (hlevels : f.levelRecs.length ≤ 65534)
    (hhwm : f.hwm ≤ 65534) {buf : List UInt8}
    (hbuf : (Encoder.sealed crc32c (f.image (u32 cap) (List.range f.hwm))).length ≤ buf.length) :
    ∃ data, encode crc32c j buf =
        .ok (data, (Encoder.sealed crc32c (f.image (u32 cap) (List.range f.hwm))).length) ∧
      data.take (Encoder.sealed crc32c (f.image (u32 cap) (List.range f.hwm))).length =
        Encoder.sealed crc32c (f.image (u32 cap) (List.range f.hwm)) := by
  have hlen := Encoder.sealed_length crc32c (f.image (u32 cap) (List.range f.hwm))
  obtain ⟨m, e, hm⟩ := Go.Book.putImage_runs f (u32 cap) hlevels hhwm
    (show width (f.image (u32 cap) (List.range f.hwm)).fields ≤ buf.length by omega) _
    (Go.Book.stands_new _ rfl)
  obtain ⟨m', e', rfl⟩ := ((h.write_follows hheads hlevels hhwm) _ _ rfl).1 _ _ e
  have hsize : m.buffer.length = buf.length := hm.length
  have hpos : m.position = width (f.image (u32 cap) (List.range f.hwm)).fields := hm.position
  have hbody : m.buffer.take m.position = bytes (f.image (u32 cap) (List.range f.hwm)).fields := by
    have hprefix := List.prefix_iff_eq_take.mp hm.wrote
    rw [bytes_length] at hprefix
    rw [hpos]
    exact hprefix.symm
  have hseal : sealImage crc32c m = .ok (m.position + 4) { m with
      buffer := Bytes.put m.buffer m.position
        (le 4 (crc32c (bytes (f.image (u32 cap) (List.range f.hwm)).fields)).toNat) } := by
    rw [sealImage, get_bind]
    dsimp only
    rw [if_neg (by omega), hbody]
    exact bind_ok (Flyweight.putU32_ok (by omega)) _
  refine ⟨Bytes.put m.buffer m.position
    (le 4 (crc32c (bytes (f.image (u32 cap) (List.range f.hwm)).fields)).toNat), ?_, ?_⟩
  · rw [encode, (bind_ok e' _).trans hseal, hlen, hpos]
  · rw [Bytes.put, hbody]
    exact List.take_left' (by rw [Encoder.sealed])

end Book

/-- After any well-formed calls the Java encoder and the Rust encoder write one image, as long as
no more than 65534 slots are in use. -/
theorem images_match {cfg : SmrConfig} {ops : List Op} (hm : om.Lawful) (hg : cfg.grid.Ok)
    (hcap : cfg.cap ≤ 536870912) (hwf : WellFormed cfg [] ops) (hfit : Fits cfg [] ops)
    (crc32c : List UInt8 → UInt32) :
    ∃ j₀ j b, newBook om cfg = .ok j₀ ∧ Book.run ops j₀ = .ok () j ∧
      HiPerf.Book.run ops (HiPerf.Book.new cfg) = .ok () b ∧
      (b.hwm ≤ 65534 → ∃ image : List UInt8, ∀ buf, image.length ≤ buf.length →
        (∃ data, Book.encode crc32c j buf = .ok (data, image.length) ∧
          data.take image.length = image) ∧
        HiPerf.Book.encode crc32c b buf =
          .ok (image ++ buf.drop image.length, image.length)) := by
  have hholds := HiPerf.Book.new_holds hg
  obtain ⟨hrun, -⟩ := Book.run_ready (f := (HiPerf.Book.new cfg).view) hm hcap rfl hholds
    (hwf.ready hg hfit)
  obtain ⟨hrust, hend, -⟩ := HiPerf.Book.run_holds hg rfl hholds hwf hfit
  obtain ⟨j₀, e₀, hnew⟩ := Book.newBook_shows hm cfg hcap
  obtain ⟨j, e, hj⟩ := hrun _ hnew
  obtain ⟨b, e', hb⟩ := hrust _ (HiPerf.Book.new_shows cfg)
  have hshape := HiPerf.Book.run_shaped ops (HiPerf.Book.new cfg)
  rw [last_ok e'] at hshape
  have hnarrow := (HiPerf.Book.new_narrow cfg).of_shape hshape
  obtain ⟨q, fl, hrep, hfl, hle⟩ := hend
  refine ⟨j₀, j, b, e₀, e, e', ?_⟩
  intro hhwm
  have hmark := hb.hwm_eq
  have hrecs := Go.Snapshot.levelRecs_length_le hrep hfl
  have himage := hb.image_eq hnarrow hrep hle (by omega)
  obtain ⟨-, hencode⟩ := HiPerf.Book.encode_whole hb hrep hle (by omega) crc32c
  rw [himage] at hencode
  refine ⟨_, fun buf hbuf => ⟨?_, hencode buf hbuf⟩⟩
  exact Book.encode_ok crc32c hj (fun x t => (HiPerf.Book.level_plain hrep x t).head) (by omega)
    (by omega) hbuf

theorem images_match_smallRun : ∃ j₀ j b,
      newBook (referenceObjects Int) smallBook = .ok j₀ ∧ Book.run smallRun j₀ = .ok () j ∧
      HiPerf.Book.run smallRun (HiPerf.Book.new smallBook) = .ok () b ∧
      (b.hwm ≤ 65534 → ∃ image : List UInt8, ∀ buf, image.length ≤ buf.length →
        (∃ data, Book.encode Bytes.crc32c j buf = .ok (data, image.length) ∧
          data.take image.length = image) ∧
        HiPerf.Book.encode Bytes.crc32c b buf =
          .ok (image ++ buf.drop image.length, image.length)) :=
  images_match (referenceObjects_lawful Int) smallBook_ok (by decide) smallRun_wellFormed
    smallRun_fits Bytes.crc32c

end HiPerf.Java
