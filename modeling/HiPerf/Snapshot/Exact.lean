import HiPerf.Snapshot.FlatImage
import HiPerf.Snapshot.Loss

/-!
An image takes up its own bytes and no others: what the buffer held before is gone
from them, and what lies behind them stays.
-/

namespace HiPerf

open Machine Exec Bytes

namespace Encoder

variable {k : Nat} {rest : List UInt8}

/-- The same encoder over a buffer that goes on with `rest` behind its `k` bytes. -/
def Longer (k : Nat) (rest : List UInt8) (e e' : Encoder) : Prop :=
  e.data.length = k ∧ e' = { e with data := e.data ++ rest }

theorem put_append {buf bs : List UInt8} {i : Nat} (h : i + bs.length ≤ buf.length)
    (rest : List UInt8) : Bytes.put (buf ++ rest) i bs = Bytes.put buf i bs ++ rest := by
  rw [Bytes.put, Bytes.put, List.take_append_of_le_length (by omega),
    List.drop_append_of_le_length h]
  simp only [List.append_assoc]

theorem put_longer (i : Nat) (bs : List UInt8) :
    Lockstep False (Longer k rest) (put i bs) (put i bs) := by
  rintro e _ ⟨hk, rfl⟩
  refine ⟨fun a e' h => ?_, False.elim⟩
  by_cases hin : i + bs.length ≤ USIZE_MAX ∧ i + bs.length ≤ e.data.length
  · rw [put, if_pos hin] at h
    cases h
    have hlong : i + bs.length ≤ (e.data ++ rest).length := by
      rw [List.length_append]
      omega
    exact ⟨{ e with data := Bytes.put (e.data ++ rest) i bs }, if_pos ⟨hin.1, hlong⟩,
      (put_length hin.2).trans hk, by simp only [put_append hin.2]⟩
  · rw [put, if_neg hin] at h
    cases h

theorem putAll_longer (i : Nat) (fs : List Field) :
    Lockstep False (Longer k rest) (putAll i fs) (putAll i fs) := by
  induction fs generalizing i with
  | nil => exact Lockstep.pure _
  | cons f fs ih => exact (put_longer i _).bind fun _ => ih _

theorem setLimit_longer (limit : Nat) :
    Lockstep False (Longer k rest) (setLimit limit) (setLimit limit) :=
  Lockstep.modify fun e e' h => by
    obtain ⟨hk, rfl⟩ := h
    exact ⟨hk, rfl⟩

theorem groupWrap_longer (size count : Nat) :
    Lockstep False (Longer k rest) (groupWrap size count) (groupWrap size count) := by
  refine Lockstep.get_bind fun e e' h => ?_
  obtain ⟨-, rfl⟩ := h
  refine (setLimit_longer _).bind fun _ => (put_longer _ _).bind fun _ =>
    (put_longer _ _).bind fun _ => Lockstep.modify fun e e' h => ?_
  obtain ⟨hk, rfl⟩ := h
  exact ⟨hk, rfl⟩

theorem advance_longer (size : Nat) :
    Lockstep False (Longer k rest) (advance size) (advance size) := by
  refine Lockstep.get_bind fun e e' h => ?_
  obtain ⟨-, rfl⟩ := h
  refine Lockstep.ite Iff.rfl (fun _ => Lockstep.pure _) fun _ => Lockstep.modify fun e e' h => ?_
  obtain ⟨hk, rfl⟩ := h
  exact ⟨hk, rfl⟩

theorem block_longer (size : Nat) (fs : List Field) : Lockstep False (Longer k rest)
    (advance size >>= fun _ => get >>= fun e => putAll e.offset fs)
    (advance size >>= fun _ => get >>= fun e => putAll e.offset fs) := by
  refine (advance_longer size).bind fun _ => Lockstep.get_bind fun e e' h => ?_
  obtain ⟨-, rfl⟩ := h
  exact putAll_longer _ _

theorem read_longer {α : Type} (a : Option α) :
    Lockstep False (Longer k rest) (read a) (read a) := by
  cases a with
  | none => exact Lockstep.throw _ _
  | some a => exact Lockstep.pure a

theorem countLane_longer (level : Nat → Option PriceLevel) (t n c : Nat) :
    Lockstep False (Longer k rest) (countLane level t n c) (countLane level t n c) := by
  induction n generalizing t c with
  | zero => exact Lockstep.pure _
  | succ n ih => exact (read_longer _).bind fun _ => ih _ _

theorem putLane_longer (side : Nat) (level : Nat → Option PriceLevel) (t n : Nat) :
    Lockstep False (Longer k rest) (putLane side level t n) (putLane side level t n) := by
  induction n generalizing t with
  | zero => exact Lockstep.pure _
  | succ n ih =>
    refine (read_longer _).bind fun lvl => Lockstep.ite Iff.rfl (fun _ => ih _) fun _ => ?_
    rw [putLevel_eq]
    exact (block_longer _ _).bind fun _ => ih _

theorem putOrders_longer (order : Nat → Option Order) (slot n : Nat) :
    Lockstep False (Longer k rest) (putOrders order slot n) (putOrders order slot n) := by
  induction n generalizing slot with
  | zero => exact Lockstep.pure _
  | succ n ih =>
    refine (read_longer _).bind fun o => ?_
    rw [putOrder_eq]
    exact (block_longer _ _).bind fun _ => ih _

theorem message_longer (v : Source) :
    Lockstep False (Longer k rest) (message v) (message v) := by
  unfold message
  rw [header_eq, scalars_eq]
  refine (countLane_longer _ _ _ _).bind fun _ => (countLane_longer _ _ _ _).bind fun _ =>
    (setLimit_longer _).bind fun _ => (putAll_longer _ _).bind fun _ =>
    (putAll_longer _ _).bind fun _ => (groupWrap_longer _ _).bind fun _ =>
    (putLane_longer _ _ _ _).bind fun _ => (putLane_longer _ _ _ _).bind fun _ =>
    (groupWrap_longer _ _).bind fun _ => (putOrders_longer _ _ _).bind fun _ =>
    Lockstep.get_bind fun e e' h => ?_
  obtain ⟨-, rfl⟩ := h
  exact Lockstep.pure _

theorem trailer_longer (crc32c : List UInt8 → UInt32) (n : Nat) :
    Lockstep False (Longer k rest) (trailer crc32c n) (trailer crc32c n) := by
  refine Lockstep.get_bind fun e e' h => ?_
  obtain ⟨-, rfl⟩ := h
  by_cases hlt : e.data.length < n
  · rw [if_pos hlt]
    refine fun s t _ => ⟨fun a s' h => ?_, False.elim⟩
    cases h
  · have hge : ¬ (e.data ++ rest).length < n := by
      rw [List.length_append]
      omega
    rw [if_neg hlt, if_neg hge, List.take_append_of_le_length (by omega)]
    exact (put_longer _ _).bind fun _ => Lockstep.pure _

/-- Bytes behind the buffer do not matter and are not touched. -/
theorem encode_longer {crc32c : List UInt8 → UInt32} {v : Source} {buf data : List UInt8} {len : Nat}
    (h : encode crc32c v buf = .ok (data, len)) (rest : List UInt8) :
    encode crc32c v (buf ++ rest) = .ok (data ++ rest, len) ∧ data.length = buf.length := by
  cases hrun : (message v >>= trailer crc32c) ⟨buf, 0, 0, 0, 0⟩ with
  | error p e => rw [encode, hrun] at h; cases h
  | ok n e =>
    rw [encode, hrun] at h
    cases h
    obtain ⟨e', hrun', hk, rfl⟩ := ((message_longer v).bind fun n => trailer_longer crc32c n).forth
      (show Longer buf.length rest ⟨buf, 0, 0, 0, 0⟩ ⟨buf ++ rest, 0, 0, 0, 0⟩ from ⟨rfl, rfl⟩) hrun
    exact ⟨by rw [encode, hrun'], hk⟩

end Encoder

theorem Encoder.sealed_length (crc32c : List UInt8 → UInt32) (m : Image) :
    (Encoder.sealed crc32c m).length = width m.fields + 4 := by
  rw [Encoder.sealed, List.length_append, bytes_length, le_length]

/-- A book whose groups have room for all their blocks. -/
theorem Encoder.encode_exact (crc32c : List UInt8 → UInt32) {v : Source} (hv : v.Readable)
    (hg : NoEmptyGroup v) (hroom : v.room = width v.image.fields + 4) {buf : List UInt8}
    (hbuf : v.room ≤ buf.length) :
    encode crc32c v buf = .ok (sealed crc32c v.image ++ buf.drop v.room, v.room) := by
  have hlen : (buf.take v.room).length = v.room := by
    rw [List.length_take]
    omega
  obtain ⟨data, e, hseal⟩ := encode_ok crc32c hv hg (Nat.le_of_eq hlen.symm)
  obtain ⟨e', hdata⟩ := encode_longer e (buf.drop v.room)
  rw [List.take_append_drop] at e'
  have hall : data = sealed crc32c v.image := by
    rw [← hseal, ← hroom, ← hlen, ← hdata, List.take_length]
  rw [e', hall, hroom]

namespace Book

variable {cfg : SmrConfig} {b : Book}

/-- A lane has no more occupied levels than levels. -/
theorem occupied_le (hn : b.Narrow) : b.occupied ≤ 2 * b.nLevels := by
  have hlane : ∀ ls : Array PriceLevel, ls.toList.countP (·.head ≠ NIL) ≤ ls.size :=
    fun ls => List.countP_le_length
  have hbids := hlane b.bids
  have hasks := hlane b.asks
  rw [hn.bids] at hbids
  rw [hn.asks] at hasks
  rw [occupied]
  omega

/-- A book with no more slots in use than a group can count is written as exactly
its image. -/
theorem encode_whole {cap : Nat} {f : Flat} {L : Ledger} {q : Lane → Nat → List Nat}
    (hf : b.Shows cap f) (hrep : Rep f L q) (hle : f.hwm ≤ cap) (hhwm : b.hwm ≤ 65535)
    (crc32c : List UInt8 → UInt32) :
    (Encoder.sealed crc32c b.source.image).length = 60 + 25 * b.occupied + 45 * b.hwm ∧
      ∀ buf, (Encoder.sealed crc32c b.source.image).length ≤ buf.length →
        b.encode crc32c buf = .ok (Encoder.sealed crc32c b.source.image ++
          buf.drop (Encoder.sealed crc32c b.source.image).length,
            (Encoder.sealed crc32c b.source.image).length) := by
  rw [hf.hwm_eq] at hhwm
  obtain ⟨hlevels, horders⟩ := image_whole hf hrep hhwm
  have hwidth : width b.source.image.fields = 56 + 25 * b.occupied + 45 * b.hwm := by
    rw [Image.width_fields, hlevels, horders, levelRecs_length, hf.hwm_eq, Source.orderRecs,
      List.length_map, List.length_range']
    rfl
  have hroom : b.source.room = width b.source.image.fields + 4 := by
    rw [hwidth, Source.room, levelRecs_length, hwm_source hf, hf.hwm_eq]
    simp only [LEVELS_BLOCK, ORDERS_BLOCK]
    omega
  have hlen := Encoder.sealed_length crc32c b.source.image
  refine ⟨by omega, fun buf hbuf => ?_⟩
  rw [hlen, ← hroom] at hbuf ⊢
  exact Encoder.encode_exact crc32c (source_readable hf hrep hle) (noEmptyGroup hf hrep hhwm) hroom hbuf

/-- The buffer of the benchmarks holds the image. -/
theorem image_fits (hg : cfg.grid.Ok) {ops : List Op} (hwf : WellFormed cfg [] ops)
    (hslots : SlotsFit [] ops) (hrun : run ops (new cfg) = .ok () b) :
    60 + 25 * b.occupied + 45 * b.hwm ≤ 64 + cfg.cap * 64 + cfg.levels * 2 * 32 := by
  obtain ⟨f, hf, ⟨q, fl, hrep, -, hle⟩, hgrid, hnarrow⟩ := reached hg hwf hslots hrun
  have hmost := occupied_le hnarrow
  have hn : b.nLevels = cfg.levels := by
    have e : b.nLevels = f.grid.nLevels := by rw [← hf.view]; rfl
    rw [e, hgrid]
    rfl
  have hmark : b.hwm ≤ cfg.cap := hf.hwm_eq ▸ hle
  omega

/-- A book with no more slots in use than a group can count is written as exactly
its image, which the buffer of the benchmarks holds. -/
theorem image_exact (hg : cfg.grid.Ok) {ops : List Op} (hwf : WellFormed cfg [] ops)
    (hslots : SlotsFit [] ops) (hrun : run ops (new cfg) = .ok () b) (hhwm : b.hwm ≤ 65535)
    (crc32c : List UInt8 → UInt32) :
    ∃ image : List UInt8, image.length = 60 + 25 * b.occupied + 45 * b.hwm ∧
      image.length ≤ 64 + cfg.cap * 64 + cfg.levels * 2 * 32 ∧
      ∀ buf, image.length ≤ buf.length →
        b.encode crc32c buf = .ok (image ++ buf.drop image.length, image.length) := by
  obtain ⟨f, hf, ⟨q, fl, hrep, -, hle⟩, -⟩ := reached hg hwf hslots hrun
  obtain ⟨hlen, hencode⟩ := encode_whole hf hrep hle hhwm crc32c
  have hroom := image_fits hg hwf hslots hrun
  exact ⟨Encoder.sealed crc32c b.source.image, hlen, hlen ▸ hroom, hencode⟩

theorem image_exact_smallRun : ∃ b, run smallRun (new smallBook) = .ok () b ∧
    ∃ image : List UInt8, image.length = 60 + 25 * b.occupied + 45 * b.hwm ∧
      image.length ≤ 64 + smallBook.cap * 64 + smallBook.levels * 2 * 32 ∧
      ∀ buf, image.length ≤ buf.length →
        b.encode crc32c buf = .ok (image ++ buf.drop image.length, image.length) := by
  obtain ⟨hrun, -, -⟩ := run_holds smallBook_ok rfl (new_holds smallBook_ok) smallRun_wellFormed
    smallRun_fits
  obtain ⟨b, e, -⟩ := hrun _ (new_shows smallBook)
  have hslots := smallRun_wellFormed.slotsFit (by decide)
  have hhwm : b.hwm ≤ 65535 := by
    obtain ⟨f, hf, ⟨q, fl, -, -, hle⟩, -⟩ := reached smallBook_ok smallRun_wellFormed hslots e
    exact hf.hwm_eq ▸ Nat.le_trans hle (by decide)
  exact ⟨b, e, image_exact smallBook_ok smallRun_wellFormed hslots e hhwm crc32c⟩

/-- A pool with more slots than slot numbers, over a ladder with 65536 levels in all. -/
def deepPool : SmrConfig := ⟨4294967296, 32768, 1, 0, 1, 1, 100⟩

theorem deepPool_ok : deepPool.grid.Ok := ⟨by decide, by decide, by decide, by decide, by decide⟩

def roundResting (i : Nat) : Resting := ⟨i + 1, (i / 2 % 32768 : Nat), 1, 0, i % 2⟩

/-- `n` orders, each on the next level, a bid and an ask in turn. -/
@[irreducible] def rounds (n : Nat) : List Op :=
  (List.range n).map fun i : Nat => .insert (i + 1) (i / 2 % 32768 : Nat) 1 (i % 2)

theorem rounds_zero : rounds 0 = [] := by simp [rounds]

theorem rounds_succ (n : Nat) :
    rounds (n + 1) = rounds n ++ [.insert (n + 1) (n / 2 % 32768 : Nat) 1 (n % 2)] := by
  simp [rounds, List.range_succ]

theorem after_rounds (n : Nat) :
    Ledger.after [] (rounds n) = (List.range n).map roundResting := by
  induction n with
  | zero => rw [rounds_zero]; rfl
  | succ n ih =>
    rw [rounds_succ, Ledger.after_append, ih, List.range_succ, List.map_append]
    rfl

theorem after_rounds_length (n : Nat) : (Ledger.after [] (rounds n)).length = n := by
  rw [after_rounds, List.length_map, List.length_range]

theorem rounds_next_wellFormed {n : Nat} (hn : n < 4294967296) :
    (Op.insert (n + 1) (n / 2 % 32768 : Nat) 1 (n % 2)).WellFormed deepPool
      (Ledger.after [] (rounds n)) := by
  have hq := @Ledger.levelQty_le (Ledger.after [] (rounds n)) 1 (by omega)
    (fun r hr => by
      rw [after_rounds] at hr
      obtain ⟨i, -, rfl⟩ := List.mem_map.mp hr
      exact Int.le_refl 1)
    deepPool.grid (laneOf (n % 2)) (deepPool.grid.tickOf (n / 2 % 32768 : Nat))
  have hlen := after_rounds_length n
  have hfresh : ((n : Int) + 1) ∉ (Ledger.after [] (rounds n)).ids := by
    simp only [after_rounds, Ledger.ids, List.map_map, List.mem_map, List.mem_range,
      Function.comp_apply, roundResting, not_exists, not_and]
    omega
  rw [hlen] at hq
  refine ⟨⟨⟨by omega, by omega⟩, ⟨by omega, by omega⟩, by decide⟩, by omega, hfresh,
    ⟨n / 2 % 32768, Nat.mod_lt _ (by decide), ?_⟩, by omega, by omega, ?_, by omega⟩
  · simp only [deepPool, Int.zero_add, Int.mul_one]
  · rw [hlen]
    exact hn

theorem rounds_wellFormed {n : Nat} (hn : n ≤ 4294967296) : WellFormed deepPool [] (rounds n) := by
  induction n with
  | zero => rw [rounds_zero]; trivial
  | succ n ih =>
    rw [rounds_succ, wellFormed_concat]
    exact ⟨ih (by omega), rounds_next_wellFormed hn⟩

theorem rounds_fits {n : Nat} (hn : n ≤ NIL) : Fits deepPool [] (rounds n) := by
  induction n with
  | zero => rw [rounds_zero]; trivial
  | succ n ih =>
    rw [rounds_succ, fits_concat]
    refine ⟨ih (by omega), ⟨?_, ?_⟩, ?_⟩
    · simp only [deepPool]
      omega
    · simp only [deepPool]
      omega
    · rw [after_rounds_length]
      exact hn

theorem deepPool_tickOf {t : Nat} (ht : t < 32768) : deepPool.grid.tickOf (t : Int) = t := by
  refine Grid.tickOf_onGrid deepPool_ok ht ?_ ?_
  · simp only [deepPool, SmrConfig.grid, Int.zero_add, Int.mul_one]
  · rw [show deepPool.grid.priceMin = 0 from rfl, Int.sub_zero]
    exact ⟨by omega, by omega⟩

/-- Every level of both lanes is occupied long before the slot numbers run out. -/
theorem rounds_occupied (x : Lane) {t : Nat} (ht : t < 32768) :
    (Ledger.after [] (rounds NIL)).atLevel deepPool.grid x t ≠ [] := by
  have hmem : ∀ i < NIL, (roundResting i) ∈ Ledger.after [] (rounds NIL) := by
    intro i hi
    rw [after_rounds]
    exact List.mem_map.mpr ⟨i, List.mem_range.mpr hi, rfl⟩
  have hon : ∀ i < NIL, laneOf (i % 2) = x → i / 2 % 32768 = t →
      roundResting i ∈ (Ledger.after [] (rounds NIL)).atLevel deepPool.grid x t := by
    intro i hi hx hu
    refine List.mem_filter.mpr ⟨hmem i hi, decide_eq_true ⟨hx, ?_⟩⟩
    rw [roundResting, deepPool_tickOf (Nat.mod_lt _ (by decide)), hu]
  have hlt : 65536 < NIL := by decide
  cases x with
  | bid =>
    refine List.ne_nil_of_mem (hon (2 * t) (by omega) ?_ (by omega))
    rw [Nat.mul_mod_right]
    rfl
  | ask =>
    refine List.ne_nil_of_mem (hon (2 * t + 1) (by omega) ?_ (by omega))
    rw [Nat.mul_add_mod]
    rfl

/-- An order that joins an occupied level leaves every head where it is. -/
theorem insert_head {f : Flat} {r : Resting}
    (h : (f.lvl (laneOf r.side) (f.grid.tickOf r.price)).tail ≠ NIL) (x : Lane) (t : Nat) :
    ((f.insert r).lvl x t).head = (f.lvl x t).head := by
  have hplace : (f.insert r).lvl x t = (f.alloc.place f.nextSlot r).lvl x t := rfl
  by_cases hx : x = laneOf r.side ∧ t = f.alloc.grid.tickOf r.price
  · obtain ⟨rfl, rfl⟩ := hx
    rw [alloc_grid] at hplace ⊢
    rw [hplace]
    simp only [Flat.place, Flat.linkNext, Flat.setLvl, Flat.setOrd, alloc_lvl, alloc_grid, and_self,
      if_true, if_neg h]
  · rw [hplace, place_lvl_ne _ _ _ hx, alloc_lvl]

/-- A ladder with every level occupied. -/
theorem levelRecs_full {f : Flat} (h : ∀ x, ∀ t < f.grid.nLevels, (f.lvl x t).head ≠ NIL) :
    f.levelRecs.length = 2 * f.grid.nLevels := by
  have hlane : ∀ side, (f.laneRecs side).length = f.grid.nLevels := by
    intro side
    rw [Flat.laneRecs, List.length_filterMap_eq_countP, List.countP_eq_length.mpr ?_,
      List.length_range]
    intro t ht
    rw [if_neg (h _ t (List.mem_range.mp ht))]
    rfl
  rw [Flat.levelRecs, List.length_append, hlane, hlane]
  omega

/-- With as many orders as slot numbers the mark is 0 again, while each of 65536
levels is occupied: the group of the levels declares none, and the encoder stops. -/
theorem rounds_stop : deepPool.grid.Ok ∧ WellFormed deepPool [] (rounds (NIL + 1)) ∧
    ∃ b, run (rounds (NIL + 1)) (new deepPool) = .ok () b ∧ b.hwm = 0 ∧ b.occupied = 65536 ∧
      ∀ crc32c buf, ∃ p, b.encode crc32c buf = .error p := by
  obtain ⟨f, b, hholds, hgrid, hhwm, hfree, e, -, hlast⟩ :=
    last_slot deepPool_ok (by decide) (rounds_wellFormed (by decide)) (rounds_fits (Nat.le_refl NIL))
      (after_rounds_length NIL)
  obtain ⟨q, fl, hrep, -, -⟩ := hholds
  have htick : deepPool.grid.tickOf (NIL / 2 % 32768 : Nat) = NIL / 2 % 32768 :=
    deepPool_tickOf (Nat.mod_lt _ (by decide))
  obtain ⟨b', e', hb⟩ := hlast (NIL + 1) (NIL / 2 % 32768 : Nat) 1 (NIL % 2)
    (by rw [htick]; exact Nat.mod_lt _ (by decide))
  have hrun : run (rounds (NIL + 1)) (new deepPool) = .ok () b' := by
    rw [rounds_succ]
    exact runAll_append_eq_ok.mpr ⟨b, e, runAll_cons_eq_ok.mpr ⟨b', e', rfl⟩⟩
  have hocc : ∀ x, ∀ t < 32768, (f.lvl x t).head ≠ NIL := fun x t ht =>
    (hrep.queues.occupied_iff x t).mpr (by rw [hgrid]; exact rounds_occupied x ht)
  set r : Resting := ⟨NIL + 1, (NIL / 2 % 32768 : Nat), 1, 0, NIL % 2⟩ with hr
  have hjoin : (f.lvl (laneOf r.side) (f.grid.tickOf r.price)).tail ≠ NIL := by
    have ht : f.grid.tickOf r.price < 32768 := by
      rw [hgrid, hr, htick]
      exact Nat.mod_lt _ (by decide)
    have hq := (hrep.queues (laneOf r.side) (f.grid.tickOf r.price)).fifo
    exact fun h => hocc _ _ ht (hq.head_eq_nil_iff.mpr (hq.tail_eq_nil_iff.mp h))
  have hnl : (f.insert r).grid.nLevels = 32768 := by
    have hg : (f.insert r).grid = f.grid := alloc_grid f
    rw [hg, hgrid]
    rfl
  have hmark : b'.hwm = 0 := hb.hwm_eq.trans (insert_wraps hhwm hfree _)
  have hrecs : b'.source.levelRecs.length = 65536 := by
    rw [hb.levelRecs_eq (CowBook.run_narrow hrun), levelRecs_full, hnl]
    rw [hnl]
    exact fun x t ht => insert_head hjoin x t ▸ hocc x t ht
  have hsource : b'.source.scalars.hwm = 0 := hmark
  refine ⟨deepPool_ok, rounds_wellFormed (by decide), b', hrun, hmark,
    (levelRecs_length b').symm.trans hrecs, fun crc32c buf => ?_⟩
  refine Encoder.encode_stops crc32c ⟨fun side _ t ht => ?_, fun side _ t _ => rfl, fun s hs => ?_, ?_⟩
    (fun h => h.1 (fun h0 => by rw [h0] at hrecs; cases hrecs) (by rw [hrecs]; decide)) buf
  · exact Option.isSome_iff_exists.mpr ⟨_, Array.getElem?_eq_getElem ht⟩
  · omega
  · rw [Source.room, hrecs, hsource]
    decide

end Book

end HiPerf
