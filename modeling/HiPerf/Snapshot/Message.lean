import HiPerf.Snapshot.Image

/-!
What comes of encoding: the image, whenever no group is asked for a block it has
no room for. A group that declared no block at all stops the encoder at its
first block.
-/

namespace HiPerf

open Machine Exec Bytes

variable {v : Source} {room : Nat}

namespace Source

theorem orderRecs_succ (slot n : Nat) : v.orderRecs slot (n + 1) =
    (slot, (v.order slot).getD Order.zero) :: v.orderRecs (slot + 1) n := by
  simp [orderRecs, List.range'_succ]

theorem laneRecs_succ {side t : Nat} {l : PriceLevel} (h : v.level side t = some l) (n : Nat) :
    v.laneRecs side t (n + 1) =
      if l.head = NIL then v.laneRecs side (t + 1) n
      else (side, t, l) :: v.laneRecs side (t + 1) n := by
  rw [laneRecs, List.range'_succ, List.filterMap_cons, h]
  split <;> simp_all [laneRecs]

end Source

namespace Encoder

/-- Records put into a group of blocks, one after the other. -/
theorem group_runs {β : Type} {put : β → Run Encoder Unit} {fields : β → List Field} {size : Nat}
    (hput : ∀ b, put b =
      (advance size >>= fun _ => get >>= fun e => putAll e.offset (fields b)))
    (hsize : ∀ b, width (fields b) = size) {base : List Field} {count : Nat} (rs blocks : List β)
    (hcount : blocks.length ≤ count) (hpos : rs ≠ [] → 0 < count) (hmax : count < 65536)
    (hroom : width base + size * (rs.foldl (push count) blocks).length ≤ room) :
    Runs (Wrote room) (Exec.runAll put rs) (inGroup base size count (blocks.map fields)) ()
      (inGroup base size count ((rs.foldl (push count) blocks).map fields)) := by
  induction rs generalizing blocks with
  | nil => exact Runs.pure ()
  | cons r rs ih =>
    have hc := hpos (List.cons_ne_nil _ _)
    rw [List.foldl_cons] at hroom ⊢
    have hle := push_le_count hc r hcount
    have hmono := (foldl_push_length hc rs _ hle).1
    have hblock : Runs (Wrote room) (put r) (inGroup base size count (blocks.map fields)) ()
        (inGroup base size count ((push count blocks r).map fields)) := by
      rw [hput, push_map]
      refine block_runs (fun b hb => ?_) (hsize _) (by simpa using hcount) hc hmax ?_
      · obtain ⟨r, -, rfl⟩ := List.mem_map.mp hb
        exact hsize r
      · rw [← push_map, List.length_map]
        exact le_trans (by gcongr) hroom
    exact hblock.bind (ih _ hle (fun _ => hc) hroom)

theorem putLevel_record (r : LevelRec) : putLevel r.1 r.2.1 r.2.2 =
    (advance LEVELS_BLOCK >>= fun _ => get >>= fun e => putAll e.offset (levelFields r)) :=
  putLevel_eq _ _ _

theorem putOrder_record (r : OrderRec) : putOrder r.1 r.2 =
    (advance ORDERS_BLOCK >>= fun _ => get >>= fun e => putAll e.offset (orderFields r)) :=
  putOrder_eq _ _

/-- The loop over the slots writes their records. -/
theorem putOrders_eq {slot n : Nat} (hread : ∀ s, slot ≤ s → s < slot + n → (v.order s).isSome) :
    putOrders v.order slot n =
      Exec.runAll (fun r : OrderRec => putOrder r.1 r.2) (v.orderRecs slot n) := by
  induction n generalizing slot with
  | zero => rfl
  | succ n ih =>
    obtain ⟨o, ho⟩ := Option.isSome_iff_exists.mp (hread slot (Nat.le_refl _) (by omega))
    rw [Source.orderRecs_succ, putOrders, ho, ih fun s h₁ h₂ => hread s (by omega) (by omega)]
    rfl

/-- The loop over the levels of a lane writes the records of the occupied ones. -/
theorem putLane_eq {side t n : Nat} (hread : ∀ u, t ≤ u → u < t + n → (v.level side u).isSome) :
    putLane side (v.level side) t n =
      Exec.runAll (fun r : LevelRec => putLevel r.1 r.2.1 r.2.2) (v.laneRecs side t n) := by
  induction n generalizing t with
  | zero => rfl
  | succ n ih =>
    obtain ⟨l, hl⟩ := Option.isSome_iff_exists.mp (hread t (Nat.le_refl _) (by omega))
    have hrest := @ih (t + 1) fun u h₁ h₂ => hread u (by omega) (by omega)
    rw [Source.laneRecs_succ hl, putLane, hl, hrest]
    simp only [read, pure_bind]
    split
    · rfl
    · rfl

theorem countLane_run {side t n c : Nat} (hc : c < 65536)
    (hread : ∀ u, t ≤ u → u < t + n → (v.level side u).isSome)
    (hsame : ∀ u, t ≤ u → u < t + n → v.countLevel side u = v.level side u) (e : Encoder) :
    countLane (v.countLevel side) t n c e = .ok (u16 (c + (v.laneRecs side t n).length)) e := by
  induction n generalizing t c with
  | zero => simp [countLane, Source.laneRecs, u16, Nat.mod_eq_of_lt hc]
  | succ n ih =>
    obtain ⟨l, hl⟩ := Option.isSome_iff_exists.mp (hread t (Nat.le_refl _) (by omega))
    have hrest := fun (c : Nat) (hc : c < 65536) => ih (t := t + 1) hc
      (fun u h₁ h₂ => hread u (by omega) (by omega)) fun u h₁ h₂ => hsame u (by omega) (by omega)
    rw [countLane, hsame t (Nat.le_refl _) (by omega), hl, Source.laneRecs_succ hl]
    simp only [read, pure_bind]
    by_cases hnil : l.head = NIL
    · rw [if_pos hnil, if_neg (not_not.mpr hnil)]
      exact hrest c hc
    · rw [if_neg hnil, if_pos hnil, hrest (u16 (c + 1)) (u16_lt _), List.length_cons]
      congr 1
      unfold u16
      omega

/-- No group is asked for a block without having declared one. -/
def NoEmptyGroup (v : Source) : Prop :=
  (v.levelRecs ≠ [] → u16 v.levelRecs.length ≠ 0) ∧ (v.scalars.hwm ≠ 0 → u16 v.scalars.hwm ≠ 0)

/-- Before anything is written. -/
def start : Written := ⟨[], 0, 0, 0, 0⟩

theorem countLevels_runs (hv : v.Readable) {β : Type} {k : Nat → Run Encoder β} {b : β}
    {t t' : Written} (hk : Runs (Wrote room) (k (u16 v.levelRecs.length)) t b t') :
    Runs (Wrote room) (do
      let levelCount ← countLane (v.countLevel 0) 0 (v.width 0) 0
      let levelCount ← countLane (v.countLevel 1) 0 (v.width 1) levelCount
      k levelCount) t b t' := by
  have hlane : ∀ side ≤ 1, ∀ c < 65536, Runs (Wrote room)
      (countLane (v.countLevel side) 0 (v.width side) c) t
      (u16 (c + (v.laneRecs side 0 (v.width side)).length)) t := fun side hs c hc e he =>
    ⟨e, countLane_run hc (fun u _ h => hv.level side hs u (by omega))
      (fun u _ h => hv.count side hs u (by omega)) e, he⟩
  refine (hlane 0 (by omega) 0 (by omega)).bind ((hlane 1 (by omega) _ (u16_lt _)).bind ?_)
  convert hk using 2
  rw [Source.levelRecs, List.length_append]
  unfold u16
  omega

theorem levels_length_le (h : v.levelRecs ≠ [] → u16 v.levelRecs.length ≠ 0) :
    ((v.laneRecs 0 0 (v.width 0)).foldl (push (u16 v.levelRecs.length)) []).length ≤
        u16 v.levelRecs.length ∧
      ((v.laneRecs 0 0 (v.width 0)).foldl (push (u16 v.levelRecs.length)) []).length ≤
        v.image.levels.length := by
  by_cases hne : v.levelRecs = []
  · have e : v.laneRecs 0 0 (v.width 0) = [] := (List.append_eq_nil_iff.mp hne).1
    simp [e]
  · have hpos := Nat.pos_of_ne_zero (h hne)
    have h₁ := (foldl_push_length hpos (v.laneRecs 0 0 (v.width 0)) [] (Nat.zero_le _)).2
    have h₂ := (foldl_push_length hpos (v.laneRecs 1 0 (v.width 1)) _ h₁).1
    rw [← List.foldl_append] at h₂
    exact ⟨h₁, h₂⟩

theorem levels_runs (hv : v.Readable) (h : v.levelRecs ≠ [] → u16 v.levelRecs.length ≠ 0)
    {base : List Field} (hroom : width base + LEVELS_BLOCK * v.image.levels.length ≤ room)
    {β : Type} {k : Run Encoder β} {b : β} {t' : Written}
    (hk : Runs (Wrote room) k (inGroup base LEVELS_BLOCK (u16 v.levelRecs.length)
      (v.image.levels.map levelFields)) b t') :
    Runs (Wrote room) (do
      putLane 0 (v.level 0) 0 (v.width 0)
      putLane 1 (v.level 1) 0 (v.width 1)
      k) (inGroup base LEVELS_BLOCK (u16 v.levelRecs.length) []) b t' := by
  obtain ⟨hc, hle⟩ := levels_length_le h
  have hpos : ∀ side, v.laneRecs side 0 (v.width side) ≠ [] → side ≤ 1 →
      0 < u16 v.levelRecs.length := by
    intro side hne hs
    refine Nat.pos_of_ne_zero (h fun e => hne ?_)
    obtain ⟨h₀, h₁⟩ := List.append_eq_nil_iff.mp e
    obtain rfl | rfl : side = 0 ∨ side = 1 := by omega
    · exact h₀
    · exact h₁
  have hall : (v.laneRecs 1 0 (v.width 1)).foldl (push (u16 v.levelRecs.length))
      ((v.laneRecs 0 0 (v.width 0)).foldl (push (u16 v.levelRecs.length)) []) = v.image.levels :=
    (List.foldl_append ..).symm
  rw [putLane_eq fun u _ hu => hv.level 0 (by omega) u (by omega),
    putLane_eq fun u _ hu => hv.level 1 (by omega) u (by omega)]
  refine (group_runs putLevel_record levelFields_width _ []
    (Nat.zero_le _) (fun hne => hpos 0 hne (by omega)) (u16_lt _) ?_).bind
      ((group_runs putLevel_record levelFields_width _ _ hc
        (fun hne => hpos 1 hne (by omega)) (u16_lt _) ?_).bind ?_)
  · exact le_trans (by gcongr) hroom
  · rw [hall]; exact hroom
  · rw [hall]; exact hk

/-- The blocks of a group all have its size. -/
theorem inGroup_limit {base : List Field} {size count : Nat} {blocks : List (List Field)}
    (h : ∀ b ∈ blocks, width b = size) :
    (inGroup base size count blocks).limit = width (inGroup base size count blocks).fields := by
  rw [inGroup, width_append, width_flatten _ h]

/-- The groups of an image between its scalars and its end, whatever writes them. -/
theorem layout_runs {m : Image} {putLevels putOrders : Run Encoder Unit}
    (hroom : width m.fields ≤ room)
    (hl : ∀ base, width base + LEVELS_BLOCK * m.levels.length ≤ room →
      Runs (Wrote room) putLevels (inGroup base LEVELS_BLOCK m.levelCount []) ()
        (inGroup base LEVELS_BLOCK m.levelCount (m.levels.map levelFields)))
    (ho : ∀ base, width base + ORDERS_BLOCK * m.orders.length ≤ room →
      Runs (Wrote room) putOrders (inGroup base ORDERS_BLOCK m.orderCount []) ()
        (inGroup base ORDERS_BLOCK m.orderCount (m.orders.map orderFields))) :
    ∃ t, t.fields = m.fields ∧ Runs (Wrote room) (do
      setLimit (HEADER_LEN + SBE_BLOCK_LENGTH)
      header
      scalars m.scalars
      groupWrap LEVELS_BLOCK m.levelCount
      putLevels
      groupWrap ORDERS_BLOCK m.orderCount
      putOrders
      return (← get).limit) start (width m.fields) t := by
  have hwidth := Image.width_fields m
  have hbase : width (headerFields ++ m.scalars.fields) = 48 := rfl
  have hlevelBlocks : ∀ b ∈ m.levels.map levelFields, width b = LEVELS_BLOCK := by
    intro b hb
    obtain ⟨r, -, rfl⟩ := List.mem_map.mp hb
    exact levelFields_width r
  have horderBlocks : ∀ b ∈ m.orders.map orderFields, width b = ORDERS_BLOCK := by
    intro b hb
    obtain ⟨r, -, rfl⟩ := List.mem_map.mp hb
    exact orderFields_width r
  refine ⟨inGroup m.prefixFields ORDERS_BLOCK m.orderCount (m.orders.map orderFields), rfl, ?_⟩
  have hlimit : (inGroup m.prefixFields ORDERS_BLOCK m.orderCount
      (m.orders.map orderFields)).limit = width m.fields := inGroup_limit horderBlocks
  refine (setLimit_runs _).bind ?_
  rw [header_eq, scalars_eq]
  refine (putAll_runs (i := 0) headerFields rfl ?_).bind ?_
  · rw [show width headerFields = 8 from rfl]; omega
  refine (putAll_runs (i := HEADER_LEN) m.scalars.fields rfl ?_).bind ?_
  · rw [show width m.scalars.fields = 40 from rfl, HEADER_LEN]; omega
  refine (groupWrap_runs (by exact hbase.symm) (by simp only [HEADER_LEN, SBE_BLOCK_LENGTH]; omega)).bind ?_
  refine (hl _ ?_).bind ?_
  · simp only [start, List.nil_append, width_append, hbase]
    simp only [groupFields, width_cons, width_nil]
    omega
  refine (groupWrap_runs (inGroup_limit hlevelBlocks) ?_).bind ?_
  · rw [inGroup_limit hlevelBlocks]
    simp only [inGroup, start, List.nil_append, width_append, hbase, width_flatten _ hlevelBlocks,
      List.length_map]
    simp only [groupFields, width_cons, width_nil]
    omega
  refine Runs.bind (ho m.prefixFields ?_) (Runs.get_bind fun e he => ?_)
  · rw [Image.prefixFields_width]; omega
  · rw [he.limit, hlimit]
    exact Runs.pure _

theorem message_runs (hv : v.Readable) (hg : NoEmptyGroup v)
    (hroom : width v.image.fields ≤ room) :
    ∃ t, t.fields = v.image.fields ∧
      Runs (Wrote room) (message v) start (width v.image.fields) t := by
  have hread : ∀ s, 0 ≤ s → s < 0 + v.scalars.hwm → (v.order s).isSome :=
    fun s _ hs => hv.order s (by omega)
  have hrecs : v.orderRecs 0 v.scalars.hwm ≠ [] → v.scalars.hwm ≠ 0 := by
    intro hne h0
    rw [h0] at hne
    exact hne rfl
  obtain ⟨t, ht, hrun⟩ := @layout_runs room v.image
    (putLane 0 (v.level 0) 0 (v.width 0) >>= fun _ => putLane 1 (v.level 1) 0 (v.width 1))
    (putOrders v.order 0 v.scalars.hwm) hroom
    (fun base hbase => by
      have h := levels_runs hv hg.1 hbase (Runs.pure ())
      simp only [bind_pure_unit] at h
      exact h)
    fun base hbase => by
      rw [putOrders_eq hread]
      exact group_runs putOrder_record orderFields_width _ [] (Nat.zero_le _) (fun h => Nat.pos_of_ne_zero (hg.2 (hrecs h)))
        (u16_lt _) hbase
  refine ⟨t, ht, ?_⟩
  simp only [bind_assoc] at hrun
  exact countLevels_runs hv hrun

theorem trailer_runs (crc32c : List UInt8 → UInt32) {t : Written}
    (h : width t.fields + 4 ≤ room) :
    Runs (Wrote room) (trailer crc32c (width t.fields)) t (width t.fields + 4)
      { t with fields := t.fields ++ [(4, (crc32c (bytes t.fields)).toNat)] } := by
  refine Runs.get_bind fun e he => ?_
  have htake : e.data.take (width t.fields) = bytes t.fields := by
    rw [← bytes_length]
    exact (List.prefix_iff_eq_take.mp he.written).symm
  have hlen := he.room_le
  rw [htake]
  refine Runs.ite (fun hlt => absurd hlt (by omega)) fun _ => ?_
  exact (put_runs rfl h).bind (Runs.pure _)

/-- An image, checksum included. -/
def sealed (crc32c : List UInt8 → UInt32) (m : Image) : List UInt8 :=
  bytes m.fields ++ le 4 (crc32c (bytes m.fields)).toNat

/-- With room enough the encoder writes the image and its checksum. -/
theorem encode_ok (crc32c : List UInt8 → UInt32) (hv : v.Readable) (hg : NoEmptyGroup v)
    {buf : List UInt8} (hbuf : v.room ≤ buf.length) :
    ∃ data, encode crc32c v buf = .ok (data, width v.image.fields + 4) ∧
      data.take (width v.image.fields + 4) = sealed crc32c v.image := by
  have hroom := v.image_le_room
  obtain ⟨t, ht, hmsg⟩ := message_runs hv hg (show _ ≤ v.room by omega)
  have htrail := trailer_runs crc32c (show width t.fields + 4 ≤ v.room by rw [ht]; exact hroom)
  rw [ht] at htrail
  obtain ⟨e, hrun, he⟩ := (hmsg.bind htrail) ⟨buf, 0, 0, 0, 0⟩
    ⟨List.nil_prefix, hbuf, hv.room, rfl, rfl, rfl, rfl⟩
  refine ⟨e.data, by rw [encode, hrun], ?_⟩
  have hpre := List.prefix_iff_eq_take.mp he.written
  rw [bytes_length, width_append, bytes_append] at hpre
  simpa only [sealed, bytes_cons, bytes_nil, List.append_nil, width_cons, width_nil, Nat.add_zero]
    using hpre.symm

/-- In a group that declared no blocks and has none. -/
def Stuck (e : Encoder) : Prop := e.count = 0 ∧ e.index = USIZE_MAX ∧ e.offset = USIZE_MAX

theorem groupWrap_stuck {size : Nat} {e e' : Encoder} (h : groupWrap size 0 e = .ok () e') :
    e'.Stuck := by
  simp only [groupWrap, get_bind, bind_eq_ok, setLimit, modify_run] at h
  obtain ⟨_, _, -, _, _, -, _, _, -, h⟩ := h
  cases h
  exact ⟨rfl, rfl, rfl⟩

/-- Its first block stops the encoder. -/
theorem block_stuck {size : Nat} {e e' : Encoder} (h : e.Stuck) {f : Field} {fs : List Field}
    (hf : 0 < f.1) :
    (advance size >>= fun _ => get >>= fun e => putAll e.offset (f :: fs)) e ≠ .ok () e' := by
  intro hrun
  obtain ⟨hc, -, ho⟩ := h
  have hadv : advance size e = .ok () e := by
    simp only [advance, get_bind, ite_run, hc]
    rw [if_pos (Nat.zero_le _)]
    rfl
  rw [bind_ok hadv, get_bind, ho, putAll, bind_eq_ok] at hrun
  obtain ⟨_, _, hput, -⟩ := hrun
  rw [put, if_neg (by rw [le_length]; omega)] at hput
  cases hput

theorem putLane_stuck {side t n : Nat} {e e' : Encoder} (h : e.Stuck)
    (hrun : putLane side (v.level side) t n e = .ok () e') : v.laneRecs side t n = [] ∧ e' = e := by
  induction n generalizing t with
  | zero => cases hrun; exact ⟨rfl, rfl⟩
  | succ n ih =>
    cases hl : v.level side t with
    | none => rw [putLane, hl] at hrun; cases hrun
    | some l =>
      rw [putLane, hl] at hrun
      simp only [read, pure_bind, ite_run] at hrun
      rw [Source.laneRecs_succ hl]
      by_cases hnil : l.head = NIL
      · rw [if_pos hnil] at hrun ⊢
        exact ih hrun
      · rw [if_neg hnil, bind_eq_ok] at hrun
        obtain ⟨_, e₁, hblock, -⟩ := hrun
        rw [putLevel_eq] at hblock
        exact absurd hblock (block_stuck h Nat.zero_lt_one)

theorem putOrders_stuck {slot n : Nat} {e e' : Encoder} (h : e.Stuck)
    (hrun : putOrders v.order slot n e = .ok () e') : n = 0 := by
  cases n with
  | zero => rfl
  | succ n =>
    cases ho : v.order slot with
    | none => rw [putOrders, ho] at hrun; cases hrun
    | some o =>
      rw [putOrders, ho] at hrun
      simp only [read, pure_bind, bind_eq_ok] at hrun
      obtain ⟨_, e₁, hblock, -⟩ := hrun
      rw [putOrder_eq] at hblock
      exact absurd hblock (block_stuck h (Nat.zero_lt_succ 3))

/-- A group that is asked for a block without having declared one stops the encoder. -/
theorem encode_stops (crc32c : List UInt8 → UInt32) (hv : v.Readable) (hg : ¬ NoEmptyGroup v)
    (buf : List UInt8) : ∃ p, encode crc32c v buf = .error p := by
  cases hrun : (message v >>= trailer crc32c) ⟨buf, 0, 0, 0, 0⟩ with
  | error p e => exact ⟨p, by rw [encode, hrun]⟩
  | ok len e =>
    refine absurd ?_ hg
    obtain ⟨len', e', hmsg, -⟩ := bind_eq_ok.mp hrun
    have hlane : ∀ side ≤ 1, ∀ c < 65536, ∀ e,
        countLane (v.countLevel side) 0 (v.width side) c e =
          .ok (u16 (c + (v.laneRecs side 0 (v.width side)).length)) e := fun side hs c hc e =>
      countLane_run hc (fun u _ h => hv.level side hs u (by omega))
        (fun u _ h => hv.count side hs u (by omega)) e
    have hcount : u16 (u16 (0 + (v.laneRecs 0 0 (v.width 0)).length) +
        (v.laneRecs 1 0 (v.width 1)).length) = u16 v.levelRecs.length := by
      rw [Source.levelRecs, List.length_append]
      unfold u16
      omega
    rw [message, bind_ok (hlane 0 (by omega) 0 (by omega) _),
      bind_ok (hlane 1 (by omega) _ (u16_lt _) _), hcount] at hmsg
    simp only [bind_eq_ok] at hmsg
    obtain ⟨_, e₁, -, _, e₂, -, _, e₃, -, _, e₄, hwrap, _, e₅, hbid, _, e₆, hask, _, e₇, hwrap', _, e₈,
      horders, -⟩ := hmsg
    constructor
    · intro hne hzero
      rw [hzero] at hwrap
      have hstuck := groupWrap_stuck hwrap
      obtain ⟨hb, rfl⟩ := putLane_stuck hstuck hbid
      obtain ⟨ha, rfl⟩ := putLane_stuck hstuck hask
      exact hne (List.append_eq_nil_iff.mpr ⟨hb, ha⟩)
    · intro hne hzero
      rw [hzero] at hwrap'
      exact hne (putOrders_stuck (groupWrap_stuck hwrap') horders)

end Encoder

end HiPerf
