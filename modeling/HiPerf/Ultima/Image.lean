import HiPerf.Snapshot.FlatImage
import HiPerf.Ultima.Agree

/-!
The image of a book of rows: the image of the memory its tables show, with the
resting orders in the order of their slots.
-/

namespace HiPerf

open Machine Tables Exec Bytes Encoder

namespace Flat

/-- The level in row `i + 1`. -/
def levelAt (f : Flat) (i : Nat) : LevelRec :=
  if i < f.grid.nLevels then (0, i, f.lvl .bid i)
  else (1, i - f.grid.nLevels, f.lvl .ask (i - f.grid.nLevels))

/-- The levels table, by row. -/
def levelTable (f : Flat) : List (Nat × LevelRec) :=
  (List.range (2 * f.grid.nLevels)).map fun i => (i + 1, f.levelAt i)

/-- The orders table, by row. -/
def orderTable (f : Flat) (slots : List Nat) : List (Nat × Order) :=
  slots.map fun s => (rowOf s, f.ord s)

/-- The slots of the resting orders. -/
def slots (f : Flat) : List Nat := Digest.liveSlots f 0 f.hwm

theorem mem_levelTable (f : Flat) (i : Nat) (r : LevelRec) :
    (i, r) ∈ f.levelTable ↔ f.levelRow i = some r := by
  cases i with
  | zero => simp [levelTable, levelRow]
  | succ i =>
    simp only [levelTable, List.mem_map, List.mem_range, Prod.mk.injEq, Nat.add_right_cancel_iff,
      levelRow, levelAt, Nat.add_sub_cancel]
    constructor
    · rintro ⟨i, hi, rfl, rfl⟩
      rw [if_neg (by omega)]
      by_cases h : i < f.grid.nLevels
      · rw [if_pos h, if_pos (by omega)]
      · rw [if_neg h, if_neg (by omega)]
    · intro h
      split at h
      · cases h
      · refine ⟨i, by omega, rfl, ?_⟩
        split at h
        · rw [if_pos (by omega)]
          exact Option.some.inj h
        · rw [if_neg (by omega)]
          exact Option.some.inj h

theorem levelTable_sorted (f : Flat) : f.levelTable.Pairwise fun r r' => r.1 < r'.1 := by
  refine List.pairwise_map.mpr (List.pairwise_lt_range.imp fun h => ?_)
  exact Nat.succ_lt_succ h

/-- What the encoder writes of a row. -/
def occupied (r : Nat × LevelRec) : Option LevelRec :=
  if r.2.2.2.head = NIL then none else some r.2

theorem levelTable_occupied (f : Flat) : f.levelTable.filterMap occupied = f.levelRecs := by
  have hbids : ∀ t ∈ List.range f.grid.nLevels, occupied (t + 1, f.levelAt t) =
      if (f.lvl .bid t).head = NIL then none else some (0, t, f.lvl .bid t) := by
    intro t ht
    rw [levelAt, if_pos (List.mem_range.mp ht)]
    rfl
  have hasks : ∀ t ∈ List.range f.grid.nLevels,
      occupied (f.grid.nLevels + t + 1, f.levelAt (f.grid.nLevels + t)) =
      if (f.lvl .ask t).head = NIL then none else some (1, t, f.lvl .ask t) := by
    intro t _
    rw [levelAt, if_neg (by omega), Nat.add_sub_cancel_left]
    rfl
  rw [levelTable, Nat.two_mul, List.range_add, List.map_append, List.filterMap_append,
    List.map_map, List.filterMap_map, List.filterMap_map, levelRecs, laneRecs, laneRecs]
  congr 1
  · exact List.filterMap_congr hbids
  · exact List.filterMap_congr hasks

end Flat

namespace UltimaBook

variable {db : Db} {f : Flat} {L : Ledger} {q : Lane → Nat → List Nat} {n room capacity : Nat}
  {l : db.Table LevelRec} {o : db.Table Order}

/-- Rows sorted by id are told by which rows there are. -/
theorem rows_eq {α : Type} {rows rows' : List (Nat × α)}
    (h : rows.Pairwise fun r r' => r.1 < r'.1) (h' : rows'.Pairwise fun r r' => r.1 < r'.1)
    (hmem : ∀ i a, (i, a) ∈ rows ↔ (i, a) ∈ rows') : rows = rows' := by
  have hirrefl : Std.Irrefl fun r r' : Nat × α => r.1 < r'.1 := ⟨fun r => Nat.lt_irrefl r.1⟩
  have hantisymm : Std.Antisymm fun r r' : Nat × α => r.1 < r'.1 :=
    ⟨fun r r' h h' => absurd (Nat.lt_trans h h') (Nat.lt_irrefl _)⟩
  exact h.eq_of_mem_iff h' fun r => hmem r.1 r.2

theorem levels_iter (hdb : db.Lawful) (hl : LevelsShow l f) : db.iter l = f.levelTable := by
  refine rows_eq (hdb.iter_sorted l) f.levelTable_sorted fun i r => ?_
  rw [hdb.mem_iter, hl, f.mem_levelTable]

theorem slots_sorted (f : Flat) : f.slots.Pairwise (· < ·) :=
  List.Pairwise.filter _ List.pairwise_lt_range'

theorem mem_slots (h : Rep f L q) (s : Nat) : s ∈ f.slots ↔ Queued q s := by
  simp [Flat.slots, Digest.liveSlots, h.queued_iff s]

theorem slots_length (h : Rep f L q) : f.slots.length = L.length := by
  rw [← (Digest.live_perm h).length_eq, List.length_map]
  rfl

theorem orderTable_sorted (f : Flat) {slots : List Nat} (h : slots.Pairwise (· < ·)) :
    (f.orderTable slots).Pairwise fun r r' => r.1 < r'.1 :=
  List.pairwise_map.mpr (h.imp fun h => Nat.succ_lt_succ h)

theorem orders_iter (hdb : db.Lawful) (ho : OrdersShow o f n) (hs : Sparse f L q n) :
    db.iter o = f.orderTable f.slots := by
  refine rows_eq (hdb.iter_sorted o) (orderTable_sorted f (slots_sorted f)) fun row x => ?_
  rw [iter_mem hdb ho hs, Flat.orderTable, List.mem_map]
  constructor
  · rintro ⟨s, hq, rfl, rfl⟩
    exact ⟨s, (mem_slots hs.rep s).mpr hq, rfl⟩
  · rintro ⟨s, hmem, e⟩
    cases e
    exact ⟨s, (mem_slots hs.rep s).mp hmem, rfl, rfl⟩

end UltimaBook

namespace Encoder

/-- The loop over the levels table writes the occupied levels. -/
theorem putLevelRows_eq (rows : List (Nat × LevelRec)) : putLevelRows rows =
    runAll (fun r : LevelRec => putLevel r.1 r.2.1 r.2.2) (rows.filterMap Flat.occupied) := by
  induction rows with
  | nil => rfl
  | cons r rows ih =>
    obtain ⟨row, side, t, lvl⟩ := r
    rw [putLevelRows, ih, List.filterMap_cons]
    by_cases hnil : lvl.head = NIL
    · rw [if_pos hnil, Flat.occupied, if_pos hnil]
    · rw [if_neg hnil, Flat.occupied, if_neg hnil]
      rfl

/-- The loop over the orders table writes the resting orders. -/
theorem putOrderRows_eq (f : Flat) {slots : List Nat} (h : ∀ s ∈ slots, s ≤ NIL) :
    putOrderRows (f.orderTable slots) =
      runAll (fun r : OrderRec => putOrder r.1 r.2) (f.orderRecs slots) := by
  induction slots with
  | nil => rfl
  | cons s slots ih =>
    have hrest := ih fun s hs => h s (by simp [hs])
    have hslot := UltimaBook.slotOf_rowOf (h s (by simp))
    rw [Flat.orderTable, List.map_cons, putOrderRows, hslot]
    change (putOrder s (f.ord s) >>= fun _ => putOrderRows (f.orderTable slots)) = _
    rw [hrest]
    rfl

end Encoder

namespace UltimaBook

variable {db : Db} {f : Flat} {L : Ledger} {q : Lane → Nat → List Nat} {n room capacity : Nat}
  {l : db.Table LevelRec} {o : db.Table Order}

/-- The memory of a book of rows fits any pool with room for its highest slot. -/
theorem book_shows (hs : Sparse f L q n) {cap : Nat} (hcap : f.hwm ≤ cap) :
    (f.book cap).Shows cap f :=
  Flat.book_shows hs.rep.levels_beyond fun s h => hs.blank s fun hq => by
    have := hs.rep.queued_lt hq
    omega

/-- There are no more occupied levels than resting orders. -/
theorem levelRecs_le (hs : Sparse f L q n) : f.levelRecs.length ≤ L.length := by
  have hb := book_shows hs (Nat.le_refl _)
  rw [← hb.levelRecs_eq (f.book_narrow _), ← slots_length hs.rep]
  exact Book.levelRecs_length_le_of hb hs.rep fun s hq => (mem_slots hs.rep s).mpr hq

/-- What both encoders of rows are left with: the records of the memory. -/
theorem messageTables_eq (hdb : db.Lawful) (hl : LevelsShow l f) (ho : OrdersShow o f n)
    (hs : Sparse f L q n) : messageTables l o (f.metaRow capacity) = (do
      setLimit (HEADER_LEN + SBE_BLOCK_LENGTH)
      header
      scalars (f.keptImage capacity f.slots).scalars
      groupWrap LEVELS_BLOCK (u16 f.levelRecs.length)
      runAll (fun r : LevelRec => putLevel r.1 r.2.1 r.2.2) f.levelRecs
      groupWrap ORDERS_BLOCK (u16 f.slots.length)
      runAll (fun r : OrderRec => putOrder r.1 r.2) (f.orderRecs f.slots)
      return (← get).limit) := by
  have hcount : ((db.iter l).countP fun r => r.2.2.2.head ≠ NIL) = f.levelRecs.length := by
    rw [levels_iter hdb hl, ← f.levelTable_occupied, List.length_filterMap_eq_countP]
    refine List.countP_congr fun r _ => ?_
    unfold Flat.occupied
    split <;> simp_all
  have hscalars : (f.metaRow capacity).scalars = (f.keptImage capacity f.slots).scalars := by
    rw [MetaRec.scalars, ← hs.freeHead]
    rfl
  have horders : putOrderRows (db.iter o) =
      runAll (fun r : OrderRec => putOrder r.1 r.2) (f.orderRecs f.slots) := by
    rw [orders_iter hdb ho hs, putOrderRows_eq f fun s hmem => ?_]
    have := hs.rep.queued_lt ((mem_slots hs.rep s).mp hmem)
    have := hs.rep.hwm_le
    omega
  rw [messageTables, hcount, hscalars, len_eq hdb ho hs, ← slots_length hs.rep, horders,
    levels_iter hdb hl, putLevelRows_eq, f.levelTable_occupied]

/-- No group of the image is asked for a block without having declared one. -/
def NoEmptyGroup (f : Flat) : Prop :=
  (f.levelRecs ≠ [] → u16 f.levelRecs.length ≠ 0) ∧ (f.slots ≠ [] → u16 f.slots.length ≠ 0)

theorem noEmptyGroup (hs : Sparse f L q n) (hlen : L.length ≤ 65535) : NoEmptyGroup f := by
  have hlevels := levelRecs_le hs
  have hslots := slots_length hs.rep
  have hu : ∀ n, n ≤ 65535 → u16 n = n := fun n hn => Nat.mod_eq_of_lt (by omega)
  rw [NoEmptyGroup, hu _ (by omega), hu _ (by omega)]
  exact ⟨fun h => (List.length_pos_iff.mpr h).ne', fun h => (List.length_pos_iff.mpr h).ne'⟩

theorem messageTables_runs (hdb : db.Lawful) (hl : LevelsShow l f) (ho : OrdersShow o f n)
    (hs : Sparse f L q n) (hg : NoEmptyGroup f)
    (hroom : width (f.keptImage capacity f.slots).fields ≤ room) :
    ∃ t, t.fields = (f.keptImage capacity f.slots).fields ∧
      Runs (Wrote room) (messageTables l o (f.metaRow capacity)) start
        (width (f.keptImage capacity f.slots).fields) t := by
  obtain ⟨t, ht, hrun⟩ := @layout_runs room (f.keptImage capacity f.slots)
    (runAll (fun r : LevelRec => putLevel r.1 r.2.1 r.2.2) f.levelRecs)
    (runAll (fun r : OrderRec => putOrder r.1 r.2) (f.orderRecs f.slots)) hroom
    (fun base hbase => group_runs putLevel_record levelFields_width _ [] (Nat.zero_le _)
      (fun h => Nat.pos_of_ne_zero (hg.1 h)) (u16_lt _) hbase)
    fun base hbase => group_runs putOrder_record orderFields_width _ [] (Nat.zero_le _)
      (fun h => Nat.pos_of_ne_zero (hg.2 fun hnil => h (by rw [hnil]; rfl))) (u16_lt _) hbase
  refine ⟨t, ht, ?_⟩
  rw [messageTables_eq hdb hl ho hs]
  exact hrun

theorem messageAt_eq (hdb : db.Lawful) {u : UltimaBook db} {m : db.Table MetaRec} {r : MetaRec}
    (hu : u.Current ⟨some l, some o, some m⟩) (hm : db.get m 1 = some r) :
    messageAt u.store u.version = messageTables l o r := by
  simp only [messageAt, hu.read, hdb.readTable_some, expect, pure_bind, hm]

/-- With room enough the encoder writes the image of the memory. -/
theorem Shows.encodeAt_kept (hdb : db.Lawful) {u : UltimaBook db} {m : Tape}
    (hu : u.Shows capacity m) (hs : Sparse m.flat L q m.next) (hg : NoEmptyGroup m.flat)
    (crc32c : List UInt8 → UInt32) {buf : List UInt8}
    (hbuf : 60 + LEVELS_BLOCK * m.flat.levelRecs.length + ORDERS_BLOCK * L.length ≤ buf.length) :
    ∃ data len, encodeAt crc32c u.store u.version buf = .ok (data, len) ∧
      data.take len = sealed crc32c (m.flat.keptImage capacity m.flat.slots) := by
  obtain ⟨-, l, o, ms, hcur, hl, ho, hm⟩ := hu
  have hlevels := levelRecs_le hs
  have hslots := slots_length hs.rep
  have hwidth : width (m.flat.keptImage capacity m.flat.slots).fields + 4 ≤
      60 + LEVELS_BLOCK * m.flat.levelRecs.length + ORDERS_BLOCK * L.length := by
    have h₁ := kept_length_le (u16 m.flat.levelRecs.length) m.flat.levelRecs
    have h₂ := kept_length_le (u16 m.flat.slots.length) (m.flat.orderRecs m.flat.slots)
    have h₃ : (m.flat.orderRecs m.flat.slots).length = L.length :=
      (List.length_map _).trans hslots
    rw [Image.width_fields]
    simp only [Flat.keptImage, LEVELS_BLOCK, ORDERS_BLOCK]
    omega
  have hfits : 60 + LEVELS_BLOCK * m.flat.levelRecs.length + ORDERS_BLOCK * L.length ≤ USIZE_MAX := by
    have hhwm := hs.rep.hwm_le
    have hlive : L.length ≤ m.flat.hwm :=
      hslots ▸ (List.length_filter_le _ _).trans_eq List.length_range'
    simp only [LEVELS_BLOCK, ORDERS_BLOCK, USIZE_MAX, NIL] at hhwm ⊢
    omega
  generalize 60 + LEVELS_BLOCK * m.flat.levelRecs.length + ORDERS_BLOCK * L.length = room at *
  obtain ⟨t, ht, hmsg⟩ := messageTables_runs hdb hl ho hs hg (Nat.le_of_add_right_le hwidth)
  have htrail := trailer_runs crc32c (show width t.fields + 4 ≤ room by rw [ht]; exact hwidth)
  rw [ht] at htrail
  obtain ⟨e, hrun, he⟩ := (hmsg.bind htrail) ⟨buf, 0, 0, 0, 0⟩
    ⟨List.nil_prefix, hbuf, hfits, rfl, rfl, rfl, rfl⟩
  refine ⟨e.data, _, by rw [HiPerf.encodeAt, messageAt_eq hdb hcur hm, hrun], ?_⟩
  have hpre := List.prefix_iff_eq_take.mp he.written
  rw [bytes_length, width_append, bytes_append] at hpre
  simpa only [sealed, bytes_cons, bytes_nil, List.append_nil, width_cons, width_nil, Nat.add_zero]
    using hpre.symm

/-- With at most 65535 orders both groups hold what there is. -/
theorem Shows.encodeAt (hdb : db.Lawful) {u : UltimaBook db} {m : Tape} (hu : u.Shows capacity m)
    (hs : Sparse m.flat L q m.next) (hlen : L.length ≤ 65535) (crc32c : List UInt8 → UInt32)
    {buf : List UInt8}
    (hbuf : 60 + LEVELS_BLOCK * m.flat.levelRecs.length + ORDERS_BLOCK * L.length ≤ buf.length) :
    ∃ data len, encodeAt crc32c u.store u.version buf = .ok (data, len) ∧
      data.take len = sealed crc32c (m.flat.image capacity m.flat.slots) := by
  have hlevels := levelRecs_le hs
  have hslots := slots_length hs.rep
  rw [← Flat.keptImage_eq (by omega) (by omega)]
  exact hu.encodeAt_kept hdb hs (noEmptyGroup hs hlen) crc32c hbuf

/-- A group that is asked for a block without having declared one stops the encoder. -/
theorem Shows.encodeAt_stops (hdb : db.Lawful) {u : UltimaBook db} {m : Tape}
    (hu : u.Shows capacity m) (hs : Sparse m.flat L q m.next) (hg : ¬ NoEmptyGroup m.flat)
    (crc32c : List UInt8 → UInt32) (buf : List UInt8) :
    ∃ p, HiPerf.encodeAt crc32c u.store u.version buf = .error p := by
  obtain ⟨-, l, o, ms, hcur, hl, ho, hm⟩ := hu
  have hstuck : ∀ {β : Type} {put : β → Run Encoder Unit} (fields : β → Field × List Field)
      {size : Nat}, (∀ b, put b = (advance size >>= fun _ => get >>= fun e =>
        putAll e.offset ((fields b).1 :: (fields b).2))) → (∀ b, 0 < (fields b).1.1) →
      ∀ rs e e', Encoder.Stuck e → runAll put rs e = .ok () e' → rs = [] := by
    intro β put fields size hput hpos rs e e' he hrun
    cases rs with
    | nil => rfl
    | cons r rs =>
      obtain ⟨e₁, hblock, -⟩ := runAll_cons_eq_ok.mp hrun
      rw [hput] at hblock
      exact absurd hblock (block_stuck he (hpos r))
  cases hrun : (messageTables l o (m.flat.metaRow capacity) >>= trailer crc32c)
      ⟨buf, 0, 0, 0, 0⟩ with
  | error p e => exact ⟨p, by rw [HiPerf.encodeAt, messageAt_eq hdb hcur hm, hrun]⟩
  | ok len e =>
    refine absurd ?_ hg
    obtain ⟨len', e', hmsg, -⟩ := bind_eq_ok.mp hrun
    rw [messageTables_eq hdb hl ho hs] at hmsg
    simp only [bind_eq_ok] at hmsg
    obtain ⟨_, e₁, -, _, e₂, -, _, e₃, -, _, e₄, hwrap, _, e₅, hlevels, _, e₆, hwrap', _, e₇, horders,
      -⟩ := hmsg
    constructor
    · intro hne hzero
      rw [hzero] at hwrap
      exact hne (hstuck (fun r : LevelRec => ((1, sideEnum r.1), (levelFields r).tail))
        putLevel_record (fun _ => Nat.zero_lt_one) _ _ _ (groupWrap_stuck hwrap) hlevels)
    · intro hne hzero
      rw [hzero] at hwrap'
      have hnil := hstuck (fun r : OrderRec => ((4, r.1), (orderFields r).tail))
        putOrder_record (fun _ => Nat.zero_lt_succ 3) _ _ _ (groupWrap_stuck hwrap') horders
      exact hne (List.map_eq_nil_iff.mp hnil)

end UltimaBook

end HiPerf
