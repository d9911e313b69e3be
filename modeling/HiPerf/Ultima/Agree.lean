import HiPerf.Digest.Same
import HiPerf.Ultima.Run

/-!
The digest of tables that show a memory is the digest of its ledger, so a book of
rows and a flat book with the same history have the same digest.
-/

namespace HiPerf

open Machine Tables Exec Bytes Fifo

/-- Memories that hold the same orders have the same bests. -/
theorem Rep.bests_eq {f f' : Flat} {L : Ledger} {q q' : Lane → Nat → List Nat} (h : Rep f L q)
    (h' : Rep f' L q') (hg : f'.grid = f.grid) :
    f'.bestBid = f.bestBid ∧ f'.bestAsk = f.bestAsk := by
  have hocc : ∀ x t, (f'.lvl x t).head ≠ NIL ↔ (f.lvl x t).head ≠ NIL := by
    intro x t
    rw [h.queues.occupied_iff, h'.queues.occupied_iff, hg]
  have hbid := h'.bestBid
  have hask := h'.bestAsk
  rw [hg] at hbid hask
  exact ⟨hbid.unique (h.bestBid.congr fun t _ => hocc .bid t),
    hask.unique (h.bestAsk.congr fun t _ => hocc .ask t)⟩

namespace UltimaBook

variable {db : Db} {f : Flat} {L : Ledger} {q : Lane → Nat → List Nat} {n : Nat}
  {l : db.Table LevelRec} {o : db.Table Order}

/-- The rows of the orders table are the resting orders. -/
theorem iter_mem (hdb : db.Lawful) (ho : OrdersShow o f n) (hs : Sparse f L q n) (row : Nat)
    (x : Order) : (row, x) ∈ db.iter o ↔ ∃ s, Queued q s ∧ row = rowOf s ∧ x = f.ord s := by
  rw [hdb.mem_iter, ho.get]
  constructor
  · intro h
    cases row with
    | zero => cases h
    | succ s =>
      simp only [Flat.orderRow] at h
      split at h
      · cases h
      · cases h
        exact ⟨s, (hs.live s).mpr ‹_›, rfl, rfl⟩
  · rintro ⟨s, hq, rfl, rfl⟩
    exact f.orderRow_rowOf ((hs.live s).mp hq)

theorem iter_perm (hdb : db.Lawful) (ho : OrdersShow o f n) (hs : Sparse f L q n) :
    ((db.iter o).map fun r => r.2.resting).Perm L := by
  have hnodup : ((db.iter o).map fun r => r.2.resting).Nodup := by
    refine List.Nodup.map_on (fun r hr r' hr' e => ?_)
      ((hdb.iter_sorted o).imp fun h e => absurd (congrArg Prod.fst e) (Nat.ne_of_lt h))
    obtain ⟨s, hq, hrow, hx⟩ := (iter_mem hdb ho hs r.1 r.2).mp hr
    obtain ⟨s', hq', hrow', hx'⟩ := (iter_mem hdb ho hs r'.1 r'.2).mp hr'
    rw [hx, hx'] at e
    have hslot := hs.rep.slot_unique hq hq' (congrArg Resting.orderId e)
    exact Prod.ext (by rw [hrow, hrow', hslot]) (by rw [hx, hx', hslot])
  refine (List.perm_ext_iff_of_nodup hnodup hs.rep.valid.nodup.of_map).mpr fun r => ?_
  constructor
  · intro hr
    obtain ⟨⟨row, x⟩, hmem, rfl⟩ := List.mem_map.mp hr
    obtain ⟨s, hq, -, rfl⟩ := (iter_mem hdb ho hs row x).mp hmem
    exact hs.rep.queued_mem hq
  · intro hr
    obtain ⟨s, hq, rfl⟩ := hs.rep.queues.exists_slot hr
    exact List.mem_map.mpr ⟨(rowOf s, f.ord s),
      (iter_mem hdb ho hs _ _).mpr ⟨s, ⟨_, _, hq⟩, rfl, rfl⟩, rfl⟩

theorem len_eq (hdb : db.Lawful) (ho : OrdersShow o f n) (hs : Sparse f L q n) :
    db.len o = L.length := by
  rw [hdb.len_eq, ← (iter_perm hdb ho hs).length_eq, List.length_map]

/-- The levels are those of a memory if the resting orders are among the rows. -/
theorem rowLane_eq (hl : LevelsShow l f)
    (ho : ∀ s, Queued q s → db.get o (rowOf s) = some (f.ord s)) (hlen : L.length ≤ db.len o)
    (h : Rep f L q) {side t k : Nat} (hside : side ≤ 1) (ht : t + k = f.grid.nLevels) :
    rowLane l o f.grid.nLevels side t k =
      .ok ((L.laneViews f.grid side t k).flatMap LevelView.fields) := by
  induction k generalizing t with
  | zero => rfl
  | succ k ih =>
    have hrest := ih (t := t + 1) (by omega)
    have hlvl := h.queues (laneOf side) t
    rw [rowLane, hl.at_ hside (by omega), Ledger.laneViews]
    dsimp only
    by_cases hempty : L.atLevel f.grid (laneOf side) t = []
    · have hhead : (f.lvl (laneOf side) t).head = NIL := by
        by_contra hne
        exact (h.queues.occupied_iff _ t).mp hne hempty
      rw [if_pos hhead, if_pos hempty, hrest]
    · have hhead := (h.queues.occupied_iff _ t).mpr hempty
      have hlength : (q (laneOf side) t).length = (L.atLevel f.grid (laneOf side) t).length := by
        rw [← hlvl.recs, List.length_map]
      have hle : (L.atLevel f.grid (laneOf side) t).length ≤ L.length := List.length_filter_le _ _
      have hwalk := @Digest.walk_eq (fun s => db.get o (rowOf s)) f (.message "chain order") _ _
        (db.len o + 1) hlvl.fifo.chain (by omega) fun s hs => ho s ⟨_, _, hs⟩
      rw [if_neg hhead, if_neg hempty, hwalk, hrest, Digest.level_ids h, hlvl.qty, hlvl.count,
        hlength]
      rfl

theorem digestUltima_eq (hdb : db.Lawful) {u : UltimaBook db} {m : db.Table MetaRec} {r : MetaRec}
    (hu : u.Current ⟨some l, some o, some m⟩) (hm : db.get m 1 = some r) :
    digestUltima u.store u.version = digestTables l o r := by
  rw [digestUltima, hu.read]
  change (Digest.read _ (db.readTable (some l)) >>= _) = _
  rw [hdb.readTable_some]
  change (Digest.read _ (db.readTable (some o)) >>= _) = _
  rw [hdb.readTable_some]
  change (Digest.read _ (db.readTable (some m)) >>= _) = _
  rw [hdb.readTable_some]
  change (Digest.read _ (db.get m 1) >>= _) = _
  rw [hm]
  rfl

/-- A book of rows that holds `L` has the digest of `L`. -/
theorem Shows.digest (hdb : db.Lawful) {capacity : Nat} {u : UltimaBook db} {m : Tape}
    (hu : u.Shows capacity m) (hs : Sparse m.flat L q m.next) :
    digestUltima u.store u.version =
      .ok (L.digest m.flat.grid m.flat.bestBid m.flat.bestAsk) := by
  obtain ⟨-, l, o, ms, hcur, hl, ho, hm⟩ := hu
  have hrow : ∀ s, Queued _ s → db.get o (rowOf s) = some (m.flat.ord s) :=
    fun s hq => ho.rowOf_get ((hs.live s).mp hq)
  have hlane := fun (side : Nat) (hside : side ≤ 1) =>
    rowLane_eq hl hrow (Nat.le_of_eq (len_eq hdb ho hs).symm) hs.rep hside (Nat.zero_add _)
  have hperm := iter_perm hdb ho hs
  rw [digestUltima_eq hdb hcur hm, digestTables]
  change (rowLane l o m.flat.grid.nLevels 0 0 m.flat.grid.nLevels >>= _) = _
  rw [hlane 0 (by omega)]
  change (rowLane l o m.flat.grid.nLevels 1 0 m.flat.grid.nLevels >>= _) = _
  rw [hlane 1 (by omega)]
  change Except.ok _ = _
  rw [len_eq hdb ho hs, Digest.sortUnstable_eq_iff.mpr hperm, Ledger.digest, Ledger.levelViews,
    List.flatMap_append, List.append_assoc, List.append_assoc, List.append_assoc, List.append_assoc]
  rfl

end UltimaBook

theorem Ledger.length_apply_le (L : Ledger) (op : Op) :
    (L.apply op).length ≤ L.length + op.inserts := by
  cases op with
  | insert orderId price qty side => simp [Ledger.apply, Op.inserts]
  | update orderId n => simp [Ledger.apply, Op.inserts]
  | cancel orderId => exact List.length_filter_le _ _
  | fill orderId => exact List.length_filter_le _ _

theorem Ledger.length_after_le (L : Ledger) (ops : List Op) :
    (L.after ops).length ≤ L.length + inserts ops := by
  induction ops generalizing L with
  | nil => exact Nat.le_refl _
  | cons op ops ih =>
    have hle := L.length_apply_le op
    have hrest := ih (L.apply op)
    rw [inserts, List.map_cons, List.sum_cons]
    unfold inserts at hrest
    change ((L.apply op).after ops).length ≤ _
    omega

/-- With fewer inserts than slot numbers, a run fits if its offsets do. -/
theorem fits_of_inserts {cfg : SmrConfig} {L : Ledger} {ops : List Op}
    (hfit : ∀ op ∈ ops, op.OffsetFits cfg) (hins : L.length + inserts ops ≤ NIL) : Fits cfg L ops := by
  induction ops generalizing L with
  | nil => trivial
  | cons op ops ih =>
    have hle := L.length_apply_le op
    rw [inserts, List.map_cons, List.sum_cons] at hins
    refine ⟨?_, ih (fun o ho => hfit o (by simp [ho])) (by unfold inserts; omega)⟩
    have hop := hfit op (by simp)
    cases op with
    | insert orderId price qty side =>
      simp only [Op.inserts] at hins
      exact ⟨hop, by omega⟩
    | update orderId n => trivial
    | cancel orderId => trivial
    | fill orderId => trivial

namespace UltimaBook

variable {db : Db} {u₀ : UltimaBook db} {cfg : SmrConfig} {ops : List Op}

/-- After every well-formed sequence of calls, with at most `u32::MAX` inserts
whose price offsets are 64-bit values, the flat book and the book of rows have
not stopped and have the same digest. -/
theorem digests_agree (hdb : db.Lawful) (hg : cfg.grid.Ok) (h₀ : new db cfg = .ok u₀)
    (hwf : WellFormed cfg [] ops) (hfit : ∀ op ∈ ops, op.OffsetFits cfg) (hins : inserts ops ≤ NIL)
    (hne : ops ≠ []) : ∃ b u d, Book.run ops (Book.new cfg) = .ok () b ∧ run ops u₀ = .ok () u ∧
      digestBook b = .ok d ∧ digestUltima u.store u.version = .ok d := by
  have hfits : Fits cfg [] ops := fits_of_inserts hfit (by simpa using hins)
  obtain ⟨hrun, ⟨q, fl, hrep, -, hcap⟩, hgrid⟩ :=
    Book.run_holds hg rfl (Book.new_holds hg) hwf hfits
  obtain ⟨b, eb, hb⟩ := hrun _ (Book.new_shows cfg)
  have hnarrow : b.Narrow := by
    have hshape := Book.run_shaped ops (Book.new cfg)
    rw [last_ok eb] at hshape
    exact (Book.new_narrow cfg).of_shape hshape
  obtain ⟨u, eu, hu, ⟨q', hs⟩, hgrid'⟩ := run_new hdb hg h₀ (hwf.admitted_of hg hfit) hins
  obtain ⟨hbid, hask⟩ := hrep.bests_eq hs.rep (hgrid'.trans hgrid.symm)
  refine ⟨b, u, _, eb, eu, hb.digest hrep hcap hnarrow, ?_⟩
  rw [(hu hne).digest hdb hs, hbid, hask, hgrid, hgrid']

theorem digests_agree_smallRun : ∃ u₀, new reference smallBook = .ok u₀ ∧ ∃ b u d,
    Book.run smallRun (Book.new smallBook) = .ok () b ∧ run smallRun u₀ = .ok () u ∧
    digestBook b = .ok d ∧ digestUltima u.store u.version = .ok d := by
  obtain ⟨u₀, e₀, -⟩ := new_opens reference_lawful smallBook
  exact ⟨u₀, e₀, digests_agree reference_lawful smallBook_ok e₀ smallRun_wellFormed (by decide)
    (by decide) (by decide)⟩

end UltimaBook

/-- `n` bids at one price, each withdrawn before the next. -/
@[irreducible] def pingPong (price : Int) (n : Nat) : List Op :=
  (List.range n).flatMap fun i : Nat => [.insert (i + 1) price 1 0, .cancel (i + 1)]

theorem pingPong_zero (price : Int) : pingPong price 0 = [] := by simp [pingPong]

theorem pingPong_succ (price : Int) (n : Nat) : pingPong price (n + 1) =
    pingPong price n ++ [.insert (n + 1) price 1 0] ++ [.cancel (n + 1)] := by
  simp [pingPong, List.range_succ]

theorem after_pingPong (price : Int) (n : Nat) : Ledger.after [] (pingPong price n) = [] := by
  induction n with
  | zero => rw [pingPong_zero]; rfl
  | succ n ih =>
    rw [pingPong_succ, Ledger.after_append, Ledger.after_append, ih]
    simp [Ledger.after, Ledger.apply]

theorem inserts_append (ops ops' : List Op) : inserts (ops ++ ops') = inserts ops + inserts ops' := by
  simp [inserts]

theorem inserts_pingPong (price : Int) (n : Nat) : inserts (pingPong price n) = n := by
  induction n with
  | zero => rw [pingPong_zero]; rfl
  | succ n ih =>
    rw [pingPong_succ, inserts_append, inserts_append, ih]
    rfl

theorem pingPong_offsets (cfg : SmrConfig) (n : Nat) :
    ∀ op ∈ pingPong cfg.priceMin n, op.OffsetFits cfg := by
  induction n with
  | zero => simp [pingPong_zero]
  | succ n ih =>
    intro op hop
    rw [pingPong_succ] at hop
    simp only [List.mem_append, List.mem_singleton] at hop
    obtain (hop | rfl) | rfl := hop
    · exact ih op hop
    · change InI64 (cfg.priceMin - cfg.priceMin)
      rw [Int.sub_self]
      decide
    · trivial

/-- With no order resting, a bid at the bottom of the ladder is well-formed. -/
theorem firstBid_wellFormed {cfg : SmrConfig} (hg : cfg.grid.Ok) (hcap : 1 ≤ cfg.cap) {orderId : Int}
    (hid : 1 ≤ orderId) (hid' : orderId ≤ 4294967297) :
    (Op.insert orderId cfg.priceMin 1 0).WellFormed cfg [] := by
  refine ⟨⟨⟨by omega, by omega⟩, hg.priceMin_i64, by decide⟩, by omega, by simp [Ledger.ids],
    ⟨0, hg.levels_pos, by simp⟩, by omega, by omega, hcap, ?_⟩
  simp [Ledger.levelQty, Ledger.atLevel]

theorem pingPong_wellFormed {cfg : SmrConfig} (hg : cfg.grid.Ok) (hcap : 1 ≤ cfg.cap) {n : Nat}
    (hn : n ≤ 4294967296) : WellFormed cfg [] (pingPong cfg.priceMin n) := by
  induction n with
  | zero => rw [pingPong_zero]; trivial
  | succ n ih =>
    rw [pingPong_succ, wellFormed_concat, wellFormed_concat]
    refine ⟨⟨ih (by omega), ?_⟩, ?_⟩
    · rw [after_pingPong]
      exact firstBid_wellFormed hg hcap (by omega) (by omega)
    · rw [Ledger.after_append, after_pingPong]
      simp [Op.WellFormed, Ledger.after, Ledger.apply, Ledger.ids]

namespace UltimaBook

variable {db : Db} {f : Flat} {n : Nat} {l : db.Table LevelRec} {o : db.Table Order}

/-- Levels without a head are passed over. -/
theorem rowLane_empty (hl : LevelsShow l f) {side t k : Nat} (hside : side ≤ 1)
    (ht : t + k = f.grid.nLevels) (hempty : ∀ u, (f.lvl (laneOf side) u).head = NIL) :
    rowLane l o f.grid.nLevels side t k = .ok [] := by
  induction k generalizing t with
  | zero => rfl
  | succ k ih =>
    rw [rowLane, hl.at_ hside (by omega)]
    dsimp only
    rw [if_pos (hempty t)]
    exact ih (by omega)

/-- The digest after an order got the sentinel as its slot: no level shows it. -/
theorem digest_appendNil (hdb : db.Lawful) {capacity : Nat} {u : UltimaBook db}
    {q : Lane → Nat → List Nat} (hn : n = NIL) (hs : Sparse f [] q n) {r : Resting}
    (hu : u.Shows capacity ⟨f.append n r, n + 1⟩) :
    ∃ d, digestUltima u.store u.version = .ok d ∧ d.length ≤ 45 := by
  have hq : ∀ x t, q x t = [] := fun x t => List.map_eq_nil_iff.mp (hs.rep.queues x t).recs
  have hlvl : ∀ x t, f.lvl x t = PriceLevel.EMPTY := fun x t => hs.rep.level_eq_empty (hq x t)
  have hord : ∀ s, f.ord s = Order.zero := fun s => hs.blank s fun ⟨x, t, h⟩ => by
    rw [hq] at h
    cases h
  have hheads : ∀ x t, ((f.append n r).lvl x t).head = NIL := by
    intro x t
    change (if _ then _ else f.lvl x t).head = NIL
    split
    · change (if (f.lvl (laneOf r.side) (f.grid.tickOf r.price)).tail = NIL then n else _) = NIL
      rw [hlvl, if_pos (show PriceLevel.EMPTY.tail = NIL from rfl)]
      exact hn
    · rw [hlvl]
      rfl
  have hrow : ∀ row x, (f.append n r).orderRow row = some x → row = n + 1 := by
    intro row x h
    cases row with
    | zero => cases h
    | succ s =>
      by_contra hne
      have hblank : (((f.setHwm (u32 (n + 1))).place n r).ord s).orderId = 0 := by
        rw [place_orderId, if_neg (by omega)]
        exact congrArg Order.orderId (hord s)
      have hnone : (f.append n r).orderRow (s + 1) = none := if_pos hblank
      rw [hnone] at h
      cases h
  obtain ⟨-, l, o, ms, hcur, hl, ho, hm⟩ := hu
  have hlen : (db.iter o).length ≤ 1 := by
    have hsorted := hdb.iter_sorted o
    have hall : ∀ r' ∈ db.iter o, r'.1 = n + 1 := fun r' hr' =>
      hrow r'.1 r'.2 (by rw [← ho.get]; exact (hdb.mem_iter o _ _).mp hr')
    match hiter : db.iter o with
    | [] => simp
    | [_] => simp
    | a :: b :: _ =>
      rw [hiter] at hsorted hall
      have hab := (List.pairwise_cons.mp hsorted).1 b (by simp)
      rw [hall a (by simp), hall b (by simp)] at hab
      omega
  have hlane := fun (side : Nat) (hside : side ≤ 1) =>
    rowLane_empty (o := o) hl hside (Nat.zero_add _) fun u => hheads _ u
  rw [digestUltima_eq hdb hcur hm, digestTables]
  refine ⟨bytes ([(4, u32 (f.append n r).bestBid), (4, u32 (f.append n r).bestAsk),
    (4, db.len o)] ++ [] ++ [] ++ (Digest.sortUnstable ((db.iter o).map fun r => r.2.resting)).flatMap
      Digest.putOrder), ?_, ?_⟩
  · change (rowLane l o (f.append n r).grid.nLevels 0 0 (f.append n r).grid.nLevels >>= _) = _
    rw [hlane 0 (by omega)]
    change (rowLane l o (f.append n r).grid.nLevels 1 0 (f.append n r).grid.nLevels >>= _) = _
    rw [hlane 1 (by omega)]
    rfl
  · rw [bytes_append, List.length_append, Ledger.orders_width, Digest.sortUnstable,
      (List.mergeSort_perm _ _).length_eq, List.length_map, bytes_length]
    simp only [List.append_nil, width_cons, width_nil]
    omega

/-- The digest of a book with one bid on a ladder of one level. -/
theorem digest_oneBid (orderId bestBid bestAsk : Int) :
    (Ledger.digest [⟨orderId, 0, 1, 0, 0⟩] hugePool.grid bestBid bestAsk).length = 70 := by
  rw [Ledger.digest, bytes_append, bytes_append, List.length_append, List.length_append,
    Ledger.orders_width, Digest.sortUnstable, (List.mergeSort_perm _ _).length_eq, bytes_length,
    bytes_length]
  rfl

/-- Beyond `u32::MAX` inserts the digests part: on a pool of 2^32 slots, bids that
come and go one at a time use one slot of the flat book and every slot number of
the other. And a price offset beyond 64 bits stops the flat book. -/
theorem digests_differ_hugePool :
    (wideLadder.grid.Ok ∧ WellFormed wideLadder [] [.insert 1 4611686018427387904 1 0] ∧
      ∃ b, Book.run [.insert 1 4611686018427387904 1 0] (Book.new wideLadder) =
        .error .indexOutOfBounds b) ∧
    hugePool.grid.Ok ∧
    ∃ ops, WellFormed hugePool [] ops ∧ inserts ops ≤ hugePool.cap ∧
      ∃ u₀ b u d d', new reference hugePool = .ok u₀ ∧
        Book.run ops (Book.new hugePool) = .ok () b ∧ run ops u₀ = .ok () u ∧
        digestBook b = .ok d ∧ digestUltima u.store u.version = .ok d' ∧ d ≠ d' := by
  refine ⟨⟨⟨by decide, by decide, by decide, by decide, by decide⟩, by decide, _, rfl⟩,
    hugePool_ok, pingPong 0 NIL ++ [.insert (NIL + 1) 0 1 0], ?_, ?_, ?_⟩
  · rw [wellFormed_concat, after_pingPong]
    exact ⟨pingPong_wellFormed hugePool_ok (by decide) (by decide),
      firstBid_wellFormed hugePool_ok (by decide) (by decide) (by decide)⟩
  · rw [inserts_append, inserts_pingPong]
    decide
  · have hwf : WellFormed hugePool [] (pingPong 0 NIL) :=
      pingPong_wellFormed hugePool_ok (by decide) (by decide)
    have hoff : ∀ op ∈ pingPong 0 NIL, op.OffsetFits hugePool := pingPong_offsets hugePool NIL
    have hlast : (Op.insert (NIL + 1) 0 1 0).WellFormed hugePool [] :=
      firstBid_wellFormed hugePool_ok (by decide) (by decide) (by decide)
    have hlastfit : (Op.insert (NIL + 1) 0 1 0).OffsetFits hugePool := by decide
    have hafter := after_pingPong 0 NIL
    have hins := inserts_pingPong 0 NIL
    obtain ⟨u₀, e₀, -⟩ := new_opens reference_lawful hugePool
    obtain ⟨u, eu, hu, hm, hgrid⟩ := run_new reference_lawful hugePool_ok e₀
      (hwf.admitted_of hugePool_ok hoff) (Nat.le_of_eq hins)
    have hnext := (blankTape hugePool).steps_next (pingPong 0 NIL)
    rw [hins, show (blankTape hugePool).next = 0 from rfl, Nat.zero_add] at hnext
    have hne : pingPong 0 NIL ≠ [] := by
      intro e
      rw [e] at hins
      cases hins
    generalize (blankTape hugePool).steps (pingPong 0 NIL) = m at hu hm hgrid hnext
    rw [hafter] at hm
    have hadm := hlast.admitted_of hugePool_ok hlastfit
    rw [← hgrid] at hadm
    obtain ⟨u', eu', hu'⟩ :=
      apply_run reference_lawful hm hadm (Nat.le_of_eq hnext) ((hu hne).opens reference_lawful)
    obtain ⟨q, hs⟩ := hm
    obtain ⟨d', ed', hd'⟩ := digest_appendNil reference_lawful hnext hs hu'
    have hfits : Fits hugePool [] (pingPong 0 NIL ++ [.insert (NIL + 1) 0 1 0]) := by
      rw [fits_concat, hafter]
      exact ⟨fits_of_inserts hoff (by rw [hins]; exact Nat.le_refl _), hlastfit, by decide⟩
    have hwf' : WellFormed hugePool [] (pingPong 0 NIL ++ [.insert (NIL + 1) 0 1 0]) := by
      rw [wellFormed_concat, hafter]
      exact ⟨hwf, hlast⟩
    obtain ⟨hrun, ⟨q', fl, hrep, -, hcap⟩, hgrid'⟩ :=
      Book.run_holds hugePool_ok rfl (Book.new_holds hugePool_ok) hwf' hfits
    obtain ⟨b, eb, hb⟩ := hrun _ (Book.new_shows hugePool)
    have hnarrow : b.Narrow := by
      have hshape := Book.run_shaped (pingPong 0 NIL ++ [.insert (NIL + 1) 0 1 0]) (Book.new hugePool)
      rw [last_ok eb] at hshape
      exact (Book.new_narrow hugePool).of_shape hshape
    refine ⟨u₀, b, u', _, d', e₀, eb, runAll_append_eq_ok.mpr ⟨u, eu, runAll_cons_eq_ok.mpr
      ⟨u', eu', rfl⟩⟩, hb.digest hrep hcap hnarrow, ed', fun e => ?_⟩
    rw [hgrid', Ledger.after_append, hafter] at e
    rw [← e] at hd'
    change (Ledger.digest [⟨NIL + 1, 0, 1, 0, 0⟩] hugePool.grid _ _).length ≤ 45 at hd'
    rw [digest_oneBid] at hd'
    omega

end UltimaBook

end HiPerf
