import HiPerf.Book.Run

/-!
What holds of the book after any well-formed sequence of calls, said of the
arrays themselves: every level's chain, the free chain, the id-map and the
cached bests.
-/

namespace HiPerf

open Machine Exec Fifo

namespace Book

def slot (b : Book) (s : Nat) : Order := b.pool[s]?.getD Order.zero

def levelAt (b : Book) (side t : Nat) : PriceLevel := (b.lane side)[t]?.getD PriceLevel.EMPTY

/-- Slot `s` holds a resting order: freeing a slot clears its order id. -/
def Live (b : Book) (s : Nat) : Prop := s < b.hwm ∧ (b.slot s).orderId ≠ 0

/-- The slots `l` are the queue of level `t`, from head to tail. -/
structure LevelQueue (cfg : SmrConfig) (b : Book) (side t : Nat) (l : List Nat) : Prop where
  chain : IsChain NIL (fun s => (b.slot s).next) (b.levelAt side t).head l
  nodup : l.Nodup
  mem_iff : ∀ s, s ∈ l ↔ b.Live s ∧ (b.slot s).side = side ∧
    (b.slot s).price = cfg.priceMin + t * cfg.tick
  prev_head : l ≠ [] → (b.slot (b.levelAt side t).head).prev = NIL
  prev_next : ∀ s ∈ l, (b.slot s).next ≠ NIL → (b.slot (b.slot s).next).prev = s
  tail : (b.levelAt side t).tail = l.getLastD NIL
  head_nil : (b.levelAt side t).head = NIL ↔ (b.levelAt side t).tail = NIL
  tail_nil : (b.levelAt side t).tail = NIL ↔ (b.levelAt side t).count = 0
  count : (b.levelAt side t).count = l.length
  qty : (b.levelAt side t).qtyTotal = (l.map fun s => (b.slot s).qty - (b.slot s).filled).sum

/-- The slots `fl` are the free chain, each blank. -/
structure FreeChain (b : Book) (fl : List Nat) : Prop where
  chain : IsChain NIL (fun s => (b.slot s).next) b.freeHead fl
  nodup : fl.Nodup
  blank : ∀ s ∈ fl, (b.slot s).orderId = 0 ∧ (b.slot s).prev = NIL
  partition : ∀ s, s < b.hwm ↔ b.Live s ∨ s ∈ fl
  disjoint : ∀ s ∈ fl, ¬ b.Live s

/-- The book shows exactly the resting orders `L`. -/
structure Consistent (cfg : SmrConfig) (L : Ledger) (b : Book) : Prop where
  levels : ∀ side ≤ 1, ∀ t < cfg.levels, ∃ l, b.LevelQueue cfg side t l
  placed : ∀ s, b.Live s → (b.slot s).side ≤ 1 ∧
    ∃ t < cfg.levels, (b.slot s).price = cfg.priceMin + t * cfg.tick
  records : ∀ s, b.Live s → (b.slot s).resting ∈ L
  free : ∃ fl, b.FreeChain fl
  ids : ∀ orderId s, b.idmap orderId = some s ↔ b.Live s ∧ (b.slot s).orderId = orderId
  ids_dom : ∀ orderId, (∃ s, b.idmap orderId = some s) ↔ orderId ∈ L.ids
  bestBid : Ladder.IsHighest (fun t => (b.levelAt 0 t).head ≠ NIL) cfg.levels b.bestBid
  bestAsk : Ladder.IsLowest (fun t => (b.levelAt 1 t).head ≠ NIL) cfg.levels b.bestAsk

variable {cfg : SmrConfig} {cap : Nat} {b : Book} {f : Flat} {L : Ledger}

theorem Shows.slot_eq (h : b.Shows cap f) (s : Nat) : b.slot s = f.ord s := by
  rw [← h.view]; rfl

theorem Shows.levelAt_eq (h : b.Shows cap f) (side t : Nat) :
    b.levelAt side t = f.lvl (laneOf side) t := by
  rw [← h.view]; exact lane_view b side t

theorem Shows.hwm_eq (h : b.Shows cap f) : b.hwm = f.hwm := by rw [← h.view]; rfl

theorem Shows.live_iff (h : b.Shows cap f) {q : Lane → Nat → List Nat} (hrep : Rep f L q)
    (s : Nat) : b.Live s ↔ Queued q s := by
  rw [Live, h.slot_eq, h.hwm_eq, hrep.queued_iff]

theorem laneOf_side {side side' : Nat} (h : side ≤ 1) (h' : side' ≤ 1) :
    laneOf side = laneOf side' ↔ side = side' := by
  have hs : side = 0 ∨ side = 1 := by omega
  have hs' : side' = 0 ∨ side' = 1 := by omega
  rcases hs with rfl | rfl <;> rcases hs' with rfl | rfl <;> simp [laneOf]

theorem Shows.levelQueue (h : b.Shows cap f) {q : Lane → Nat → List Nat} (hrep : Rep f L q)
    (hg : cfg.grid.Ok) (hfg : f.grid = cfg.grid) (hon : L.OnGrid cfg) {side t : Nat}
    (hside : side ≤ 1) (ht : t < cfg.levels) : b.LevelQueue cfg side t (q (laneOf side) t) := by
  have hl := hrep.queues (laneOf side) t
  have hnext : (fun s => (b.slot s).next) = f.next := by
    funext s; rw [h.slot_eq]; rfl
  have hnil := hl.fifo.head_eq_nil_iff
  have htnil := hl.fifo.tail_eq_nil_iff
  refine ⟨?_, hl.nodup hrep.valid.nodup, fun s => ?_, fun hne => ?_, fun s hs hn => ?_, ?_, ?_, ?_,
    ?_, ?_⟩
  · rw [hnext, h.levelAt_eq]; exact hl.fifo.chain
  · rw [h.live_iff hrep, h.slot_eq]
    have hmem : Queued q s → (f.ord s).side ≤ 1 ∧
        (f.grid.tickOf (f.ord s).price = t ↔
          (f.ord s).price = cfg.priceMin + t * cfg.tick) := by
      intro hq
      have := hon.tickOf_iff hg (hrep.queued_mem hq) ht
      simp only [Order.resting] at this
      exact ⟨hrep.side_le hq, hfg ▸ this⟩
    constructor
    · intro hs
      have hq : Queued q s := ⟨_, _, hs⟩
      obtain ⟨h1, h2⟩ := hmem hq
      obtain ⟨e1, e2⟩ := hl.at_level hs
      exact ⟨hq, (laneOf_side h1 hside).mp e1, h2.mp e2⟩
    · rintro ⟨hq, e1, e2⟩
      obtain ⟨h1, h2⟩ := hmem hq
      have := hrep.own hq
      rwa [e1, h2.mpr e2] at this
  · rw [h.levelAt_eq, h.slot_eq]
    obtain ⟨s, l, e⟩ := List.exists_cons_of_ne_nil hne
    have hh := hl.fifo.head_eq
    rw [e] at hh
    rw [hh]
    exact (hl.fifo.link [] s l e).2
  · rw [h.slot_eq] at hn ⊢
    rw [h.slot_eq]
    obtain ⟨a, c, e⟩ := List.append_of_mem hs
    have hlink := (hl.fifo.link a s c e).1
    cases c with
    | nil => exact absurd hlink hn
    | cons s' c =>
      have hs' : (f.ord s).next = s' := hlink
      rw [hs']
      have := (hl.fifo.link (a ++ [s]) s' c (by simp [e])).2
      rw [List.getLastD_concat] at this
      exact this
  · rw [h.levelAt_eq]; exact hl.fifo.tail_eq
  · rw [h.levelAt_eq, hnil, htnil]
  · rw [h.levelAt_eq, htnil, hl.count, List.length_eq_zero_iff]
  · rw [h.levelAt_eq]; exact hl.count
  · rw [h.levelAt_eq, hl.qty, Ledger.levelQty, ← hl.recs, List.map_map]
    congr 1
    refine List.map_congr_left fun s _ => ?_
    rw [h.slot_eq]; rfl

theorem Shows.freeChain (h : b.Shows cap f) {fl : List Nat} (hfl : FreeList f L fl) :
    b.FreeChain fl := by
  have hfh : b.freeHead = f.freeHead := by rw [← h.view]; rfl
  refine ⟨?_, hfl.nodup, fun s hs => ?_, fun s => ?_, fun s hs => ?_⟩
  · rw [hfh]
    exact hfl.chain.congr fun s _ => by rw [h.slot_eq]; rfl
  · rw [h.slot_eq]
    exact ⟨((hfl.mem_iff s).mp hs).2, hfl.prev s hs⟩
  · rw [Live, hfl.mem_iff, h.slot_eq, h.hwm_eq]
    by_cases e : (f.ord s).orderId = 0 <;> simp [e]
  · rw [Live, h.slot_eq, ((hfl.mem_iff s).mp hs).2]
    exact fun hl => hl.2 rfl

theorem Shows.consistent (h : b.Shows cfg.cap f) (hh : f.Holds cfg.cap L) (hg : cfg.grid.Ok)
    (hfg : f.grid = cfg.grid) (hon : L.OnGrid cfg) : b.Consistent cfg L := by
  obtain ⟨q, fl, hrep, hfl, -⟩ := hh
  have hids : ∀ i, b.idmap i = f.ids i := fun i => by rw [← h.view]; rfl
  have hnl : f.grid.nLevels = cfg.levels := by rw [hfg]; rfl
  refine ⟨fun side hside t ht => ⟨_, h.levelQueue hrep hg hfg hon hside ht⟩, fun s hs => ?_,
    fun s hs => ?_, ⟨fl, h.freeChain hfl⟩, fun i s => ?_, fun i => ?_, ?_, ?_⟩
  · have hq := (h.live_iff hrep s).mp hs
    obtain ⟨hp, -⟩ := hon _ (hrep.queued_mem hq)
    rw [h.slot_eq]
    exact ⟨hrep.side_le hq, hp⟩
  · rw [h.slot_eq]
    exact hrep.queued_mem ((h.live_iff hrep s).mp hs)
  · rw [hids, h.live_iff hrep, h.slot_eq]
    exact hrep.ids i s
  · constructor
    · rintro ⟨s, e⟩
      rw [hids] at e
      obtain ⟨hq, rfl⟩ := (hrep.ids i s).mp e
      exact List.mem_map_of_mem (hrep.queued_mem hq)
    · intro hi
      obtain ⟨s, e, -⟩ := hrep.ids_isSome hi
      exact ⟨s, (hids i).trans e⟩
  · have e : b.bestBid = f.bestBid := by rw [← h.view]; rfl
    rw [e, ← hnl]
    exact hrep.bestBid.congr fun t _ => by rw [h.levelAt_eq]; rfl
  · have e : b.bestAsk = f.bestAsk := by rw [← h.view]; rfl
    rw [e, ← hnl]
    exact hrep.bestAsk.congr fun t _ => by rw [h.levelAt_eq]; rfl

end Book

theorem onGrid_after {cfg : SmrConfig} {L : Ledger} {ops : List Op} (h : L.OnGrid cfg)
    (hwf : WellFormed cfg L ops) (hfit : Fits cfg L ops) : (L.after ops).OnGrid cfg := by
  induction ops generalizing L with
  | nil => exact h
  | cons op ops ih => exact ih (h.apply hwf.1 hfit.1) hwf.2 hfit.2

/-- After every well-formed sequence of calls that fits the machine types, the
book has not stopped and shows exactly the resting orders. -/
theorem Book.consistent_after {cfg : SmrConfig} (hg : cfg.grid.Ok) {ops : List Op}
    (hwf : WellFormed cfg [] ops) (hfit : Fits cfg [] ops) :
    ∃ b, Book.run ops (Book.new cfg) = .ok () b ∧ b.Consistent cfg (Ledger.after [] ops) := by
  obtain ⟨hrun, hholds, hgrid⟩ := Book.run_holds hg rfl (Book.new_holds hg) hwf hfit
  obtain ⟨b, e, hb⟩ := hrun (Book.new cfg) (Book.new_shows cfg)
  have hon : (Ledger.after [] ops).OnGrid cfg := onGrid_after (by simp [Ledger.OnGrid]) hwf hfit
  exact ⟨b, e, hb.consistent hholds hg hgrid hon⟩

/-- A small book: an order is filled in part, one leaves from the middle of its
queue, and its slot is used again. -/
def smallBook : SmrConfig := ⟨4, 8, 5, -10, 2, 2, 100⟩

def smallRun : List Op :=
  [.insert 7 0 30 0, .insert 8 0 20 0, .insert 9 0 10 0, .update 7 12, .cancel 8,
    .insert 11 25 4 1, .fill 9]

theorem smallBook_ok : smallBook.grid.Ok := ⟨by decide, by decide, by decide, by decide, by decide⟩

theorem smallRun_wellFormed : WellFormed smallBook [] smallRun := by decide

theorem smallRun_fits : Fits smallBook [] smallRun := by decide

theorem Book.consistent_after_smallRun :
    ∃ b, Book.run smallRun (Book.new smallBook) = .ok () b ∧
      b.Consistent smallBook (Ledger.after [] smallRun) :=
  Book.consistent_after smallBook_ok smallRun_wellFormed smallRun_fits

/-- A ladder whose top level lies more than a 64-bit value above its bottom. -/
def wideLadder : SmrConfig := ⟨1, 4, 4611686018427387904, -9223372036854775808, 1, 1, 100⟩

/-- A pool with one slot more than there are slot numbers below the sentinel. -/
def hugePool : SmrConfig := ⟨4294967296, 1, 1, 0, 1, 1, 100⟩

/-- `n` bids at the bottom of the ladder. -/
@[irreducible] def bidsUpTo (n : Nat) : List Op :=
  (List.range n).map fun i : Nat => .insert (i + 1) 0 1 0

theorem wellFormed_append {cfg : SmrConfig} {L : Ledger} {ops post : List Op} :
    WellFormed cfg L (ops ++ post) ↔ WellFormed cfg L ops ∧ WellFormed cfg (L.after ops) post := by
  induction ops generalizing L with
  | nil => simp [WellFormed, Ledger.after]
  | cons o ops ih => simp only [List.cons_append, WellFormed, ih, Ledger.after_cons, and_assoc]

theorem WellFormed.prefix_of {cfg : SmrConfig} {L : Ledger} {ops pre : List Op}
    (h : WellFormed cfg L ops) (hpre : pre <+: ops) : WellFormed cfg L pre := by
  obtain ⟨post, rfl⟩ := hpre
  exact (wellFormed_append.mp h).1

theorem wellFormed_concat {cfg : SmrConfig} {L : Ledger} {ops : List Op} {op : Op} :
    WellFormed cfg L (ops ++ [op]) ↔ WellFormed cfg L ops ∧ op.WellFormed cfg (L.after ops) := by
  rw [wellFormed_append, WellFormed, WellFormed, and_true]

theorem fits_concat {cfg : SmrConfig} {L : Ledger} {ops : List Op} {op : Op} :
    Fits cfg L (ops ++ [op]) ↔ Fits cfg L ops ∧ op.Fits cfg (L.after ops) := by
  induction ops generalizing L with
  | nil => simp [Fits]
  | cons o ops ih => simp only [List.cons_append, Fits, ih, Ledger.after_cons, and_assoc]

/-- `n` bids at one price. -/
@[irreducible] def bidsAt (price : Int) (n : Nat) : List Op :=
  (List.range n).map fun i : Nat => .insert (i + 1) price 1 0

theorem bidsUpTo_eq (n : Nat) : bidsUpTo n = bidsAt 0 n := by
  unfold bidsUpTo bidsAt
  rfl

theorem bidsAt_zero (price : Int) : bidsAt price 0 = [] := by simp [bidsAt]

theorem bidsAt_succ (price : Int) (n : Nat) :
    bidsAt price (n + 1) = bidsAt price n ++ [.insert (n + 1) price 1 0] := by
  simp [bidsAt, List.range_succ]

theorem after_bidsAt (price : Int) (n : Nat) : Ledger.after [] (bidsAt price n) =
    (List.range n).map fun i : Nat => (⟨i + 1, price, 1, 0, 0⟩ : Resting) := by
  induction n with
  | zero => rw [bidsAt_zero]; rfl
  | succ n ih =>
    rw [bidsAt_succ, Ledger.after_append, ih, List.range_succ, List.map_append]
    rfl

theorem after_bidsAt_length (price : Int) (n : Nat) :
    (Ledger.after [] (bidsAt price n)).length = n := by
  rw [after_bidsAt, List.length_map, List.length_range]

/-- One more of them is well-formed, under any id beyond theirs. -/
theorem bidsAt_next_wellFormed {cfg : SmrConfig} (hg : cfg.grid.Ok) {n : Nat} (hn : n < cfg.cap)
    (hn' : n < 4294967296) {orderId : Int} (hid : n < orderId) (hid' : orderId ≤ 4294967297) :
    (Op.insert orderId cfg.priceMin 1 0).WellFormed cfg (Ledger.after [] (bidsAt cfg.priceMin n)) := by
  have hq := @Ledger.levelQty_le (Ledger.after [] (bidsAt cfg.priceMin n)) 1 (by omega)
    (fun r hr => by
      rw [after_bidsAt] at hr
      obtain ⟨i, -, rfl⟩ := List.mem_map.mp hr
      exact Int.le_refl 1)
    cfg.grid (laneOf 0) (cfg.grid.tickOf cfg.priceMin)
  rw [after_bidsAt_length] at hq
  refine ⟨⟨⟨by omega, by omega⟩, hg.priceMin_i64, by decide⟩, by omega, ?_,
    ⟨0, hg.levels_pos, by simp⟩, by omega, by omega, ?_, ?_⟩
  · simp only [after_bidsAt, Ledger.ids, List.map_map, List.mem_map, List.mem_range,
      Function.comp_apply, not_exists, not_and]
    omega
  · rw [after_bidsAt_length]
    exact hn
  · omega

/-- They are well-formed for a pool of any size they do not exceed. -/
theorem bidsAt_wellFormed {cfg : SmrConfig} (hg : cfg.grid.Ok) {n : Nat} (hn : n ≤ cfg.cap)
    (hn' : n ≤ 4294967296) : WellFormed cfg [] (bidsAt cfg.priceMin n) := by
  induction n with
  | zero => rw [bidsAt_zero]; trivial
  | succ n ih =>
    rw [bidsAt_succ, wellFormed_concat]
    exact ⟨ih (by omega) (by omega), bidsAt_next_wellFormed hg hn hn' (by omega) (by omega)⟩

theorem bidsAt_fits {cfg : SmrConfig} {n : Nat} (hn : n ≤ NIL) :
    Fits cfg [] (bidsAt cfg.priceMin n) := by
  induction n with
  | zero => rw [bidsAt_zero]; trivial
  | succ n ih =>
    rw [bidsAt_succ, fits_concat]
    refine ⟨ih (by omega), ?_, ?_⟩
    · rw [Int.sub_self]
      decide
    · rw [after_bidsAt_length]
      exact hn

theorem bidsUpTo_succ (n : Nat) : bidsUpTo (n + 1) = bidsUpTo n ++ [.insert (n + 1) 0 1 0] := by
  rw [bidsUpTo_eq, bidsUpTo_eq, bidsAt_succ]

theorem after_bidsUpTo (n : Nat) : Ledger.after [] (bidsUpTo n) =
    (List.range n).map fun i : Nat => (⟨i + 1, 0, 1, 0, 0⟩ : Resting) := by
  rw [bidsUpTo_eq, after_bidsAt]

theorem hugePool_ok : hugePool.grid.Ok := ⟨by decide, by decide, by decide, by decide, by decide⟩

theorem bidsUpTo_wellFormed {n : Nat} (hn : n ≤ 4294967296) :
    WellFormed hugePool [] (bidsUpTo n) := by
  rw [bidsUpTo_eq]
  exact bidsAt_wellFormed hugePool_ok hn hn

theorem bidsUpTo_fits {n : Nat} (hn : n ≤ NIL) : Fits hugePool [] (bidsUpTo n) := by
  rw [bidsUpTo_eq]
  exact bidsAt_fits hn

/-- With as many orders resting as there are slot numbers, the next one gets
the sentinel as its slot. -/
theorem last_slot {cfg : SmrConfig} (hg : cfg.grid.Ok) (hcap : NIL < cfg.cap) {ops : List Op}
    (hwf : WellFormed cfg [] ops) (hfit : Fits cfg [] ops)
    (hlen : (Ledger.after [] ops).length = NIL) :
    ∃ f b, f.Holds cfg.cap (Ledger.after [] ops) ∧ f.grid = cfg.grid ∧ f.hwm = NIL ∧
      f.freeHead = NIL ∧ Book.run ops (Book.new cfg) = .ok () b ∧ b.Shows cfg.cap f ∧
      ∀ (orderId price qty : Int) (side : Nat), cfg.grid.tickOf price < cfg.levels →
        ∃ b', Book.apply (.insert orderId price qty side) b = .ok () b' ∧
          b'.Shows cfg.cap (f.insert ⟨orderId, price, qty, 0, side⟩) := by
  obtain ⟨hrun, hholds, hgrid⟩ := Book.run_holds hg rfl (Book.new_holds hg) hwf hfit
  set f := (Book.new cfg).view.steps ops
  clear_value f
  obtain ⟨q, fl, hrep, hfl, hle⟩ := id hholds
  have hcount := hfl.count
  have hmax := hrep.hwm_le
  have hfl0 : fl = [] := List.eq_nil_of_length_eq_zero (by omega)
  have hhwm : f.hwm = NIL := by omega
  have hfree : f.freeHead = NIL := hfl.chain.eq_nil_iff.mpr hfl0
  obtain ⟨b, e, hb⟩ := hrun _ (Book.new_shows cfg)
  refine ⟨f, b, hholds, hgrid, hhwm, hfree, e, hb, fun orderId price qty side ht => ?_⟩
  refine Book.insert_runs_of hrep.grid_ok ?_ (fun h => absurd hfree h) (fun _ => ?_) ?_
    (fun x t ht => Nat.lt_of_lt_of_le (hrep.tail_lt ht) hle) b hb
  · rw [hgrid]
    exact ht
  · rw [hhwm]
    omega
  · rw [Flat.nextSlot, if_neg (not_not.mpr hfree), hhwm]
    exact hcap

theorem hugePool_last : ∃ f b, f.Holds hugePool.cap (Ledger.after [] (bidsUpTo NIL)) ∧
    f.grid = hugePool.grid ∧ f.hwm = NIL ∧ f.freeHead = NIL ∧
    Book.run (bidsUpTo NIL) (Book.new hugePool) = .ok () b ∧ b.Shows hugePool.cap f ∧
    ∀ orderId, ∃ b', Book.apply (.insert orderId 0 1 0) b = .ok () b' ∧
      b'.Shows hugePool.cap (f.insert ⟨orderId, 0, 1, 0, 0⟩) := by
  have hwf : WellFormed hugePool [] (bidsUpTo NIL) := bidsUpTo_wellFormed (by decide)
  have hfit : Fits hugePool [] (bidsUpTo NIL) := bidsUpTo_fits (Nat.le_refl NIL)
  have hlen : (Ledger.after [] (bidsUpTo NIL)).length = NIL := by
    rw [after_bidsUpTo, List.length_map, List.length_range]
  obtain ⟨f, b, hholds, hgrid, hhwm, hfree, e, hb, hlast⟩ :=
    last_slot hugePool_ok (by decide) hwf hfit hlen
  exact ⟨f, b, hholds, hgrid, hhwm, hfree, e, hb, fun orderId => hlast orderId 0 1 0 (by decide)⟩

/-- The mark of used slots starts over when the last slot number is given out. -/
theorem insert_wraps {f : Flat} (hhwm : f.hwm = NIL) (hfree : f.freeHead = NIL) (r : Resting) :
    (f.insert r).hwm = 0 := by
  rw [insert_hwm, Flat.alloc, if_neg (not_not.mpr hfree)]
  simp only [hhwm, NIL, u32]
  omega

theorem hugePool_wraps : ∃ b, Book.run (bidsUpTo (NIL + 1)) (Book.new hugePool) = .ok () b ∧
    b.hwm = 0 := by
  obtain ⟨f, b, -, -, hhwm, hfree, e, -, hlast⟩ := hugePool_last
  obtain ⟨b', e', hb'⟩ := hlast (NIL + 1)
  refine ⟨b', ?_, hb'.hwm_eq.trans (insert_wraps hhwm hfree _)⟩
  rw [bidsUpTo_succ]
  exact runAll_append_eq_ok.mpr ⟨b, e, runAll_cons_eq_ok.mpr ⟨b', e', rfl⟩⟩

theorem hugePool_overflows : ∃ b, Book.run (bidsUpTo (NIL + 1)) (Book.new hugePool) = .ok () b ∧
    ¬ b.Consistent hugePool (Ledger.after [] (bidsUpTo (NIL + 1))) := by
  obtain ⟨b, e, hzero⟩ := hugePool_wraps
  refine ⟨b, e, fun hc => ?_⟩
  have hid : (1 : Int) ∈ (Ledger.after [] (bidsUpTo (NIL + 1))).ids := by
    rw [after_bidsUpTo, Ledger.ids, List.map_map, List.mem_map]
    exact ⟨0, List.mem_range.mpr (by decide), rfl⟩
  obtain ⟨s, hs⟩ := (hc.ids_dom 1).mpr hid
  have := ((hc.ids 1 s).mp hs).1.1
  omega

/-- Both bounds of `Fits` are needed: a price offset beyond 64 bits stops the
book, and one order more than there are slot numbers corrupts it. -/
theorem Book.inconsistent_without_fits :
    (wideLadder.grid.Ok ∧ WellFormed wideLadder [] [.insert 1 4611686018427387904 1 0] ∧
      ∃ b, Book.run [.insert 1 4611686018427387904 1 0] (Book.new wideLadder) =
        .error .indexOutOfBounds b) ∧
    (hugePool.grid.Ok ∧ WellFormed hugePool [] (bidsUpTo (NIL + 1)) ∧
      ∃ b, Book.run (bidsUpTo (NIL + 1)) (Book.new hugePool) = .ok () b ∧
        ¬ b.Consistent hugePool (Ledger.after [] (bidsUpTo (NIL + 1)))) := by
  refine ⟨⟨⟨by decide, by decide, by decide, by decide, by decide⟩, by decide, _, rfl⟩,
    ⟨by decide, by decide, by decide, by decide, by decide⟩,
    bidsUpTo_wellFormed (n := NIL + 1) (by decide), hugePool_overflows⟩

end HiPerf
