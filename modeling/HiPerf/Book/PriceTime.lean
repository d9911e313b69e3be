import HiPerf.Book.Invariant

/-!
The book as a price-time-priority book: a finite map from ids to orders and a
queue of ids at each level of each side. The book's chains show one, and every
call does to it what price-time priority asks.
-/

namespace HiPerf

open Machine Exec Fifo

/-- What the abstract book knows of an order. -/
structure Entry where
  price : Int
  qty : Int
  filled : Int
  side : Nat
  deriving DecidableEq, Repr

/-- The abstract book: the resting orders by id, and each level's ids in time
priority. -/
structure PriceTime where
  orders : Int → Option Entry
  queue : Lane → Nat → List Int

namespace PriceTime

def empty : PriceTime := ⟨fun _ => none, fun _ _ => []⟩

/-- The level a price belongs to. -/
def levelOf (g : Grid) (price : Int) : Nat := ((price - g.priceMin) / g.tick).toNat

/-- An order departs: it leaves the map and its queue, and the others keep
their order. -/
def depart (a : PriceTime) (orderId : Int) : PriceTime where
  orders i := if i = orderId then none else a.orders i
  queue x t := (a.queue x t).filter fun i => i ≠ orderId

/-- What each call asks of the abstract book. -/
def apply (g : Grid) (a : PriceTime) : Op → PriceTime
  | .insert orderId price qty side =>
    { orders := fun i => if i = orderId then some ⟨price, qty, 0, side⟩ else a.orders i
      queue := fun x t =>
        if x = laneOf side ∧ t = levelOf g price then a.queue x t ++ [orderId] else a.queue x t }
  | .update orderId fillQty =>
    { orders := fun i =>
        if i = orderId then
          (a.orders i).map fun e => { e with filled := min (e.filled + fillQty) e.qty }
        else a.orders i
      queue := a.queue }
  | .cancel orderId => a.depart orderId
  | .fill orderId => a.depart orderId

end PriceTime

def Order.entry (o : Order) : Entry := ⟨o.price, o.qty, o.filled, o.side⟩

def Resting.entry (r : Resting) : Entry := ⟨r.price, r.qty, r.filled, r.side⟩

/-- The abstract book a book shows: the id-map's orders, and the ids found by
following `next` from each level's head. -/
def Book.priceTime (b : Book) : PriceTime where
  orders i := (b.idmap i).map fun s => (b.slot s).entry
  queue x t :=
    (walk NIL (fun s => (b.slot s).next) b.pool.size
      (b.levelAt (match x with | .bid => 0 | .ask => 1) t).head).map fun s => (b.slot s).orderId

namespace Ledger

/-- The resting order with a given id. -/
def lookup (L : Ledger) (orderId : Int) : Option Resting := L.find? fun r => r.orderId = orderId

/-- The abstract book of a ledger. -/
def priceTime (L : Ledger) (g : Grid) : PriceTime where
  orders i := (L.lookup i).map Resting.entry
  queue x t := (L.atLevel g x t).map Resting.orderId

theorem lookup_mem {L : Ledger} (hn : L.ids.Nodup) {r : Resting} (hr : r ∈ L) :
    L.lookup r.orderId = some r := by
  obtain ⟨A, B, rfl, hA, -⟩ := split_mem hn hr
  rw [lookup, List.find?_append, List.find?_eq_none.mpr (by simpa using hA)]
  simp

theorem lookup_not_mem {L : Ledger} {i : Int} (hi : i ∉ L.ids) : L.lookup i = none := by
  rw [lookup, List.find?_eq_none]
  intro x hx e
  exact hi (List.mem_map.mpr ⟨x, hx, of_decide_eq_true e⟩)

theorem priceTime_insert {cfg : SmrConfig} (hg : cfg.grid.Ok) {L : Ledger}
    {orderId price qty : Int} {side : Nat}
    (hwf : (Op.insert orderId price qty side).WellFormed cfg L)
    (hfit : (Op.insert orderId price qty side).Fits cfg L) :
    (L.apply (.insert orderId price qty side)).priceTime cfg.grid =
      (L.priceTime cfg.grid).apply cfg.grid (.insert orderId price qty side) := by
  obtain ⟨-, -, hnew, ⟨t₀, ht₀, hp⟩, -, -, -, -⟩ := hwf
  have hlevel : PriceTime.levelOf cfg.grid price = cfg.grid.tickOf price := by
    have htick := hg.tick_pos
    rw [Grid.tickOf_onGrid hg ht₀ hp hfit.1, PriceTime.levelOf]
    have e : price - cfg.grid.priceMin = t₀ * cfg.grid.tick := by
      change price - cfg.priceMin = t₀ * cfg.tick
      omega
    rw [e, Int.mul_ediv_cancel _ (by omega)]
    rfl
  simp only [priceTime, PriceTime.apply, apply, PriceTime.mk.injEq]
  constructor
  · funext i
    have hend : lookup (L ++ [⟨orderId, price, qty, 0, side⟩]) i =
        (L.lookup i).or (if orderId = i then some ⟨orderId, price, qty, 0, side⟩ else none) := by
      rw [lookup, List.find?_append]
      simp only [List.find?_cons, List.find?_nil, lookup]
      by_cases e : orderId = i <;> simp [e]
    rw [hend]
    by_cases e : i = orderId
    · subst e
      rw [lookup_not_mem hnew]
      simp [Resting.entry]
    · rw [if_neg e, if_neg (Ne.symm e)]
      cases L.lookup i <;> rfl
  · funext x t
    simp only [atLevel, List.filter_append, List.filter_cons, List.filter_nil, Resting.At,
      decide_eq_true_eq, List.map_append, hlevel]
    by_cases e : x = laneOf side ∧ t = cfg.grid.tickOf price
    · rw [if_pos ⟨e.1.symm, e.2.symm⟩, if_pos e]
      rfl
    · rw [if_neg fun h => e ⟨h.1.symm, h.2.symm⟩, if_neg e]
      simp

theorem priceTime_update {L : Ledger} (g : Grid) (orderId n : Int) :
    (L.apply (.update orderId n)).priceTime g = (L.priceTime g).apply g (.update orderId n) := by
  have hid : ∀ r : Resting,
      (if r.orderId = orderId then r.fillBy n else r).orderId = r.orderId := by
    intro r; split <;> rfl
  simp only [priceTime, PriceTime.apply, PriceTime.mk.injEq]
  constructor
  · funext i
    have hmap : (L.apply (.update orderId n)).lookup i = (L.lookup i).map fun r =>
        if r.orderId = orderId then r.fillBy n else r := by
      simp only [apply, lookup, List.find?_map, Function.comp_def, hid]
    rw [hmap]
    cases e : L.lookup i with
    | none => simp
    | some r =>
      have hr : r.orderId = i := by simpa using List.find?_some e
      by_cases hi : i = orderId
      · simp only [Option.map_some, hr, hi, if_true, Resting.entry, Resting.fillBy,
          Option.some.injEq, Entry.mk.injEq, true_and, and_true]
        omega
      · simp [hr, hi]
  · funext x t
    rw [atLevel_update, List.map_map]
    exact List.map_congr_left fun r _ => hid r

theorem priceTime_cancel {L : Ledger} (g : Grid) (orderId : Int) :
    (L.apply (.cancel orderId)).priceTime g = (L.priceTime g).depart orderId := by
  simp only [priceTime, PriceTime.depart, PriceTime.mk.injEq]
  constructor
  · funext i
    by_cases e : i = orderId
    · subst e
      rw [if_pos rfl, lookup_not_mem]
      · rfl
      · simp [ids, apply]
    · have hkeep : (L.apply (.cancel orderId)).lookup i = L.lookup i := by
        rw [apply, lookup, lookup, List.find?_filter]
        congr 1
        funext r
        by_cases hr : r.orderId = i
        · simp [hr, e]
        · simp [hr]
      rw [if_neg e, hkeep]
  · funext x t
    rw [atLevel_cancel, List.filter_map]
    rfl

/-- The abstract book of the ledger takes each call as price-time priority asks. -/
theorem priceTime_apply {cfg : SmrConfig} (hg : cfg.grid.Ok) {L : Ledger} {op : Op}
    (hwf : op.WellFormed cfg L) (hfit : op.Fits cfg L) :
    (L.apply op).priceTime cfg.grid = (L.priceTime cfg.grid).apply cfg.grid op := by
  cases op with
  | insert orderId price qty side => exact priceTime_insert hg hwf hfit
  | update orderId n => exact priceTime_update cfg.grid orderId n
  | cancel orderId => exact priceTime_cancel cfg.grid orderId
  | fill orderId => exact priceTime_cancel cfg.grid orderId

end Ledger

namespace Book

variable {b : Book} {f : Flat} {L : Ledger} {cap : Nat}

theorem levelAt_lane (h : b.Shows cap f) (x : Lane) (t : Nat) :
    b.levelAt (match x with | .bid => 0 | .ask => 1) t = f.lvl x t := by
  cases x <;> exact h.levelAt_eq _ t

/-- What the chains show is the ledger's abstract book. -/
theorem Shows.priceTime_eq (h : b.Shows cap f) (hh : f.Holds cap L) :
    b.priceTime = L.priceTime f.grid := by
  obtain ⟨q, fl, hrep, -, hcap⟩ := hh
  have hnext : (fun s => (b.slot s).next) = f.next := by
    funext s; rw [h.slot_eq]; rfl
  simp only [priceTime, Ledger.priceTime, PriceTime.mk.injEq]
  constructor
  · funext i
    have hids : b.idmap i = f.ids i := by rw [← h.view]; rfl
    rw [hids]
    by_cases hi : i ∈ L.ids
    · obtain ⟨s, e, hq, rfl⟩ := hrep.ids_isSome hi
      have hr : L.lookup (f.ord s).orderId = some (f.ord s).resting :=
        Ledger.lookup_mem hrep.valid.nodup (hrep.queued_mem hq)
      rw [e, hr, Option.map_some, h.slot_eq]
      rfl
    · rw [hrep.ids_none hi, Ledger.lookup_not_mem hi]
      rfl
  · funext x t
    have hl := hrep.queues x t
    have hlen := hrep.queues.length_le hrep.valid.nodup x t
    rw [levelAt_lane h, hnext, hl.fifo.chain.walk_eq (h.pool ▸ hlen.trans hcap), ← hl.recs,
      List.map_map]
    refine List.map_congr_left fun s _ => ?_
    rw [h.slot_eq]
    rfl

theorem Shows.best_eq (h : b.Shows cap f) (hh : f.Holds cap L) :
    Ladder.IsHighest (fun t => b.priceTime.queue .bid t ≠ []) f.grid.nLevels b.bestBid ∧
    Ladder.IsLowest (fun t => b.priceTime.queue .ask t ≠ []) f.grid.nLevels b.bestAsk := by
  rw [h.priceTime_eq hh]
  obtain ⟨q, fl, hrep, -, -⟩ := hh
  have e₁ : b.bestBid = f.bestBid := by rw [← h.view]; rfl
  have e₂ : b.bestAsk = f.bestAsk := by rw [← h.view]; rfl
  have hocc : ∀ x t, (L.priceTime f.grid).queue x t ≠ [] ↔ (f.lvl x t).head ≠ NIL := by
    intro x t
    rw [hrep.queues.occupied_iff, Ledger.priceTime, ne_eq, List.map_eq_nil_iff]
  rw [e₁, e₂]
  exact ⟨hrep.bestBid.congr fun t _ => hocc .bid t, hrep.bestAsk.congr fun t _ => hocc .ask t⟩

/-- After any well-formed sequence of calls, the next call does to the abstract
book what price-time priority asks, and the cached bests are its best levels. -/
theorem refines_priceTime {cfg : SmrConfig} (hg : cfg.grid.Ok) {ops : List Op} {op : Op}
    (hwf : WellFormed cfg [] (ops ++ [op])) (hfit : Fits cfg [] (ops ++ [op])) :
    (Book.new cfg).priceTime = PriceTime.empty ∧
    ∃ b b', Book.run ops (Book.new cfg) = .ok () b ∧ Book.apply op b = .ok () b' ∧
      b'.priceTime = b.priceTime.apply cfg.grid op ∧
      Ladder.IsHighest (fun t => b'.priceTime.queue .bid t ≠ []) cfg.levels b'.bestBid ∧
      Ladder.IsLowest (fun t => b'.priceTime.queue .ask t ≠ []) cfg.levels b'.bestAsk := by
  obtain ⟨hwf, hop⟩ := wellFormed_concat.mp hwf
  obtain ⟨hfit, hopfit⟩ := fits_concat.mp hfit
  obtain ⟨hrun, hholds, hgrid⟩ := run_holds hg rfl (new_holds hg) hwf hfit
  have hready := hgrid ▸ hop.ready hg hopfit
  obtain ⟨b, e, hb⟩ := hrun _ (new_shows cfg)
  obtain ⟨b', e', hb'⟩ := apply_runs hholds hready b hb
  have hholds' := hholds.step hready
  have hgrid' := (Flat.step_grid _ op).trans hgrid
  refine ⟨(new_shows cfg).priceTime_eq (new_holds hg), b, b', e, e', ?_, ?_⟩
  · rw [hb'.priceTime_eq hholds', hb.priceTime_eq hholds, hgrid', hgrid]
    exact Ledger.priceTime_apply hg hop hopfit
  · have hbest := hb'.best_eq hholds'
    rw [hgrid'] at hbest
    exact hbest

theorem refines_priceTime_smallRun :
    (Book.new smallBook).priceTime = PriceTime.empty ∧
    ∃ b b', Book.run (smallRun.dropLast) (Book.new smallBook) = .ok () b ∧
      Book.apply (.fill 9) b = .ok () b' ∧
      b'.priceTime = b.priceTime.apply smallBook.grid (.fill 9) ∧
      Ladder.IsHighest (fun t => b'.priceTime.queue .bid t ≠ []) smallBook.levels b'.bestBid ∧
      Ladder.IsLowest (fun t => b'.priceTime.queue .ask t ≠ []) smallBook.levels b'.bestAsk :=
  refines_priceTime smallBook_ok smallRun_wellFormed smallRun_fits

/-- No chain can show the order whose slot is the sentinel. -/
theorem hugePool_unseen {f : Flat} {b b' : Book}
    (hh : f.Holds hugePool.cap (Ledger.after [] (bidsUpTo NIL))) (hhwm : f.hwm = NIL)
    (hfree : f.freeHead = NIL) (hb' : b'.Shows hugePool.cap (f.insert ⟨NIL + 1, 0, 1, 0, 0⟩)) :
    b'.priceTime ≠ b.priceTime.apply hugePool.grid (.insert (NIL + 1) 0 1 0) := by
  obtain ⟨q, fl, hrep, hfl, -⟩ := hh
  intro e
  have hmem : ((NIL : Int) + 1) ∈ b'.priceTime.queue .bid 0 := by
    have hlevel : PriceTime.levelOf hugePool.grid 0 = 0 := by decide
    rw [e]
    simp [PriceTime.apply, laneOf, hlevel]
  obtain ⟨s, hs, hid⟩ := List.mem_map.mp hmem
  have hne : s ≠ NIL := by
    rintro rfl
    exact nil_not_mem_walk _ _ hs
  have hslot : f.nextSlot = NIL := by rw [Flat.nextSlot, if_neg (not_not.mpr hfree), hhwm]
  rw [hb'.slot_eq, insert_orderId, hslot, if_neg hne] at hid
  by_cases hlt : s < f.hwm
  · have hq := hrep.live s hlt (by omega)
    have hin : (f.ord s).orderId ∈ (Ledger.after [] (bidsUpTo NIL)).ids :=
      List.mem_map_of_mem (hrep.queued_mem hq)
    rw [after_bidsUpTo, Ledger.ids, List.map_map] at hin
    obtain ⟨i, hi, ei⟩ := List.mem_map.mp hin
    have := List.mem_range.mp hi
    simp only [Function.comp_apply] at ei
    omega
  · have hzero : (f.ord s).orderId = 0 := by rw [hfl.fresh s (by omega)]; rfl
    omega

/-- The same two bounds are needed here. -/
theorem not_refines_without_fits :
    (wideLadder.grid.Ok ∧ WellFormed wideLadder [] [.insert 1 4611686018427387904 1 0] ∧
      ∃ b, Book.apply (.insert 1 4611686018427387904 1 0) (Book.new wideLadder) =
        .error .indexOutOfBounds b) ∧
    (hugePool.grid.Ok ∧ WellFormed hugePool [] (bidsUpTo NIL ++ [.insert (NIL + 1) 0 1 0]) ∧
      ∃ b b', Book.run (bidsUpTo NIL) (Book.new hugePool) = .ok () b ∧
        Book.apply (.insert (NIL + 1) 0 1 0) b = .ok () b' ∧
        b'.priceTime ≠ b.priceTime.apply hugePool.grid (.insert (NIL + 1) 0 1 0)) := by
  have hg : hugePool.grid.Ok := ⟨by decide, by decide, by decide, by decide, by decide⟩
  have hwf : WellFormed hugePool [] (bidsUpTo (NIL + 1)) := bidsUpTo_wellFormed (by decide)
  rw [bidsUpTo_succ] at hwf
  obtain ⟨f, b, hh, -, hhwm, hfree, e, -, hlast⟩ := hugePool_last
  obtain ⟨b', e', hb'⟩ := hlast (NIL + 1)
  exact ⟨⟨⟨by decide, by decide, by decide, by decide, by decide⟩, by decide, _, rfl⟩,
    hg, hwf, b, b', e, e', hugePool_unseen hh hhwm hfree hb'⟩

end Book

end HiPerf
