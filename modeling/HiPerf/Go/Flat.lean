import HiPerf.Book.Run
import HiPerf.Go.Book
import HiPerf.Go.Trace

/-!
The Go book as a memory. Its slots show what the memory has below the mark, and its id map
what the ids of the memory are; each call does to the memory what the step does.
-/

namespace HiPerf.Go

open Machine Exec

/-- The map answers as `ids` does. -/
def Indexes (size : Nat) (m : IdMap) (ids : HiPerf.IdMap) : Prop :=
  ∃ L : Contents, m.Holds size L ∧ ∀ k, L.valueOf k = ids k

/-- No table of `size` places is full with these ids. -/
def Few (size : Nat) (ids : HiPerf.IdMap) : Prop :=
  ∀ L : Contents, L.keys.Nodup → (∀ k, L.valueOf k = ids k) → L.length < size

namespace Indexes

variable {size slot : Nat} {m : IdMap} {ids : HiPerf.IdMap} {orderId : Int}

theorem get (h : Indexes size m ids) (hfew : Few size ids) (orderId : Int) :
    m.get orderId = some ((ids orderId).getD NIL) := by
  obtain ⟨L, hholds, hids⟩ := h
  rw [hholds.get (hfew L hholds.nodup hids), hids]

theorem put (h : Indexes size m ids) (hfew : Few size ids) (hne : orderId ≠ 0) (slot : Nat) :
    ∃ m', m.put orderId slot = some m' ∧ Indexes size m' (ids.insert orderId slot) := by
  obtain ⟨L, hholds, hids⟩ := h
  obtain ⟨m', e, -, h'⟩ := hholds.put (hfew L hholds.nodup hids) hne slot
  refine ⟨m', e, _, h', fun k => ?_⟩
  rw [Contents.valueOf_put, hids]
  rfl

theorem del (h : Indexes size m ids) (hfew : Few size ids) (hne : orderId ≠ 0) :
    ∃ m', m.del orderId = some m' ∧ Indexes size m' (ids.remove orderId) := by
  obtain ⟨L, hholds, hids⟩ := h
  obtain ⟨m', e, -, h'⟩ := hholds.del (hfew L hholds.nodup hids) hne
  refine ⟨m', e, _, h', fun k => ?_⟩
  rw [Contents.valueOf_del, hids]
  rfl

end Indexes

/-- The levels of a lane of `n` levels. -/
structure Rows (ls : Array PriceLevel) (n : Nat) (lvl : Nat → PriceLevel) : Prop where
  size : ls.size = n
  get : ∀ t < n, ls[t]? = some (lvl t)

theorem Rows.set {ls : Array PriceLevel} {n t : Nat} {lvl : Nat → PriceLevel} (h : Rows ls n lvl)
    (ht : t < n) (l : PriceLevel) :
    Rows (ls.setIfInBounds t l) n fun u => if u = t then l else lvl u where
  size := Array.size_setIfInBounds.trans h.size
  get u hu := by
    rw [Array.getElem?_setIfInBounds]
    by_cases e : t = u
    · rw [if_pos e, if_pos (h.size.symm ▸ ht), if_pos e.symm]
    · rw [if_neg e, if_neg (Ne.symm e), h.get u hu]

/-- The book has room for `cap` orders, its map has `size` places, and its memory is `v.2`,
of which it shows the slots below `v.1`. -/
structure Book.Shows (cap size : Nat) (b : Book) (v : Nat × Flat) : Prop where
  priceMin : b.priceMin = v.2.grid.priceMin
  tick : b.tick = v.2.grid.tick
  nLevels : b.nLevels = v.2.grid.nLevels
  pool : b.pool.size = cap
  order : ∀ s < v.1, b.pool[s]? = some (v.2.ord s)
  bids : Rows b.bids v.2.grid.nLevels (v.2.lvl .bid)
  asks : Rows b.asks v.2.grid.nLevels (v.2.lvl .ask)
  hwm : b.hwm = v.2.hwm
  freeHead : b.freeHead = v.2.freeHead
  bestBid : b.bestBid = v.2.bestBid
  bestAsk : b.bestAsk = v.2.bestAsk
  ids : Indexes size b.ids v.2.ids

namespace Book

variable {cap size n s t side slot : Nat} {f : Flat} {orderId : Int}

theorem Shows.lane {b : Book} (h : b.Shows cap size (n, f)) (side : Nat) :
    Rows (b.lane side) f.grid.nLevels (f.lvl (laneOf side)) := by
  unfold Book.lane laneOf
  split
  · exact h.bids
  · exact h.asks

theorem tickOf_runs (htick : 0 < f.grid.tick) (price : Int) :
    Runs (Shows cap size) (tickOf price) (n, f) (f.grid.tickOf price) (n, f) := by
  refine Runs.get_bind fun b hb => ?_
  have hgrid : u32 ((i64 (price - b.priceMin)).tdiv b.tick) = f.grid.tickOf price := by
    rw [hb.priceMin, hb.tick]
    rfl
  have htick' := hb.tick
  rw [hgrid, if_neg (show b.tick ≠ 0 by dsimp only at htick'; omega)]
  exact Runs.pure _

theorem order_runs (hs : s < n) : Runs (Shows cap size) (order s) (n, f) (f.ord s) (n, f) := by
  intro b hb
  refine ⟨b, ?_, hb⟩
  rw [order, hb.order s hs]

/-- A slot written, one of those that show or the next one. -/
theorem setOrder_runs (hs : s ≤ n) (hcap : s < cap) (o : Order) :
    Runs (Shows cap size) (setOrder s o) (n, f) () (max n (s + 1), f.setOrd s o) := by
  intro b hb
  have hpool := hb.pool
  refine ⟨{ b with pool := b.pool.setIfInBounds s o }, ?_, { hb with
    pool := by simpa using hpool
    order := fun y hy => ?_ }⟩
  · rw [setOrder, if_pos (hpool ▸ hcap)]
  · dsimp only at hy ⊢
    rw [Array.getElem?_setIfInBounds]
    by_cases e : s = y
    · rw [if_pos e, if_pos (hpool ▸ hcap)]
      exact congrArg some (if_pos e.symm).symm
    · rw [if_neg e, hb.order y (show y < n by omega)]
      exact congrArg some (if_neg (Ne.symm e)).symm

theorem level_runs (side : Nat) (ht : t < f.grid.nLevels) :
    Runs (Shows cap size) (level side t) (n, f) (f.lvl (laneOf side) t) (n, f) := by
  intro b hb
  refine ⟨b, ?_, hb⟩
  rw [level, (hb.lane side).get t ht]

theorem setLevel_runs (side : Nat) (ht : t < f.grid.nLevels) (l : PriceLevel) :
    Runs (Shows cap size) (setLevel side t l) (n, f) () (n, f.setLvl (laneOf side) t l) := by
  intro b hb
  have hlane := hb.lane side
  have hsize : t < (b.lane side).size := hlane.size.symm ▸ ht
  have hset := hlane.set ht l
  rw [setLevel, if_pos hsize]
  refine ⟨_, rfl, ?_⟩
  by_cases hside : side = 0
  · have hlast : laneOf side = .bid := if_pos hside
    rw [lane, if_pos hside, hlast] at hset
    rw [if_pos hside, hlast]
    exact { hb with
      bids := (Flat.setLvl_self f .bid t l).symm ▸ hset
      asks := (Flat.setLvl_other f (x := .bid) (y := .ask) nofun t l).symm ▸ hb.asks }
  · have hlast : laneOf side = .ask := if_neg hside
    rw [lane, if_neg hside, hlast] at hset
    rw [if_neg hside, hlast]
    exact { hb with
      bids := (Flat.setLvl_other f (x := .ask) (y := .bid) nofun t l).symm ▸ hb.bids
      asks := (Flat.setLvl_self f .ask t l).symm ▸ hset }

theorem setNext_runs (hs : s < n) (hcap : s < cap) (v : Nat) :
    Runs (Shows cap size) (setNext s v) (n, f) () (n, f.setOrd s { f.ord s with next := v }) := by
  have hset := @setOrder_runs cap size n s f hs.le hcap { f.ord s with next := v }
  rw [Nat.max_eq_left hs] at hset
  exact (order_runs hs).bind hset

theorem setPrev_runs (hs : s < n) (hcap : s < cap) (v : Nat) :
    Runs (Shows cap size) (setPrev s v) (n, f) () (n, f.setOrd s { f.ord s with prev := v }) := by
  have hset := @setOrder_runs cap size n s f hs.le hcap { f.ord s with prev := v }
  rw [Nat.max_eq_left hs] at hset
  exact (order_runs hs).bind hset

theorem getSlot_runs (hfew : Few size f.ids) (h : f.ids orderId = some slot) :
    Runs (Shows cap size) (getSlot orderId) (n, f) slot (n, f) := by
  intro b hb
  refine ⟨b, ?_, hb⟩
  rw [getSlot, hb.ids.get hfew, h]
  rfl

theorem putId_runs (hfew : Few size f.ids) (hne : orderId ≠ 0) (slot : Nat) :
    Runs (Shows cap size) (putId orderId slot) (n, f) ()
      (n, f.setIds (f.ids.insert orderId slot)) := by
  intro b hb
  obtain ⟨m, e, hids⟩ := hb.ids.put hfew hne slot
  refine ⟨{ b with ids := m }, ?_, { hb with ids := hids }⟩
  rw [putId, e]

theorem delId_runs (hfew : Few size f.ids) (hne : orderId ≠ 0) :
    Runs (Shows cap size) (delId orderId) (n, f) () (n, f.setIds (f.ids.remove orderId)) := by
  intro b hb
  obtain ⟨m, e, hids⟩ := hb.ids.del hfew hne
  refine ⟨{ b with ids := m }, ?_, { hb with ids := hids }⟩
  rw [delId, e]

theorem Shows.setBestBid {b : Book} (h : b.Shows cap size (n, f)) (v : Int) :
    Shows cap size { b with bestBid := v } (n, f.setBestBid v) := { h with bestBid := rfl }

theorem Shows.setBestAsk {b : Book} (h : b.Shows cap size (n, f)) (v : Int) :
    Shows cap size { b with bestAsk := v } (n, f.setBestAsk v) := { h with bestAsk := rfl }

theorem Shows.setFreeHead {b : Book} (h : b.Shows cap size (n, f)) (v : Nat) :
    Shows cap size { b with freeHead := v } (n, { f with freeHead := v }) :=
  { h with freeHead := rfl }

theorem Shows.setHwm {b : Book} (h : b.Shows cap size (n, f)) (v : Nat) :
    Shows cap size { b with hwm := v } (n, { f with hwm := v }) := { h with hwm := rfl }

theorem allocSlot_runs (hfree : f.freeHead ≠ NIL → f.freeHead < n)
    (hroom : f.freeHead = NIL → f.hwm ≠ cap) :
    Runs (Shows cap size) allocSlot (n, f) f.nextSlot (n, f.alloc) := by
  refine Runs.get_bind fun b hb => ?_
  have hhead : b.freeHead = f.freeHead := hb.freeHead
  rw [hhead]
  refine Runs.ite (fun h => ?_) fun h => ?_
  · have hslot : f.nextSlot = f.freeHead := if_pos h
    have halloc : f.alloc = { f with freeHead := (f.ord f.freeHead).next } := if_pos h
    rw [hslot, halloc]
    exact (order_runs (hfree h)).bind ((Runs.modify fun b' hb' => hb'.setFreeHead _).bind
      (Runs.pure _))
  · have hslot : f.nextSlot = f.hwm := if_neg h
    have halloc : f.alloc = { f with hwm := u32 (f.hwm + 1) } := if_neg h
    have hhwm : b.hwm = f.hwm := hb.hwm
    have hpool : b.pool.size = cap := hb.pool
    rw [hslot, halloc, hhwm, hpool]
    refine Runs.ite (fun e => absurd e (hroom (not_not.mp h))) fun _ => ?_
    refine Runs.bind (Runs.modify fun b' hb' => ?_) (Runs.pure _)
    have hhwm' : b'.hwm = f.hwm := hb'.hwm
    rw [hhwm']
    exact hb'.setHwm _

theorem noteBest_runs (hg : f.grid.Ok) (ht : t < f.grid.nLevels) (side : Nat) :
    Runs (Shows cap size) (noteBest side t) (n, f) () (n, f.noteBest side t) := by
  unfold noteBest
  rw [Book.i32_level hg ht]
  have hbid : Runs (Shows cap size) (modify fun b : Book => { b with bestBid :=
      if side = 0 ∧ (b.bestBid < 0 ∨ (t : Int) > b.bestBid) then t else b.bestBid } : Run Book Unit)
      (n, f) ()
      (n, f.setBestBid (if side = 0 ∧ (f.bestBid < 0 ∨ f.bestBid < t) then t else f.bestBid)) :=
    Runs.modify fun b hb => by
      have e : b.bestBid = f.bestBid := hb.bestBid
      rw [e]
      exact hb.setBestBid _
  refine hbid.bind (Runs.modify fun b hb => ?_)
  have e : b.bestAsk = f.bestAsk := hb.bestAsk
  rw [e]
  exact hb.setBestAsk _

/-- A new order is linked behind the tail of its level, and its level is told. -/
theorem link_runs {slot : Nat} {qty : Int} {l : PriceLevel} (hl : f.lvl (laneOf side) t = l)
    (ht : t < f.grid.nLevels) (htail : l.tail ≠ NIL → l.tail < n ∧ l.tail < cap) :
    Runs (Shows cap size) (do
        link side t slot l.tail
        let lvl ← level side t
        setLevel side t { lvl with
          tail := slot
          qtyTotal := i64 (lvl.qtyTotal + qty)
          count := u32 (lvl.count + 1) })
      (n, f) ()
      (n, (f.setLvl (laneOf side) t
        { head := if l.tail = NIL then slot else l.head
          tail := slot
          qtyTotal := i64 (l.qtyTotal + qty)
          count := u32 (l.count + 1) }).linkNext l.tail slot) := by
  have hread := @level_runs cap size n t f side ht
  rw [hl] at hread
  by_cases hnil : l.tail = NIL
  · rw [link, if_neg (not_not.mpr hnil), if_pos hnil, hnil, Book.linkNext_nil,
      ← Flat.setLvl_setLvl f _ t { l with head := slot }]
    have hhead := @setLevel_runs cap size n t f side ht { l with head := slot }
    have hagain := @level_runs cap size n t (f.setLvl (laneOf side) t { l with head := slot }) side ht
    have hlvl : (f.setLvl (laneOf side) t { l with head := slot }).lvl (laneOf side) t =
        { l with head := slot } := if_pos ⟨rfl, rfl⟩
    rw [hlvl] at hagain
    have hlevel := @setLevel_runs cap size n t (f.setLvl (laneOf side) t { l with head := slot }) side
      ht { head := slot, tail := slot, qtyTotal := i64 (l.qtyTotal + qty), count := u32 (l.count + 1) }
    exact (hread.bind hhead).bind (hagain.bind hlevel)
  · obtain ⟨hn, hcap⟩ := htail hnil
    rw [link, if_pos hnil, if_neg hnil]
    have hnext := @setNext_runs cap size n _ f hn hcap slot
    rw [← Book.linkNext_eq f hnil] at hnext
    have hagain := @level_runs cap size n t (f.linkNext l.tail slot) side ht
    rw [show (f.linkNext l.tail slot).lvl (laneOf side) t = l from hl] at hagain
    exact hnext.bind (hagain.bind (setLevel_runs side (by exact ht) _))

theorem insert_runs_of {price qty : Int} (hgrid : f.grid.Ok)
    (htick : f.grid.tickOf price < f.grid.nLevels)
    (hfree : f.freeHead ≠ NIL → f.freeHead < f.hwm) (hroom : f.freeHead = NIL → f.hwm ≠ cap)
    (hle : f.nextSlot ≤ f.hwm) (hcap : f.nextSlot < cap)
    (hmark : max f.hwm (f.nextSlot + 1) = f.alloc.hwm)
    (htail : ∀ x t, (f.lvl x t).tail ≠ NIL → (f.lvl x t).tail < f.hwm ∧ (f.lvl x t).tail < cap)
    (hfew : Few size f.ids) (hne : orderId ≠ 0) :
    Runs (Shows cap size) (insert orderId price qty side) (f.hwm, f) ()
      ((f.insert ⟨orderId, price, qty, 0, side⟩).hwm,
        f.insert ⟨orderId, price, qty, 0, side⟩) := by
  have hg : f.alloc.grid = f.grid := alloc_grid f
  have htick' : f.grid.tickOf price < f.alloc.grid.nLevels := by rwa [hg]
  have hplace := @setOrder_runs cap size f.hwm f.nextSlot f.alloc hle hcap
    ⟨orderId, price, qty, 0, NIL, (f.alloc.lvl (laneOf side) (f.grid.tickOf price)).tail, side⟩
  rw [hmark] at hplace
  have hlink := @link_runs cap size f.alloc.hwm (f.grid.tickOf price) side
    (f.alloc.setOrd f.nextSlot
      ⟨orderId, price, qty, 0, NIL, (f.alloc.lvl (laneOf side) (f.grid.tickOf price)).tail, side⟩)
    f.nextSlot qty (f.alloc.lvl (laneOf side) (f.grid.tickOf price)) rfl htick' fun h => by
      rw [alloc_lvl] at h ⊢
      obtain ⟨hlt, hlt'⟩ := htail _ _ h
      exact ⟨by omega, hlt'⟩
  have hplaced : Runs (Shows cap size) (putId orderId f.nextSlot >>= fun _ =>
      noteBest side (f.grid.tickOf price))
      (f.alloc.hwm, f.alloc.place f.nextSlot ⟨orderId, price, qty, 0, side⟩) ()
      (f.alloc.hwm, f.insert ⟨orderId, price, qty, 0, side⟩) := by
    have hids : (f.alloc.place f.nextSlot ⟨orderId, price, qty, 0, side⟩).ids = f.ids := alloc_ids f
    refine (putId_runs (by rwa [hids]) hne _).bind ?_
    rw [Flat.insert, Flat.enter, hg]
    refine noteBest_runs ?_ ?_ side
    · change f.alloc.grid.Ok
      rw [hg]; exact hgrid
    · exact htick'
  rw [Flat.place] at hplaced
  dsimp only at hplaced
  rw [hg] at hplaced
  unfold insert
  refine (tickOf_runs hgrid.tick_pos price).bind ((allocSlot_runs hfree hroom).bind ?_)
  refine (level_runs side htick').bind (hplace.bind ?_)
  have hall := hlink.bind (k := fun _ => putId orderId f.nextSlot >>= fun _ =>
    noteBest side (f.grid.tickOf price)) hplaced
  simp only [bind_assoc] at hall
  exact hall

end Book

end HiPerf.Go
