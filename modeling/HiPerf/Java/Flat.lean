import HiPerf.Book.Run
import HiPerf.Java.Book

/-!
The Java book as a memory. A handle is shown as the signed number with the same 32 bits, so a
slot is itself and the end of a list is -1.
-/

namespace HiPerf.Java

open Machine Exec HashMaps

variable {om : Long2ObjectHashMap Int}

/-- The `int` with the bits of an unsigned number. -/
@[irreducible] def int (x : Nat) : Int := i32 x

/-- An order of the memory as an object of the pool. -/
def shown (s : Nat) (o : HiPerf.Order) : Order :=
  ⟨o.orderId, o.price, o.qty, o.filled, int o.next, int o.prev, s, o.side⟩

def shownLevel (l : PriceLevel) : Level := ⟨int l.head, int l.tail, l.qtyTotal, int l.count⟩

theorem int_inj {x y : Nat} (hx : x ≤ HiPerf.NIL) (hy : y ≤ HiPerf.NIL) :
    int x = int y ↔ x = y := by
  unfold HiPerf.NIL at hx hy
  unfold int i32
  omega

theorem int_eq_nil {x : Nat} (hx : x ≤ HiPerf.NIL) : int x = NIL ↔ x = HiPerf.NIL := by
  unfold HiPerf.NIL at hx ⊢
  unfold int i32 NIL
  omega

theorem int_nil : int HiPerf.NIL = NIL := (int_eq_nil (Nat.le_refl _)).mpr rfl

theorem int_slot {cap s : Nat} (hcap : cap ≤ 2147483647) (hs : s < cap) : int s = s := by
  unfold int
  exact i32_ofNat (by omega)

/-- Counting in 32 bits is the same, signed or not. -/
theorem int_count (c : Nat) (x : Int) : i32 (int c + x) = int (u32 (c + x)) := by
  unfold int i32 u32
  omega

theorem i32_u32_level {q : Int} {t : Nat} (h : u32 q = t) (ht : t ≤ 2147483647) : i32 q = t := by
  unfold u32 at h
  unfold i32
  omega

@[simp] theorem nth_ofNat {α : Type} (a : Array α) (i : Nat) : nth a (i : Int) = a[i]? := by
  simp [nth]

/-- The map of a new book is made, and has nothing. -/
theorem newBook_ok (hm : om.Lawful) {cfg : SmrConfig} (hcap : cfg.cap ≤ 536870912) :
    ∃ ids, newBook om cfg = .ok (emptyBook cfg ids) ∧ ∀ k, om.get ids k = none := by
  have hdouble : i32 ((cfg.cap : Int) * 2) = cfg.cap * 2 := by
    unfold i32
    omega
  obtain ⟨ids, e, hnone⟩ := hm.new_ok (i32 ((cfg.cap : Int) * 2)) (by omega) (by omega)
  exact ⟨ids, by rw [newBook, e], hnone⟩

/-- The levels of a lane of `n` levels. -/
structure Rows (ls : Array Level) (n : Nat) (lvl : Nat → PriceLevel) : Prop where
  size : ls.size = n
  get : ∀ t < n, ls[t]? = some (shownLevel (lvl t))

theorem Rows.set {ls : Array Level} {n t : Nat} {lvl : Nat → PriceLevel} (h : Rows ls n lvl)
    (ht : t < n) (l : PriceLevel) :
    Rows (ls.setIfInBounds t (shownLevel l)) n fun u => if u = t then l else lvl u where
  size := Array.size_setIfInBounds.trans h.size
  get u hu := by
    rw [Array.getElem?_setIfInBounds]
    by_cases e : t = u
    · rw [if_pos e, if_pos (h.size.symm ▸ ht), if_pos e.symm]
    · rw [if_neg e, if_neg (Ne.symm e), h.get u hu]

/-- The book has room for `cap` orders, and its memory is `v.2`, of which it shows the slots
below `v.1`. -/
structure Book.Shows (cap : Nat) (b : Book om) (v : Nat × Flat) : Prop where
  priceMin : b.priceMin = v.2.grid.priceMin
  tick : b.tick = v.2.grid.tick
  nLevels : b.nLevels = v.2.grid.nLevels
  pool : b.pool.size = cap
  order : ∀ s < v.1, b.pool[s]? = some (shown s (v.2.ord s))
  bids : Rows b.bids v.2.grid.nLevels (v.2.lvl .bid)
  asks : Rows b.asks v.2.grid.nLevels (v.2.lvl .ask)
  hwm : b.hwm = v.2.hwm
  freeHead : b.freeHead = int v.2.freeHead
  bestBid : b.bestBid = v.2.bestBid
  bestAsk : b.bestAsk = v.2.bestAsk
  ids : ∀ k, om.get b.ids k = (v.2.ids k).map Int.ofNat

namespace Book

variable {cap n s t side slot : Nat} {f : Flat} {orderId : Int}

theorem Shows.lane {b : Book om} (h : b.Shows cap (n, f)) (side : Nat) :
    Rows (b.lane side) f.grid.nLevels (f.lvl (laneOf side)) := by
  unfold Book.lane laneOf
  split
  · exact h.bids
  · exact h.asks

theorem tickOf_runs {price : Int} (hg : f.grid.Ok) (ht : f.grid.tickOf price < f.grid.nLevels) :
    Runs (@Shows om cap) (tickOf price) (n, f) (f.grid.tickOf price : Nat) (n, f) := by
  apply Runs.get_bind
  intro b hb
  have hlevels := hg.levels_le
  have htick := hg.tick_pos
  have hquot : i32 ((i64 (price - f.grid.priceMin)).tdiv f.grid.tick) = f.grid.tickOf price :=
    i32_u32_level rfl (by omega)
  have hmin : b.priceMin = f.grid.priceMin := hb.priceMin
  have htick' : b.tick = f.grid.tick := hb.tick
  rw [hmin, htick', hquot, if_neg (by omega)]
  exact Runs.pure _

theorem order_runs (hs : s < n) :
    Runs (@Shows om cap) (order s) (n, f) (shown s (f.ord s)) (n, f) := by
  intro b hb
  refine ⟨b, ?_, hb⟩
  rw [order, nth_ofNat, hb.order s hs]

/-- A slot written, one of those that show or the next one. -/
theorem setOrder_runs (hs : s ≤ n) (hcap : s < cap) (o : HiPerf.Order) :
    Runs (@Shows om cap) (setOrder s (shown s o)) (n, f) () (max n (s + 1), f.setOrd s o) := by
  intro b hb
  have hpool : b.pool.size = cap := hb.pool
  have hlt : s < b.pool.size := by omega
  refine ⟨{ b with pool := b.pool.setIfInBounds s (shown s o) }, ?_, { hb with
    pool := by rwa [Array.size_setIfInBounds]
    order := ?_ }⟩
  · rw [setOrder, nth_ofNat, Array.getElem?_eq_getElem hlt]
    rfl
  · intro y hy
    dsimp only at hy ⊢
    rw [Array.getElem?_setIfInBounds]
    by_cases e : s = y
    · rw [if_pos e, if_pos hlt, ← e]
      exact congrArg some (congrArg (shown s) (if_pos rfl).symm)
    · rw [if_neg e, hb.order y (show y < n by omega)]
      exact congrArg some (congrArg (shown y) (if_neg (Ne.symm e)).symm)

theorem level_runs (side : Nat) (ht : t < f.grid.nLevels) :
    Runs (@Shows om cap) (level side t) (n, f) (shownLevel (f.lvl (laneOf side) t)) (n, f) := by
  intro b hb
  refine ⟨b, ?_, hb⟩
  rw [level, nth_ofNat, (hb.lane side).get t ht]

theorem setLevel_runs (side : Nat) (ht : t < f.grid.nLevels) (l : PriceLevel) :
    Runs (@Shows om cap) (setLevel side t (shownLevel l)) (n, f) ()
      (n, f.setLvl (laneOf side) t l) := by
  intro b hb
  have hlane := hb.lane side
  have hset := hlane.set ht l
  rw [setLevel, nth_ofNat, hlane.get t ht]
  refine ⟨_, rfl, ?_⟩
  by_cases hside : side = 0
  · have hx : laneOf side = .bid := if_pos hside
    rw [lane, if_pos hside, hx] at hset
    rw [if_pos hside, hx]
    exact { hb with
      bids := (Flat.setLvl_self f .bid t l).symm ▸ hset
      asks := (Flat.setLvl_other f (x := .bid) (y := .ask) nofun t l).symm ▸ hb.asks }
  · have hx : laneOf side = .ask := if_neg hside
    rw [lane, if_neg hside, hx] at hset
    rw [if_neg hside, hx]
    exact { hb with
      bids := (Flat.setLvl_other f (x := .ask) (y := .bid) nofun t l).symm ▸ hb.bids
      asks := (Flat.setLvl_self f .ask t l).symm ▸ hset }

theorem setNext_runs (hs : s < n) (hcap : s < cap) (v : Nat) :
    Runs (@Shows om cap) (setNext s (int v)) (n, f) () (n, f.setOrd s { f.ord s with next := v }) := by
  have hset := @setOrder_runs om cap n s f hs.le hcap { f.ord s with next := v }
  rw [Nat.max_eq_left hs] at hset
  exact (order_runs hs).bind hset

theorem setPrev_runs (hs : s < n) (hcap : s < cap) (v : Nat) :
    Runs (@Shows om cap) (setPrev s (int v)) (n, f) () (n, f.setOrd s { f.ord s with prev := v }) := by
  have hset := @setOrder_runs om cap n s f hs.le hcap { f.ord s with prev := v }
  rw [Nat.max_eq_left hs] at hset
  exact (order_runs hs).bind hset

theorem getId_runs (h : f.ids orderId = some slot) :
    Runs (@Shows om cap) (getId orderId) (n, f) slot (n, f) := by
  intro b hb
  refine ⟨b, ?_, hb⟩
  have hid := hb.ids orderId
  rw [h] at hid
  rw [getId, hid]
  rfl

theorem removeId_runs (hm : om.Lawful) (h : f.ids orderId = some slot) :
    Runs (@Shows om cap) (removeId orderId) (n, f) slot (n, f.setIds (f.ids.remove orderId)) := by
  intro b hb
  have hid := hb.ids orderId
  rw [h] at hid
  obtain ⟨ids, e, hget⟩ := hm.remove_eq b.ids orderId
  refine ⟨{ b with ids }, ?_, { hb with ids := fun k => ?_ }⟩
  · rw [removeId, e, hid]
    rfl
  change om.get ids k = Option.map Int.ofNat (if k = orderId then none else f.ids k)
  rw [hget]
  split
  · rfl
  · exact hb.ids k

/-- The id is put if the table has room for it beside those of `keys`, which are all there
are. -/
theorem putId_runs (hm : om.Lawful) {keys : List Int} (hkeys : ∀ k, f.ids k ≠ none → k ∈ keys)
    (hroom : (putKey orderId keys).length ≤ 536870912) (slot : Nat) :
    Runs (@Shows om cap) (putId orderId slot) (n, f) ()
      (n, f.setIds (f.ids.insert orderId slot)) := by
  intro b hb
  have hwithin : ∀ k, om.get b.ids k ≠ none → k ∈ keys := by
    intro k hk
    apply hkeys
    intro hnone
    rw [hb.ids k, hnone] at hk
    exact hk rfl
  obtain ⟨ids, e, hget⟩ := hm.put_ok b.ids orderId slot keys hwithin hroom
  refine ⟨{ b with ids }, ?_, { hb with ids := fun k => ?_ }⟩
  · rw [putId, e]
  change om.get ids k = Option.map Int.ofNat (if k = orderId then some slot else f.ids k)
  rw [hget]
  split
  · rfl
  · exact hb.ids k

theorem Shows.setBestBid {b : Book om} (h : b.Shows cap (n, f)) (v : Int) :
    Shows cap { b with bestBid := v } (n, f.setBestBid v) := { h with bestBid := rfl }

theorem Shows.setBestAsk {b : Book om} (h : b.Shows cap (n, f)) (v : Int) :
    Shows cap { b with bestAsk := v } (n, f.setBestAsk v) := { h with bestAsk := rfl }

theorem Shows.setFreeHead {b : Book om} (h : b.Shows cap (n, f)) (v : Nat) :
    Shows cap { b with freeHead := int v } (n, { f with freeHead := v }) :=
  { h with freeHead := rfl }

theorem allocSlot_runs (hcap : cap ≤ 2147483647)
    (hfree : f.freeHead ≠ HiPerf.NIL → f.freeHead < n ∧ f.freeHead < cap)
    (hroom : f.freeHead = HiPerf.NIL → f.hwm < cap) :
    Runs (@Shows om cap) allocSlot (n, f) (f.nextSlot : Nat) (n, f.alloc) := by
  apply Runs.get_bind
  intro b hb
  have hhead : b.freeHead = int f.freeHead := hb.freeHead
  have hhwm : b.hwm = f.hwm := hb.hwm
  have hpool : b.pool.size = cap := hb.pool
  by_cases hnil : f.freeHead = HiPerf.NIL
  · have hslot : f.nextSlot = f.hwm := if_neg (not_not.mpr hnil)
    have halloc : f.alloc = { f with hwm := u32 (f.hwm + 1) } := if_neg (not_not.mpr hnil)
    have hroom' := hroom hnil
    have hfull : ¬ (f.hwm : Int) = cap := by omega
    rw [hnil, int_nil] at hhead
    rw [hslot, halloc, hhead, hhwm, hpool, if_neg (not_not.mpr rfl), if_neg hfull]
    refine Runs.bind (Runs.modify fun b' hb' => ?_) (Runs.pure _)
    have hhwm' : b'.hwm = f.hwm := hb'.hwm
    have hnext : i32 ((f.hwm : Int) + 1) = (u32 ((f.hwm : Int) + 1) : Nat) := by
      unfold i32 u32
      omega
    rw [hhwm', hnext]
    exact { hb' with hwm := rfl }
  · obtain ⟨hlt, hlt'⟩ := hfree hnil
    have hslot : f.nextSlot = f.freeHead := if_pos hnil
    have halloc : f.alloc = { f with freeHead := (f.ord f.freeHead).next } := if_pos hnil
    have hself := int_slot hcap hlt'
    rw [hslot, halloc, hhead, hself, if_pos (show (f.freeHead : Int) ≠ NIL by unfold NIL; omega)]
    refine (order_runs hlt).bind (Runs.bind (Runs.modify fun b' hb' => ?_) (Runs.pure _))
    exact hb'.setFreeHead _

theorem noteBest_runs (side t : Nat) :
    Runs (@Shows om cap) (noteBest side t) (n, f) () (n, f.noteBest side t) := by
  have hbid : Runs (@Shows om cap) (modify fun b : Book om => { b with bestBid :=
      if side = 0 ∧ (b.bestBid < 0 ∨ (t : Int) > b.bestBid) then t else b.bestBid } : Run (Book om) Unit)
      (n, f) ()
      (n, f.setBestBid (if side = 0 ∧ (f.bestBid < 0 ∨ f.bestBid < t) then t else f.bestBid)) := by
    apply Runs.modify
    intro b hb
    have e : b.bestBid = f.bestBid := hb.bestBid
    rw [e]
    exact hb.setBestBid _
  refine hbid.bind (Runs.modify fun b hb => ?_)
  have e : b.bestAsk = f.bestAsk := hb.bestAsk
  rw [e]
  exact hb.setBestAsk _

end Book

end HiPerf.Java
