import HiPerf.Go.Cow
import HiPerf.Lib.Lockstep

/-!
The copy-on-write book of Go and its flat book, call by call. A pointer that was taken earlier
in a call stays good while other chunks are copied and written.
-/

namespace HiPerf.Go

open Machine Exec Epoch

namespace CowBook

/-- No chunk of an earlier generation was written, and no pointer has gone bad. -/
structure Grows (w w' : CowBook) : Prop where
  gen : w'.gen = w.gen
  orders : Pages.Grows w.gen w.orders w'.orders
  bids : Pages.Grows w.gen w.bids w'.bids
  asks : Pages.Grows w.gen w.asks w'.asks

theorem Grows.lane {w w' : CowBook} (h : Grows w w') (side : Nat) :
    Pages.Grows w.gen (w.lane side) (w'.lane side) := by
  unfold CowBook.lane
  split
  · exact h.bids
  · exact h.asks

/-- What is known of a book, whichever chunks it copies and writes. -/
structure Knowledge where
  holds : CowBook → Prop
  grows : ∀ {w w'}, holds w → Grows w w' → holds w'

def Knowledge.nothing : Knowledge := ⟨fun _ => True, fun _ _ => trivial⟩

def Knowledge.and (K K' : Knowledge) : Knowledge where
  holds w := K.holds w ∧ K'.holds w
  grows h hg := ⟨K.grows h.1 hg, K'.grows h.2 hg⟩

/-- The lane has a level `t`. -/
def inRange (side t : Nat) : Knowledge where
  holds w := ((w.lane side).get LEVEL_CHUNK t).isSome
  grows h hg := (hg.lane side).shows _ _ h

/-- `lvl` points to level `t` of the lane, in a chunk that is written without a copy. -/
structure RefersTo (side t : Nat) (lvl : Ptr) (w : CowBook) : Prop where
  pins : Pages.Pins w.gen (t / LEVEL_CHUNK) lvl.chunk (w.lane side)
  index : lvl.index = t % LEVEL_CHUNK
  shows : ((w.lane side).get LEVEL_CHUNK t).isSome

def refersTo (side t : Nat) (lvl : Ptr) : Knowledge where
  holds := RefersTo side t lvl
  grows := fun {w w'} h hg => by
    refine ⟨?_, h.index, (hg.lane side).shows _ _ h.shows⟩
    rw [hg.gen]
    exact (hg.lane side).pins _ _ h.pins

/-- `w` shows what `b` holds, of which lanes have `rows` levels. -/
structure Mirrors (rows levels : Nat) (K : Knowledge) (w : CowBook) (b : Book) : Prop where
  priceMin : w.priceMin = b.priceMin
  tick : w.tick = b.tick
  nLevels : w.nLevels = levels
  levels : b.nLevels = levels
  capacity : w.capacity = b.pool.size
  hwm : w.hwm = b.hwm
  freeHead : w.freeHead = b.freeHead
  bestBid : w.bestBid = b.bestBid
  bestAsk : w.bestAsk = b.bestAsk
  ids : w.ids = b.ids
  order : ∀ s, w.orders.get w.chunk s = b.pool[s]?
  level : ∀ side t, (w.lane side).get LEVEL_CHUNK t = (b.lane side)[t]?
  size : ∀ side, (b.lane side).size = rows
  orders : w.orders.Sound w.gen
  bids : w.bids.Sound w.gen
  asks : w.asks.Sound w.gen
  known : K.holds w

variable {strict : Prop} {rows levels side t slot : Nat} {α β : Type} {K K' : Knowledge}
  {w w' : CowBook} {b : Book}

/-- From books that mirror each other, both programs give the same result and end in such. -/
abbrev Tracks (strict : Prop) (rows levels : Nat) (K : Knowledge) (x : Run CowBook α)
    (y : Run Book α) : Prop :=
  Lockstep strict (Mirrors rows levels K) x y

/-- The same, with other knowledge before than after. -/
abbrev Learns (strict : Prop) (rows levels : Nat) (K K' : Knowledge) (x : Run CowBook α)
    (y : Run Book α) : Prop :=
  Meets strict (Mirrors rows levels K) (Mirrors rows levels K') x y

namespace Mirrors

theorem sound (h : Mirrors rows levels K w b) (side : Nat) : (w.lane side).Sound w.gen := by
  unfold CowBook.lane
  split
  · exact h.bids
  · exact h.asks

theorem knowing (h : Mirrors rows levels K w b) (hk : K'.holds w) : Mirrors rows levels K' w b :=
  { h with known := hk }

theorem forget (h : Mirrors rows levels (K.and K') w b) : Mirrors rows levels K w b :=
  h.knowing h.known.1

/-- Nothing but the numbers of the writer is new. -/
theorem same (h : Mirrors rows levels K w b) (hg : w'.gen = w.gen) (ho : w'.orders = w.orders)
    (hb : w'.bids = w.bids) (ha : w'.asks = w.asks) : K.holds w' := by
  refine K.grows h.known ⟨hg, ?_, ?_, ?_⟩
  · rw [ho]; exact h.orders.grows
  · rw [hb]; exact h.bids.grows
  · rw [ha]; exact h.asks.grows

/-- The order chunks are others, which show the orders of `b'`. -/
theorem setOrders (h : Mirrors rows levels K w b) {p : Pages Order}
    (hg : Pages.Grows w.gen w.orders p) {pool : Array Order} (hsize : pool.size = b.pool.size)
    (hget : ∀ s, p.get w.chunk s = pool[s]?) :
    Mirrors rows levels K { w with orders := p } { b with pool := pool } :=
  { h with
    capacity := h.capacity.trans hsize.symm
    order := hget
    orders := hg.sound
    known := K.grows h.known ⟨rfl, hg, h.bids.grows, h.asks.grows⟩ }

end Mirrors

theorem setLane_lane (w : CowBook) (side side' : Nat) (p : Pages PriceLevel) :
    (w.setLane side p).lane side' = if side = 0 ↔ side' = 0 then p else w.lane side' := by
  unfold setLane lane
  by_cases h : side = 0 <;> by_cases h' : side' = 0 <;> simp [h, h']

@[simp] theorem setLane_gen (w : CowBook) (side : Nat) (p : Pages PriceLevel) :
    (w.setLane side p).gen = w.gen := by
  unfold setLane
  split <;> rfl

/-- The book with another lane. -/
def setRows (b : Book) (side : Nat) (ls : Array PriceLevel) : Book :=
  if side = 0 then { b with bids := ls } else { b with asks := ls }

theorem setRows_lane (b : Book) (side side' : Nat) (ls : Array PriceLevel) :
    (setRows b side ls).lane side' = if side = 0 ↔ side' = 0 then ls else b.lane side' := by
  unfold setRows Book.lane
  by_cases h : side = 0 <;> by_cases h' : side' = 0 <;> simp [h, h']

/-- The chunks of a lane are others, which show the levels `ls`. -/
theorem Mirrors.setLane (h : Mirrors rows levels K w b) {p : Pages PriceLevel}
    (hg : Pages.Grows w.gen (w.lane side) p) {ls : Array PriceLevel}
    (hsize : ls.size = (b.lane side).size) (hget : ∀ u, p.get LEVEL_CHUNK u = ls[u]?) :
    Mirrors rows levels K (w.setLane side p) (setRows b side ls) := by
  have hgrows : Grows w (w.setLane side p) := by
    refine ⟨setLane_gen w side p, ?_, ?_, ?_⟩
    all_goals
      unfold CowBook.setLane
      unfold CowBook.lane at hg
      split at hg <;> rename_i hs
      all_goals simp only [hs, if_true, if_false]
    · exact h.orders.grows
    · exact h.orders.grows
    · exact hg
    · exact h.bids.grows
    · exact h.asks.grows
    · exact hg
  have hlevel : ∀ side' u, ((w.setLane side p).lane side').get LEVEL_CHUNK u =
      ((setRows b side ls).lane side')[u]? := by
    intro side' u
    rw [setLane_lane, setRows_lane]
    split
    · exact hget u
    · exact h.level side' u
  have hrows : ∀ side', ((setRows b side ls).lane side').size = rows := by
    intro side'
    rw [setRows_lane]
    split
    · rw [hsize, h.size]
    · exact h.size side'
  have hknown := K.grows h.known hgrows
  have hbids := hgrows.bids.sound
  have hasks := hgrows.asks.sound
  have horders := hgrows.orders.sound
  revert hlevel hrows hknown hbids hasks horders
  unfold CowBook.setLane setRows
  split
  · intro hlevel hrows hknown hbids hasks horders
    exact { h with level := hlevel, size := hrows, bids := hbids, known := hknown }
  · intro hlevel hrows hknown hbids hasks horders
    exact { h with level := hlevel, size := hrows, asks := hasks, known := hknown }

theorem Tracks.forget {x : Run CowBook α} {y : Run Book α}
    (h : Tracks strict rows levels (K.and K') x y) : Learns strict rows levels (K.and K') K x y :=
  Meets.learn h (fun _ _ h => h) fun _ _ _ _ _ h => h.forget

theorem point_ok {p : Pages α} {size i a : Nat} (h : p.table[i / size]? = some a)
    (hi : (p.get size i).isSome) : point p size i a w = .ok ⟨a, i % size⟩ w := by
  obtain ⟨v, hv⟩ := Option.isSome_iff_exists.mp hi
  have e := Pages.item_of_place h
  simp only [point, e, hv]
  rfl

theorem point_stops (w : CowBook) {p : Pages α} {size i a : Nat} (h : p.table[i / size]? = some a)
    (hi : p.get size i = none) : ∃ q, point p size i a w = .error q w := by
  have e := Pages.item_of_place h
  simp only [point, e, hi]
  exact ⟨_, rfl⟩

theorem level_tracks (side t : Nat) :
    Tracks strict rows levels K (level side t) (Book.level side t) := by
  refine Lockstep.of_cases fun w b h => ?_
  have hget := h.level side t
  unfold level levelAt Book.level
  simp only [bind_assoc, get_bind]
  cases ht : (w.lane side).table[t / LEVEL_CHUNK]? with
  | none =>
    have hnone : (w.lane side).get LEVEL_CHUNK t = none := by
      simp only [Pages.get, Epoch.get, ht, Option.bind_none]
    rw [hnone] at hget
    rw [← hget]
    exact .inr ⟨_, _, _, _, rfl, rfl⟩
  | some a =>
    cases hl : (b.lane side)[t]? with
    | none =>
      rw [hl] at hget
      obtain ⟨q, e⟩ := point_stops w ht hget
      exact .inr ⟨_, _, _, _, bind_error e _, rfl⟩
    | some l =>
      rw [hl] at hget
      have hitem := (Pages.item_of_place ht).trans hget
      refine .inl ⟨l, w, b, ?_, rfl, h⟩
      refine (bind_ok (point_ok ht (by rw [hget]; rfl)) _).trans ?_
      simp only [loadLevel, get_bind, hitem]
      rfl

theorem order_tracks (slot : Nat) : Tracks strict rows levels K (order slot) (Book.order slot) := by
  refine Lockstep.of_cases fun w b h => ?_
  have hget := h.order slot
  unfold order orderAt Book.order
  simp only [bind_assoc, get_bind]
  cases hs : w.orders.table[slot / w.chunk]? with
  | none =>
    have hnone : w.orders.get w.chunk slot = none := by
      simp only [Pages.get, Epoch.get, hs, Option.bind_none]
    rw [hnone] at hget
    rw [← hget]
    exact .inr ⟨_, _, _, _, rfl, rfl⟩
  | some a =>
    cases hl : b.pool[slot]? with
    | none =>
      rw [hl] at hget
      obtain ⟨q, e⟩ := point_stops w hs hget
      exact .inr ⟨_, _, _, _, bind_error e _, rfl⟩
    | some o =>
      rw [hl] at hget
      have hitem := (Pages.item_of_place hs).trans hget
      refine .inl ⟨o, w, b, ?_, rfl, h⟩
      refine (bind_ok (point_ok hs (by rw [hget]; rfl)) _).trans ?_
      simp only [load, get_bind, hitem]
      rfl

/-- What `orderMut` does: the chunk of the slot is one to be written, and nothing shows. -/
theorem orderMut_ok (h : Mirrors rows levels K w b) (hs : slot < b.pool.size) :
    ∃ o w', orderMut slot w = .ok o w' ∧ Mirrors rows levels K w' b ∧ w'.chunk = w.chunk ∧
      Pages.Pins w'.gen (slot / w.chunk) o.chunk w'.orders ∧ o.index = slot % w.chunk := by
  have hsome : (w.orders.get w.chunk slot).isSome := by
    rw [h.order slot, Array.getElem?_eq_getElem hs]
    rfl
  obtain ⟨a, p, e⟩ := h.orders.pin_isSome hsome
  have hpins := Pages.pin_pins e
  have hget := h.orders.pin_get e
  refine ⟨⟨a, slot % w.chunk⟩, { w with orders := p }, ?_, ?_, rfl, hpins, rfl⟩
  · simp only [orderMut, get_bind, e, set_bind]
    exact point_ok hpins.place (by rw [hget]; exact hsome)
  · exact h.setOrders (h.orders.pin e) rfl fun s => (hget _ s).trans (h.order s)

theorem orderMut_stops (h : Mirrors rows levels K w b) (hs : b.pool[slot]? = none) :
    ∃ q w', orderMut slot w = .error q w' := by
  have hnone : w.orders.get w.chunk slot = none := (h.order slot).trans hs
  unfold orderMut
  simp only [get_bind]
  cases e : w.orders.pin w.gen (slot / w.chunk) with
  | none => exact ⟨_, _, rfl⟩
  | some ap =>
    obtain ⟨a, p⟩ := ap
    have hget := h.orders.pin_get e w.chunk slot
    rw [hnone] at hget
    obtain ⟨q, e'⟩ := point_stops { w with orders := p } (Pages.pin_pins e).place hget
    exact ⟨q, _, e'⟩

/-- A write through the pointer `orderMut` returned. -/
theorem store_mirrors {o : Ptr} (h : Mirrors rows levels K w b) (hs : slot < b.pool.size)
    (hpins : Pages.Pins w.gen (slot / w.chunk) o.chunk w.orders) (hindex : o.index = slot % w.chunk)
    (order : Order) :
    ∃ w', store o order w = .ok () w' ∧
      Mirrors rows levels K w' { b with pool := b.pool.setIfInBounds slot order } := by
  have hsome : (w.orders.get w.chunk slot).isSome := by
    rw [h.order slot, Array.getElem?_eq_getElem hs]
    rfl
  refine ⟨_, rfl, ?_⟩
  rw [hindex]
  refine h.setOrders (hpins.setItem h.orders order) Array.size_setIfInBounds fun s => ?_
  rw [hpins.setItem_get h.orders hsome order s, Array.getElem?_setIfInBounds, h.order s]
  by_cases e : s = slot
  · rw [if_pos e, if_pos e.symm, if_pos hs]
  · rw [if_neg e, if_neg (Ne.symm e)]

/-- Reading and writing an order through a pointer is reading and writing the pool. -/
theorem orderMut_bind {I : CowBook → Book → Prop} {new : Order → Order} {k : Order → Run CowBook β}
    {l : Order → Run Book β} (h : ∀ o, Meets strict (Mirrors rows levels K) I (k o) (l o)) :
    Meets strict (Mirrors rows levels K) I (do
      let p ← orderMut slot
      let o ← load p
      store p (new o)
      k o) (do
      let o ← Book.order slot
      Book.setOrder slot (new o)
      l o) := by
  have hpair : Tracks strict rows levels K (do
      let p ← orderMut slot
      let o ← load p
      store p (new o)
      return o) (do
      let o ← Book.order slot
      Book.setOrder slot (new o)
      return o) := by
    refine Lockstep.of_cases fun w b hm => ?_
    cases hs : b.pool[slot]? with
    | none =>
      obtain ⟨q, w', e⟩ := orderMut_stops hm hs
      have e' : Book.order slot b = .error .indexOutOfBounds b := by simp only [Book.order, hs]
      exact .inr ⟨_, _, _, _, bind_error e _, bind_error e' _⟩
    | some o =>
      have hlt := (Array.getElem?_eq_some_iff.mp hs).1
      obtain ⟨p, w', e, hm', hchunk, hpins, hindex⟩ := orderMut_ok hm hlt
      rw [← hchunk] at hpins hindex
      obtain ⟨w'', e', hm''⟩ := store_mirrors hm' hlt hpins hindex (new o)
      have hload : load p w' = .ok o w' := by
        have hitem := hpins.item.trans ((hm'.order slot).trans hs)
        simp only [load, get_bind, hindex, hitem]
        rfl
      have hbook : Book.order slot b = .ok o b := by simp only [Book.order, hs]
      have hset : Book.setOrder slot (new o) b =
          .ok () { b with pool := b.pool.setIfInBounds slot (new o) } := by
        simp only [Book.setOrder, hlt, if_true]
      refine .inl ⟨o, w'', _, ?_, ?_, hm''⟩
      · exact (bind_ok e _).trans ((bind_ok hload _).trans (bind_ok e' _))
      · exact (bind_ok hbook _).trans (bind_ok hset _)
  have hall := Meets.bind hpair h
  simpa only [bind_assoc, pure_bind] using hall

/-- Overwriting a whole order. -/
theorem orderMut_set {I : CowBook → Book → Prop} {o : Order} {k : Run CowBook β} {l : Run Book β}
    (h : Meets strict (Mirrors rows levels K) I k l) :
    Meets strict (Mirrors rows levels K) I (do
      let p ← orderMut slot
      store p o
      k) (do
      Book.setOrder slot o
      l) := by
  have hpair : Tracks strict rows levels K (orderMut slot >>= fun p => store p o)
      (Book.setOrder slot o) := by
    refine Lockstep.of_cases fun w b hm => ?_
    by_cases hs : slot < b.pool.size
    · obtain ⟨p, w', e, hm', hchunk, hpins, hindex⟩ := orderMut_ok hm hs
      rw [← hchunk] at hpins hindex
      obtain ⟨w'', e', hm''⟩ := store_mirrors hm' hs hpins hindex o
      refine .inl ⟨(), w'', _, (bind_ok e _).trans e', ?_, hm''⟩
      simp only [Book.setOrder, hs, if_true]
    · obtain ⟨q, w', e⟩ := orderMut_stops hm (Array.getElem?_eq_none (Nat.le_of_not_lt hs))
      have e' : Book.setOrder slot o b = .error .indexOutOfBounds b := by
        simp only [Book.setOrder, hs, if_false]
      exact .inr ⟨_, _, _, _, bind_error e _, e'⟩
  have hall := Meets.bind hpair fun _ => h
  simpa only [bind_assoc] using hall

/-- A level that was read is in range. -/
theorem level_learns (side t : Nat) :
    Learns strict rows levels K (K.and (inRange side t)) (level side t) (Book.level side t) := by
  refine Meets.learn (level_tracks side t) (fun _ _ h => h) fun b l w' b' e h => h.knowing ⟨h.known, ?_⟩
  unfold Book.level at e
  split at e
  · cases e
    rename_i hl
    change ((w'.lane side).get LEVEL_CHUNK t).isSome
    rw [h.level side t, hl]
    rfl
  · cases e

/-- The pointer `levelMut` returned is kept while the program goes on. -/
theorem levelMut_holding {I : CowBook → Book → Prop} {k : Ptr → Run CowBook β} {l : Run Book β}
    (h : ∀ lvl, Meets strict (Mirrors rows levels (K.and (refersTo side t lvl))) I (k lvl) l) :
    Meets strict (Mirrors rows levels (K.and (inRange side t))) I (levelMut side t >>= k) l := by
  intro w b hm
  have hsome : ((w.lane side).get LEVEL_CHUNK t).isSome := hm.known.2
  obtain ⟨a, p, e⟩ := (hm.sound side).pin_isSome hsome
  have hpins := Pages.pin_pins e
  have hget := (hm.sound side).pin_get e
  have hrows : setRows b side (b.lane side) = b := by
    unfold setRows Book.lane
    split <;> rfl
  have hm' := hm.setLane ((hm.sound side).pin e) rfl fun u => (hget _ u).trans (hm.level side u)
  rw [hrows] at hm'
  have hlane : (w.setLane side p).lane side = p := by
    rw [setLane_lane, if_pos Iff.rfl]
  have hrun : (levelMut side t >>= k) w = k ⟨a, t % LEVEL_CHUNK⟩ (w.setLane side p) := by
    refine bind_ok ?_ k
    simp only [levelMut, get_bind, e, set_bind]
    exact point_ok hpins.place (by rw [hget]; exact hsome)
  have hrefers : RefersTo side t ⟨a, t % LEVEL_CHUNK⟩ (w.setLane side p) := by
    refine ⟨?_, rfl, ?_⟩
    · rw [hlane, setLane_gen]
      exact hpins
    · rw [hlane, hget]
      exact hsome
  have hgo := h ⟨a, t % LEVEL_CHUNK⟩ _ _ (hm'.knowing ⟨hm'.known.1, hrefers⟩)
  rw [hrun]
  exact hgo

theorem levelMut_stops (h : Mirrors rows levels K w b) (ht : (b.lane side)[t]? = none) :
    ∃ q w', levelMut side t w = .error q w' := by
  have hnone : (w.lane side).get LEVEL_CHUNK t = none := (h.level side t).trans ht
  unfold levelMut
  simp only [get_bind]
  cases e : (w.lane side).pin w.gen (t / LEVEL_CHUNK) with
  | none => exact ⟨_, _, rfl⟩
  | some ap =>
    obtain ⟨a, p⟩ := ap
    have hget := (h.sound side).pin_get e LEVEL_CHUNK t
    rw [hnone] at hget
    obtain ⟨q, e'⟩ := point_stops (w.setLane side p) (Pages.pin_pins e).place hget
    exact ⟨q, _, e'⟩

theorem loadLevel_tracks (side t : Nat) (lvl : Ptr) :
    Tracks strict rows levels (K.and (refersTo side t lvl)) (loadLevel side lvl)
      (Book.level side t) := by
  refine Lockstep.of_cases fun w b h => ?_
  obtain ⟨hpins, hindex, hsome⟩ := h.known.2
  obtain ⟨l, hl⟩ := Option.isSome_iff_exists.mp hsome
  have hrow := (h.level side t).symm.trans hl
  have hitem := hpins.item.trans hl
  refine .inl ⟨l, w, b, ?_, by simp only [Book.level, hrow], h⟩
  simp only [loadLevel, get_bind, hindex, hitem]
  rfl

theorem storeLevel_tracks (side t : Nat) (lvl : Ptr) (l : PriceLevel) :
    Tracks strict rows levels (K.and (refersTo side t lvl)) (storeLevel side lvl l)
      (Book.setLevel side t l) := by
  refine Lockstep.of_cases fun w b h => ?_
  obtain ⟨hpins, hindex, hsome⟩ := h.known.2
  obtain ⟨l₀, hl⟩ := Option.isSome_iff_exists.mp hsome
  have hrow := (h.level side t).symm.trans hl
  have ht := (Array.getElem?_eq_some_iff.mp hrow).1
  have hbook : Book.setLevel side t l b =
      .ok () (setRows b side ((b.lane side).setIfInBounds t l)) := by
    rw [Book.setLevel, if_pos ht]
    by_cases hs : side = 0
    · simp only [setRows, Book.lane, hs, if_true]
    · simp only [setRows, Book.lane, hs, if_false]
  refine .inl ⟨(), _, _, rfl, hbook, ?_⟩
  rw [hindex]
  refine h.setLane (hpins.setItem (h.sound side) l) Array.size_setIfInBounds fun u => ?_
  rw [hpins.setItem_get (h.sound side) hsome l u, Array.getElem?_setIfInBounds, h.level side u]
  by_cases e : u = t
  · rw [if_pos e, if_pos e.symm, if_pos ht]
  · rw [if_neg e, if_neg (Ne.symm e)]

/-- A call that takes a pointer to a level, where the flat book fails if there is no such level. -/
theorem levelMut_pairs {y : Run Book α} {x : Ptr → Run CowBook α}
    (hstops : ∀ b : Book, (b.lane side)[t]? = none → ∃ q b', y b = .error q b')
    (h : ∀ lvl, Tracks strict rows levels (K.and (refersTo side t lvl)) (x lvl) y) :
    Tracks strict rows levels K (levelMut side t >>= x) y := by
  intro w b hm
  cases ht : (b.lane side)[t]? with
  | none =>
    obtain ⟨q, w', e⟩ := levelMut_stops hm ht
    obtain ⟨q', b', e'⟩ := hstops b ht
    exact both_stop (bind_error e _) e'
  | some l =>
    have hknown : (inRange side t).holds w := by
      change ((w.lane side).get LEVEL_CHUNK t).isSome
      rw [hm.level side t, ht]
      rfl
    have hhold : Meets strict (Mirrors rows levels (K.and (inRange side t)))
        (Mirrors rows levels K) (levelMut side t >>= x) y :=
      levelMut_holding fun lvl => (h lvl).forget
    exact hhold w b (hm.knowing ⟨hm.known, hknown⟩)

/-- Reading and writing a level through a pointer is reading and writing the lane. -/
theorem levelMut_tracks (side t : Nat) (new : PriceLevel → PriceLevel) :
    Tracks strict rows levels K (do
      let lvl ← levelMut side t
      let l ← loadLevel side lvl
      storeLevel side lvl (new l)) (do
      let l ← Book.level side t
      Book.setLevel side t (new l)) := by
  refine levelMut_pairs (fun b ht => ⟨.indexOutOfBounds, b, bind_error ?_ _⟩) fun lvl =>
    (loadLevel_tracks side t lvl).bind fun l => storeLevel_tracks side t lvl (new l)
  simp only [Book.level, ht]

/-- Overwriting a whole level. -/
theorem levelMut_set (side t : Nat) (l : PriceLevel) :
    Tracks strict rows levels K (do
      let lvl ← levelMut side t
      storeLevel side lvl l) (Book.setLevel side t l) := by
  refine levelMut_pairs (fun b ht => ⟨.indexOutOfBounds, b, ?_⟩) fun lvl =>
    storeLevel_tracks side t lvl l
  have hge : ¬ t < (b.lane side).size := Nat.not_lt.mpr (Array.getElem?_eq_none_iff.mp ht)
  rw [Book.setLevel, if_neg hge]

theorem setNext_tracks (slot v : Nat) :
    Tracks strict rows levels K (setNext slot v) (Book.setNext slot v) := by
  have h := @orderMut_bind strict rows levels slot Unit K (Mirrors rows levels K) (fun o => { o with next := v })
    (fun _ => pure ()) (fun _ => pure ()) fun _ => Lockstep.pure ()
  simp only [bind_pure_unit] at h
  exact h

theorem setPrev_tracks (slot v : Nat) :
    Tracks strict rows levels K (setPrev slot v) (Book.setPrev slot v) := by
  have h := @orderMut_bind strict rows levels slot Unit K (Mirrors rows levels K) (fun o => { o with prev := v })
    (fun _ => pure ()) (fun _ => pure ()) fun _ => Lockstep.pure ()
  simp only [bind_pure_unit] at h
  exact h

theorem link_tracks (side t slot prevTail : Nat) (lvl : Ptr) :
    Tracks strict rows levels (K.and (refersTo side t lvl)) (link side slot prevTail lvl)
      (Book.link side t slot prevTail) := by
  unfold link Book.link
  refine Lockstep.ite Iff.rfl (fun _ => setNext_tracks prevTail slot) fun _ => ?_
  exact (loadLevel_tracks side t lvl).bind fun l => storeLevel_tracks side t lvl _

theorem tickOf_tracks (price : Int) :
    Tracks strict rows levels K (tickOf price) (Book.tickOf price) := by
  refine Lockstep.get_bind fun w b h => ?_
  rw [h.priceMin, h.tick]
  exact Lockstep.ite Iff.rfl (fun _ => Lockstep.throw _ _) fun _ => Lockstep.pure _

theorem getSlot_tracks (orderId : Int) :
    Tracks strict rows levels K (getSlot orderId) (Book.getSlot orderId) := by
  refine Lockstep.of_cases fun w b h => ?_
  simp only [getSlot, get_bind, Book.getSlot, h.ids]
  cases b.ids.get orderId with
  | none => exact .inr ⟨_, _, _, _, rfl, rfl⟩
  | some slot => exact .inl ⟨_, _, _, rfl, rfl, h⟩

theorem Mirrors.setIds (h : Mirrors rows levels K w b) (m : IdMap) :
    Mirrors rows levels K { w with ids := m } { b with ids := m } :=
  { h with ids := rfl, known := h.same rfl rfl rfl rfl }

theorem putId_tracks (orderId : Int) (slot : Nat) :
    Tracks strict rows levels K (putId orderId slot) (Book.putId orderId slot) := by
  refine Lockstep.of_cases fun w b h => ?_
  simp only [putId, get_bind, Book.putId, h.ids]
  cases b.ids.put orderId slot with
  | none => exact .inr ⟨_, _, _, _, rfl, rfl⟩
  | some m => exact .inl ⟨_, _, _, rfl, rfl, h.setIds m⟩

theorem delId_tracks (orderId : Int) :
    Tracks strict rows levels K (delId orderId) (Book.delId orderId) := by
  refine Lockstep.of_cases fun w b h => ?_
  simp only [delId, get_bind, Book.delId, h.ids]
  cases b.ids.del orderId with
  | none => exact .inr ⟨_, _, _, _, rfl, rfl⟩
  | some m => exact .inl ⟨_, _, _, rfl, rfl, h.setIds m⟩

theorem setFreeHead_tracks (head : Nat) : Tracks strict rows levels K
    (modify fun w => { w with freeHead := head } : Run CowBook Unit)
    (modify fun b => { b with freeHead := head }) :=
  Lockstep.modify fun _ _ h => { h with freeHead := rfl, known := h.same rfl rfl rfl rfl }

theorem allocSlot_tracks : Tracks strict rows levels K allocSlot Book.allocSlot := by
  refine Lockstep.get_bind fun w b h => ?_
  rw [h.freeHead, h.hwm, h.capacity]
  refine Lockstep.ite Iff.rfl (fun _ => ?_) fun _ => ?_
  · refine (order_tracks b.freeHead).bind fun o => ?_
    exact (setFreeHead_tracks o.next).bind fun _ => Lockstep.pure _
  · refine Lockstep.ite Iff.rfl (fun _ => Lockstep.throw _ _) fun _ => ?_
    refine Lockstep.bind (Lockstep.modify fun w b h => ?_) fun _ => Lockstep.pure _
    exact { h with hwm := by rw [h.hwm], known := h.same rfl rfl rfl rfl }

theorem freeSlot_tracks (slot : Nat) :
    Tracks strict rows levels K (freeSlot slot) (Book.freeSlot slot) := by
  refine Lockstep.get_bind fun w b h => ?_
  rw [h.freeHead]
  exact orderMut_bind fun _ => setFreeHead_tracks slot

theorem noteBest_tracks (side t : Nat) :
    Tracks strict rows levels K (noteBest side t) (Book.noteBest side t) := by
  refine Lockstep.bind (Lockstep.modify fun w b h => ?_) fun _ => Lockstep.modify fun w b h => ?_
  · exact { h with bestBid := by rw [h.bestBid], known := h.same rfl rfl rfl rfl }
  · exact { h with bestAsk := by rw [h.bestAsk], known := h.same rfl rfl rfl rfl }

theorem insert_tracks (orderId price qty : Int) (side : Nat) :
    Tracks strict rows levels K (insert orderId price qty side)
      (Book.insert orderId price qty side) := by
  unfold insert Book.insert
  refine (tickOf_tracks price).bind fun t => allocSlot_tracks.bind fun slot => ?_
  refine Meets.bind (level_learns side t) fun l => orderMut_set (levelMut_holding fun lvl => ?_)
  refine Tracks.forget ?_
  refine (link_tracks side t slot l.tail lvl).bind fun _ => ?_
  refine (loadLevel_tracks side t lvl).bind fun level => ?_
  refine (storeLevel_tracks side t lvl _).bind fun _ => ?_
  exact (putId_tracks orderId slot).bind fun _ => noteBest_tracks side t

theorem update_tracks (orderId fillQty : Int) :
    Tracks strict rows levels K (update orderId fillQty) (Book.update orderId fillQty) := by
  unfold update Book.update
  refine (getSlot_tracks orderId).bind fun slot => orderMut_bind fun o => ?_
  exact (tickOf_tracks o.price).bind fun t => levelMut_tracks o.side t _

theorem unlink_tracks (slot side t : Nat) (rem : Int) :
    Tracks strict rows levels K (unlink slot side t rem) (Book.unlink slot side t rem) := by
  unfold unlink Book.unlink
  refine (order_tracks slot).bind fun o => ?_
  refine Lockstep.ite Iff.rfl (fun _ => (setNext_tracks _ _).bind fun _ => ?_) fun _ => ?_
  all_goals
    refine Lockstep.ite Iff.rfl (fun _ => (setPrev_tracks _ _).bind fun _ => ?_) fun _ => ?_
    all_goals exact levelMut_tracks side t _

theorem scanBids_tracks (t : Nat) :
    Tracks strict rows levels K (scanBids t) (Book.scanBids t) := by
  induction t with
  | zero =>
    exact (level_tracks 0 0).bind fun l =>
      Lockstep.ite Iff.rfl (fun _ => Lockstep.pure _) fun _ => Lockstep.pure _
  | succ t ih =>
    exact (level_tracks 0 (t + 1)).bind fun l =>
      Lockstep.ite Iff.rfl (fun _ => Lockstep.pure _) fun _ => ih

theorem scanAsks_tracks (t n : Nat) :
    Tracks strict rows levels K (scanAsks t n) (Book.scanAsks t n) := by
  induction n generalizing t with
  | zero => exact Lockstep.pure _
  | succ n ih =>
    exact (level_tracks 1 t).bind fun l =>
      Lockstep.ite Iff.rfl (fun _ => Lockstep.pure _) fun _ => ih (t + 1)

theorem repairBest_tracks (side t : Nat) :
    Tracks strict rows levels K (repairBest side t) (Book.repairBest side t) := by
  refine Lockstep.get_bind fun w b h => ?_
  have hlevels : w.nLevels = b.nLevels := h.nLevels.trans h.levels.symm
  rw [h.bestBid, h.bestAsk, hlevels]
  refine Lockstep.ite Iff.rfl (fun _ => ?_) fun _ => ?_
  · refine Lockstep.ite Iff.rfl (fun _ => Lockstep.pure _) fun _ => ?_
    refine (level_tracks 0 t).bind fun l => Lockstep.ite Iff.rfl (fun _ => Lockstep.pure _) fun _ => ?_
    refine (scanBids_tracks t).bind fun nb => Lockstep.modify fun w b h => ?_
    exact { h with bestBid := rfl, known := h.same rfl rfl rfl rfl }
  · refine Lockstep.ite Iff.rfl (fun _ => Lockstep.pure _) fun _ => ?_
    refine (level_tracks 1 t).bind fun l => Lockstep.ite Iff.rfl (fun _ => Lockstep.pure _) fun _ => ?_
    refine (scanAsks_tracks t _).bind fun na => Lockstep.modify fun w b h => ?_
    exact { h with bestAsk := rfl, known := h.same rfl rfl rfl rfl }

theorem cancel_tracks (orderId : Int) :
    Tracks strict rows levels K (cancel orderId) (Book.cancel orderId) := by
  unfold cancel Book.cancel
  refine (getSlot_tracks orderId).bind fun slot => (order_tracks slot).bind fun o => ?_
  refine (tickOf_tracks o.price).bind fun t => (delId_tracks orderId).bind fun _ => ?_
  refine (unlink_tracks slot o.side t _).bind fun _ => ?_
  exact (freeSlot_tracks slot).bind fun _ => repairBest_tracks o.side t

theorem fill_tracks (orderId : Int) :
    Tracks strict rows levels K (fill orderId) (Book.fill orderId) := by
  unfold fill Book.fill
  refine (getSlot_tracks orderId).bind fun slot => orderMut_bind fun o => ?_
  refine (tickOf_tracks o.price).bind fun t => (delId_tracks orderId).bind fun _ => ?_
  refine (unlink_tracks slot o.side t _).bind fun _ => ?_
  exact (freeSlot_tracks slot).bind fun _ => repairBest_tracks o.side t

/-- Whatever the call, both books take it or both stop. -/
theorem apply_tracks (op : Op) : Tracks strict rows levels K (apply op) (Book.apply op) := by
  cases op with
  | insert orderId price qty side => exact insert_tracks orderId price qty side
  | update orderId fillQty => exact update_tracks orderId fillQty
  | cancel orderId => exact cancel_tracks orderId
  | fill orderId => exact fill_tracks orderId

end CowBook

end HiPerf.Go
