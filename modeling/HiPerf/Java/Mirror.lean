import HiPerf.Java.Cow
import HiPerf.Java.Flat
import HiPerf.Lib.Lockstep

/-!
The copy-on-write book of Java and its flat book, call by call. The flat book keeps the slot of
an order in the order itself, the other one in the map; a handle that is none fails in both.
-/

namespace HiPerf.Java

open Machine Exec Epoch HashMaps

variable {lm : Long2LongHashMap} {om : Long2ObjectHashMap Int}

/-- A negative handle has a negative quotient, or a negative remainder. -/
theorem tdiv_or_tmod_neg {i : Int} (c : Nat) (hi : i < 0) :
    i.tdiv c < 0 ∨ i.tmod c < 0 := by
  by_contra h
  obtain ⟨hdiv, hmod⟩ := not_or.mp h
  have hsum := Int.mul_tdiv_add_tmod i c
  have hprod : 0 ≤ (c : Int) * i.tdiv c := Int.mul_nonneg (Int.natCast_nonneg c) (by omega)
  omega

theorem nth_of_neg {α : Type} (a : Array α) {i : Int} (hi : i < 0) : nth a i = none :=
  if_neg (by omega)

theorem nth_eq_some {α : Type} {a : Array α} {i : Int} {x : α} (h : nth a i = some x) :
    ∃ n : Nat, i = n ∧ a[n]? = some x := by
  unfold nth at h
  split at h
  · rename_i hi
    exact ⟨i.toNat, (Int.toNat_of_nonneg hi).symm, h⟩
  · cases h

theorem entry_of_neg {α : Type} (p : Pages α) (a : Nat) {k : Int} (hk : k < 0) :
    entry p a k = none := if_neg (by omega)

theorem entry_ofNat {α : Type} (p : Pages α) (a k : Nat) : entry p a k = p.item a k := by
  rw [entry, if_pos (Int.natCast_nonneg k), Int.toNat_natCast]

/-- The order at a handle knows its slot. -/
def Book.Named (b : Book om) (slot : Int) : Prop := ∃ o, nth b.pool slot = some o ∧ o.slot = slot

namespace CowBook

/-- No chunk of an earlier generation was written, and no reference has gone bad. -/
structure Grows (w w' : CowBook lm) : Prop where
  gen : w'.gen = w.gen
  chunk : w'.chunk = w.chunk
  orders : Pages.Grows w.gen.toNat w.orders w'.orders
  bids : Pages.Grows w.gen.toNat w.bids w'.bids
  asks : Pages.Grows w.gen.toNat w.asks w'.asks

theorem Grows.lane {w w' : CowBook lm} (h : Grows w w') (side : Nat) :
    Pages.Grows w.gen.toNat (w.lane side) (w'.lane side) := by
  unfold CowBook.lane
  split
  · exact h.bids
  · exact h.asks

/-- What is known of the two books, whichever chunks are copied and written. -/
structure Knowledge (lm : Long2LongHashMap) (om : Long2ObjectHashMap Int) where
  holds : CowBook lm → Book om → Prop
  grows : ∀ {w w' b b'}, holds w b → Grows w w' → (∀ slot, b.Named slot → b'.Named slot) →
    holds w' b'

def Knowledge.nothing : Knowledge lm om := ⟨fun _ _ => True, fun _ _ _ => trivial⟩

def Knowledge.and (K K' : Knowledge lm om) : Knowledge lm om where
  holds w b := K.holds w b ∧ K'.holds w b
  grows h hg hn := ⟨K.grows h.1 hg hn, K'.grows h.2 hg hn⟩

def named (slot : Int) : Knowledge lm om := ⟨fun _ b => b.Named slot, fun h _ hn => hn slot h⟩

/-- `lc` is the chunk of level `t` of the lane, and is written without a copy. -/
structure RefersTo (side t lc : Nat) (w : CowBook lm) : Prop where
  pins : Pages.Pins w.gen.toNat (t / LEVEL_CHUNK) lc (w.lane side)
  shows : ((w.lane side).get LEVEL_CHUNK t).isSome

def refersTo (side t lc : Nat) : Knowledge lm om where
  holds w _ := RefersTo side t lc w
  grows := fun {w w' _ _} h hg _ => by
    refine ⟨?_, (hg.lane side).shows _ _ h.shows⟩
    rw [hg.gen]
    exact (hg.lane side).pins _ _ h.pins

/-- `w` shows what `b` holds, of which lanes have `rows` levels. The ids in the maps are some of
`keys`, and an order that is in the map knows its slot. -/
structure Mirrors (rows : Nat) (keys : List Int) (K : Knowledge lm om) (w : CowBook lm)
    (b : Book om) : Prop where
  priceMin : w.priceMin = b.priceMin
  tick : w.tick = b.tick
  nLevels : w.nLevels = b.nLevels
  capacity : w.capacity = b.pool.size
  hwm : w.hwm = b.hwm
  freeHead : w.freeHead = b.freeHead
  bestBid : w.bestBid = b.bestBid
  bestAsk : w.bestAsk = b.bestAsk
  ids : Paired lm om keys w.ids b.ids
  missing : lm.missingValue w.ids = NIL
  slot : ∀ k i, om.get b.ids k = some i → b.Named i
  pool : b.pool.size ≤ 2147483647
  order : ∀ s, w.orders.get w.chunk s = b.pool[s]?.map Order.cell
  level : ∀ side t, (w.lane side).get LEVEL_CHUNK t = (b.lane side)[t]?
  size : ∀ side, (b.lane side).size = rows
  levels : b.nLevels = rows
  chunk : 0 < w.chunk
  gen : 1 ≤ w.gen
  orders : w.orders.Sound w.gen.toNat
  bids : w.bids.Sound w.gen.toNat
  asks : w.asks.Sound w.gen.toNat
  known : K.holds w b

variable {strict : Prop} {keys : List Int} {rows side t lc s : Nat} {slot : Int} {α β : Type}
  {K K' : Knowledge lm om}
  {w w' : CowBook lm} {b b' : Book om} {o o' : Order}

/-- From books that mirror each other, both programs give the same result and end in such. -/
abbrev Tracks (strict : Prop) (rows : Nat) (keys : List Int) (K : Knowledge lm om)
    (x : Run (CowBook lm) α) (y : Run (Book om) α) : Prop :=
  Lockstep strict (Mirrors rows keys K) x y

namespace Mirrors

theorem sound (h : Mirrors rows keys K w b) (side : Nat) : (w.lane side).Sound w.gen.toNat := by
  unfold CowBook.lane
  split
  · exact h.bids
  · exact h.asks

theorem knowing (h : Mirrors rows keys K w b) (hk : K'.holds w b) : Mirrors rows keys K' w b :=
  { h with known := hk }

theorem forget (h : Mirrors rows keys (K.and K') w b) : Mirrors rows keys K w b :=
  h.knowing h.known.1

/-- Nothing but the numbers of the writer is new. -/
theorem same (h : Mirrors rows keys K w b) (hg : w'.gen = w.gen) (hc : w'.chunk = w.chunk)
    (ho : w'.orders = w.orders) (hb : w'.bids = w.bids) (ha : w'.asks = w.asks)
    (hp : b'.pool = b.pool) : K.holds w' b' := by
  refine K.grows h.known ⟨hg, hc, ?_, ?_, ?_⟩ fun slot hs => by rwa [Book.Named, hp]
  · rw [ho]; exact h.orders.grows
  · rw [hb]; exact h.bids.grows
  · rw [ha]; exact h.asks.grows

/-- The order chunks are others, and show the same. -/
theorem pinned (h : Mirrors rows keys K w b) {p : Pages Cell}
    (hg : Pages.Grows w.gen.toNat w.orders p)
    (hget : ∀ s, p.get w.chunk s = w.orders.get w.chunk s) :
    Mirrors rows keys K { w with orders := p } b :=
  { h with
    order := fun s => (hget s).trans (h.order s)
    orders := hg.sound
    known := K.grows h.known ⟨rfl, rfl, hg, h.bids.grows, h.asks.grows⟩ fun _ hs => hs }

/-- An order is another one, which knows its slot if the one before did. -/
theorem setOrder (h : Mirrors rows keys K w b) (hs : b.pool[s]? = some o)
    (hslot : o'.slot = o.slot ∨ o'.slot = s) {p : Pages Cell}
    (hg : Pages.Grows w.gen.toNat w.orders p)
    (hget : ∀ j, p.get w.chunk j = if j = s then some o'.cell else w.orders.get w.chunk j) :
    Mirrors rows keys K { w with orders := p } { b with pool := b.pool.setIfInBounds s o' } := by
  have hlt := (Array.getElem?_eq_some_iff.mp hs).1
  have hpool : ∀ j, (b.pool.setIfInBounds s o')[j]? = if j = s then some o' else b.pool[j]? := by
    intro j
    rw [Array.getElem?_setIfInBounds]
    by_cases e : s = j
    · rw [if_pos e, if_pos hlt, if_pos e.symm]
    · rw [if_neg e, if_neg (Ne.symm e)]
  have hnamed : ∀ i, b.Named i → Book.Named { b with pool := b.pool.setIfInBounds s o' } i := by
    rintro i ⟨u, hu, hui⟩
    obtain ⟨n, rfl, hn⟩ := nth_eq_some hu
    rw [Book.Named, nth_ofNat, hpool]
    by_cases e : n = s
    · subst e
      rw [hs] at hn
      cases hn
      refine ⟨o', if_pos rfl, ?_⟩
      cases hslot with
      | inl e => exact e.trans hui
      | inr e => exact e
    · exact ⟨u, (if_neg e).trans hn, hui⟩
  refine { h with
    capacity := ?_
    slot := fun k i hk => hnamed i (h.slot k i hk)
    pool := Array.size_setIfInBounds.trans_le h.pool
    order := ?_
    orders := hg.sound
    known := K.grows h.known ⟨rfl, rfl, hg, h.bids.grows, h.asks.grows⟩ hnamed }
  · rw [Array.size_setIfInBounds]
    exact h.capacity
  · intro j
    rw [hget, hpool]
    split
    · rfl
    · exact h.order j

end Mirrors

theorem setLane_lane (w : CowBook lm) (side side' : Nat) (p : Pages Level) :
    (w.setLane side p).lane side' = if side = 0 ↔ side' = 0 then p else w.lane side' := by
  unfold setLane lane
  by_cases h : side = 0 <;> by_cases h' : side' = 0 <;> simp [h, h']

@[simp] theorem setLane_gen (w : CowBook lm) (side : Nat) (p : Pages Level) :
    (w.setLane side p).gen = w.gen := by
  unfold setLane
  split <;> rfl

@[simp] theorem setLane_chunk (w : CowBook lm) (side : Nat) (p : Pages Level) :
    (w.setLane side p).chunk = w.chunk := by
  unfold setLane
  split <;> rfl

/-- The book with another lane. -/
def setRows (b : Book om) (side : Nat) (ls : Array Level) : Book om :=
  if side = 0 then { b with bids := ls } else { b with asks := ls }

theorem setRows_lane (b : Book om) (side side' : Nat) (ls : Array Level) :
    (setRows b side ls).lane side' = if side = 0 ↔ side' = 0 then ls else b.lane side' := by
  unfold setRows Book.lane
  by_cases h : side = 0 <;> by_cases h' : side' = 0 <;> simp [h, h']

theorem setRows_self (b : Book om) (side : Nat) : setRows b side (b.lane side) = b := by
  unfold setRows Book.lane
  split <;> rfl

/-- The chunks of a lane are others, which show the levels `ls`. -/
theorem Mirrors.setLane (h : Mirrors rows keys K w b) {p : Pages Level}
    (hg : Pages.Grows w.gen.toNat (w.lane side) p) {ls : Array Level}
    (hsize : ls.size = (b.lane side).size) (hget : ∀ u, p.get LEVEL_CHUNK u = ls[u]?) :
    Mirrors rows keys K (w.setLane side p) (setRows b side ls) := by
  have hgrows : Grows w (w.setLane side p) := by
    refine ⟨setLane_gen w side p, setLane_chunk w side p, ?_, ?_, ?_⟩
    all_goals
      unfold CowBook.setLane
      unfold CowBook.lane at hg
      split at hg <;> rename_i hs
      all_goals simp only [hs, if_true, if_false]
    · exact h.orders.grows
    · exact h.orders.grows
    · exact hg
    · exact h.bids.grows
    · exact h.asks.grows
    · exact hg
  have hlevel : ∀ side' u, ((w.setLane side p).lane side').get LEVEL_CHUNK u =
      ((setRows b side ls).lane side')[u]? := by
    intro side' u
    rw [setLane_lane, setRows_lane]
    split
    · exact hget u
    · exact h.level side' u
  have hrows : ∀ side', ((setRows b side ls).lane side').size = rows := by
    intro side'
    rw [setRows_lane]
    split
    · rw [hsize, h.size]
    · exact h.size side'
  have hnamed : ∀ i, b.Named i → (setRows b side ls).Named i := by
    intro i hi
    unfold setRows
    split
    · exact hi
    · exact hi
  have hknown := K.grows h.known hgrows hnamed
  have hbids := hgrows.bids.sound
  have hasks := hgrows.asks.sound
  revert hlevel hrows hknown hbids hasks
  unfold CowBook.setLane setRows
  split
  · intro hlevel hrows hknown hbids hasks
    exact { h with level := hlevel, size := hrows, bids := hbids, known := hknown }
  · intro hlevel hrows hknown hbids hasks
    exact { h with level := hlevel, size := hrows, asks := hasks, known := hknown }

theorem order_ok (h : Mirrors rows keys K w b) (ho : nth b.pool slot = some o) :
    order slot w = .ok o.cell w := by
  obtain ⟨n, rfl, hn⟩ := nth_eq_some ho
  have hget : w.orders.get w.chunk n = some o.cell := (h.order n).trans (by rw [hn]; rfl)
  cases ht : w.orders.table[n / w.chunk]? with
  | none =>
    simp only [Pages.get, Epoch.get, ht, Option.bind_none] at hget
    cases hget
  | some a =>
    have hitem := (Pages.item_of_place ht).trans hget
    have hread : orderChunkForRead n w = .ok a w := by
      simp only [orderChunkForRead, get_bind, ← Int.ofNat_tdiv, nth_ofNat, ht]
      rfl
    refine (bind_ok hread _).trans ?_
    simp only [offset, cell, bind_assoc, get_bind, pure_bind, ← Int.ofNat_tmod, entry_ofNat, hitem]

/-- Behind a reference that was got for a handle that is none there is no entry. -/
theorem entry_none {p : Pages α} {a c : Nat} (ht : nth p.table (slot.tdiv c) = some a)
    (hget : ∀ n : Nat, slot = n → p.get c n = none) : entry p a (slot.tmod c) = none := by
  by_cases hneg : slot < 0
  · obtain hdiv | hmod := tdiv_or_tmod_neg c hneg
    · rw [nth_of_neg _ hdiv] at ht
      cases ht
    · exact entry_of_neg p a hmod
  · obtain ⟨n, rfl⟩ := Int.eq_ofNat_of_zero_le (Int.not_lt.mp hneg)
    rw [← Int.ofNat_tdiv, nth_ofNat] at ht
    rw [← Int.ofNat_tmod, entry_ofNat, Pages.item_of_place ht]
    exact hget n rfl

theorem Mirrors.get_none (h : Mirrors rows keys K w b) (ho : nth b.pool slot = none) (n : Nat)
    (e : slot = n) : w.orders.get w.chunk n = none := by
  subst e
  rw [nth_ofNat] at ho
  rw [h.order n, ho]
  rfl

theorem order_stops (h : Mirrors rows keys K w b) (ho : nth b.pool slot = none) :
    ∃ q, order slot w = .error q w := by
  unfold order orderChunkForRead
  simp only [bind_assoc, get_bind]
  cases ht : nth w.orders.table (slot.tdiv w.chunk) with
  | none => exact ⟨_, rfl⟩
  | some a =>
    have hnone := entry_none ht (h.get_none ho)
    refine ⟨.indexOutOfBounds, ?_⟩
    simp only [pure_bind, offset, bind_assoc, get_bind, cell, hnone]

theorem bookOrder_ok (ho : nth b.pool slot = some o) : Book.order slot b = .ok o b := by
  simp only [Book.order, ho]

theorem bookOrder_stops (ho : nth b.pool slot = none) :
    Book.order slot b = .error .indexOutOfBounds b := by
  simp only [Book.order, ho]

/-- What `orderChunkForWrite` does: the chunk of the slot is one to be written, and nothing
shows. -/
theorem orderChunkForWrite_ok (h : Mirrors rows keys K w b) (hs : b.pool[s]? = some o) :
    ∃ a w', orderChunkForWrite s w = .ok a w' ∧ Mirrors rows keys K w' b ∧
      Pages.Pins w'.gen.toNat (s / w'.chunk) a w'.orders := by
  have hsome : (w.orders.get w.chunk s).isSome := by
    rw [h.order s, hs]
    rfl
  obtain ⟨a, p, e⟩ := h.orders.pin_isSome hsome
  refine ⟨a, { w with orders := p }, ?_, ?_, Pages.pin_pins e⟩
  · have hci : ¬ ((s / w.chunk : Nat) : Int) < 0 := Int.not_lt.mpr (Int.natCast_nonneg _)
    simp only [orderChunkForWrite, get_bind, ← Int.ofNat_tdiv, if_neg hci, Int.toNat_natCast, e,
      set_bind]
    rfl
  · exact h.pinned (h.orders.pin e) fun j => h.orders.pin_get e _ j

/-- Through a handle that is none nothing is read or written. -/
theorem forWrite_stops (h : Mirrors rows keys K w b) (ho : nth b.pool slot = none) :
    (∃ q w', orderChunkForWrite slot w = .error q w') ∨
      ∃ a w', orderChunkForWrite slot w = .ok a w' ∧
        entry w'.orders a (slot.tmod w'.chunk) = none := by
  unfold orderChunkForWrite
  simp only [get_bind]
  by_cases hci : slot.tdiv w.chunk < 0
  · rw [if_pos hci]
    exact .inl ⟨_, _, rfl⟩
  · rw [if_neg hci]
    cases e : w.orders.pin w.gen.toNat (slot.tdiv w.chunk).toNat with
    | none => exact .inl ⟨_, _, rfl⟩
    | some ap =>
      obtain ⟨a, p⟩ := ap
      right
      refine ⟨a, { w with orders := p }, rfl, ?_⟩
      have hplace := (Pages.pin_pins e).place
      have ht : nth p.table (slot.tdiv w.chunk) = some a := by
        rw [nth, if_pos (Int.not_lt.mp hci)]
        exact hplace
      apply entry_none ht
      intro n hn
      rw [h.orders.pin_get e]
      exact h.get_none ho n hn

/-- What is known of the order at a handle, if there is one. -/
def Knows (rows : Nat) (keys : List Int) (K : Knowledge lm om) (slot : Int) (P : Order → Prop)
    (w : CowBook lm) (b : Book om) : Prop :=
  Mirrors rows keys K w b ∧ ∀ o, nth b.pool slot = some o → P o

section Bind

variable {P : Order → Prop} {I : CowBook lm → Book om → Prop} {k : Cell → Run (CowBook lm) β}
  {l : Order → Run (Book om) β}

/-- Reading an order. -/
theorem order_knows (h : ∀ o, P o → Meets strict (Mirrors rows keys K) I (k o.cell) (l o)) :
    Meets strict (Knows rows keys K slot P) I (order slot >>= k) (Book.order slot >>= l) := by
  rintro w b ⟨hm, hP⟩
  cases ho : nth b.pool slot with
  | none =>
    obtain ⟨q, e⟩ := order_stops hm ho
    rw [bind_error e, bind_error (bookOrder_stops ho)]
    exact both_stop rfl rfl
  | some o =>
    rw [bind_ok (order_ok hm ho), bind_ok (bookOrder_ok ho)]
    exact h o (hP o ho) w b hm

/-- Reading and writing an order through its chunk is reading and writing the pool. -/
theorem write_knows (new : Order → Order) {new' : Cell → Cell}
    (hnew : ∀ o, (new o).cell = new' o.cell) (hslot : ∀ o, (new o).slot = o.slot)
    (h : ∀ o, P o → Meets strict (Mirrors rows keys K) I (k o.cell) (l o)) :
    Meets strict (Knows rows keys K slot P) I (do
      let oc ← orderChunkForWrite slot
      let oo ← offset slot
      let c ← cell oc oo
      setCell oc oo (new' c)
      k c) (do
      let o ← Book.order slot
      Book.setOrder slot (new o)
      l o) := by
  rintro w b ⟨hm, hP⟩
  cases ho : nth b.pool slot with
  | none =>
    rw [bind_error (bookOrder_stops ho)]
    obtain ⟨q, w', e⟩ | ⟨a, w', e, hnone⟩ := forWrite_stops hm ho
    · rw [bind_error e]
      exact both_stop rfl rfl
    · rw [bind_ok e]
      simp only [offset, bind_assoc, get_bind, pure_bind]
      rw [bind_error (show cell a (slot.tmod w'.chunk) w' = .error .indexOutOfBounds w' by
        simp only [cell, hnone])]
      exact both_stop rfl rfl
  | some o =>
    obtain ⟨n, rfl, hn⟩ := nth_eq_some ho
    obtain ⟨a, w', e, hm', hpins⟩ := orderChunkForWrite_ok hm hn
    have hget : w'.orders.get w'.chunk n = some o.cell := (hm'.order n).trans (by rw [hn]; rfl)
    have hitem := hpins.item.trans hget
    have hread : cell a ((n % w'.chunk : Nat) : Int) w' = .ok o.cell w' := by
      simp only [cell, entry_ofNat, hitem]
    have hwrite : setCell a ((n % w'.chunk : Nat) : Int) (new' o.cell) w' = .ok ()
        { w' with orders := w'.orders.setItem a (n % w'.chunk) (new' o.cell) } := by
      simp only [setCell, entry_ofNat, hitem, Int.toNat_natCast]
    have hset : Book.setOrder n (new o) b =
        .ok () { b with pool := b.pool.setIfInBounds n (new o) } := by
      simp only [Book.setOrder, ho, Int.toNat_natCast]
    have hsome : (w'.orders.get w'.chunk n).isSome := by rw [hget]; rfl
    rw [bind_ok e, bind_ok (bookOrder_ok ho), bind_ok hset]
    simp only [offset, bind_assoc, get_bind, pure_bind, ← Int.ofNat_tmod]
    rw [bind_ok hread, bind_ok hwrite]
    apply h o (hP o ho)
    apply hm'.setOrder hn (.inl (hslot o)) (hpins.setItem hm'.orders _)
    intro j
    rw [hpins.setItem_get hm'.orders hsome, hnew]

/-- The same, where nothing more is known of the order. -/
theorem order_bind (h : ∀ o, Meets strict (Mirrors rows keys K) I (k o.cell) (l o)) :
    Meets strict (Mirrors rows keys K) I (order slot >>= k) (Book.order slot >>= l) :=
  Meets.learn (order_knows (P := fun _ => True) fun o _ => h o)
    (fun _ _ hm => ⟨hm, fun _ _ => trivial⟩) fun _ _ _ _ _ h => h

theorem write_bind (new : Order → Order) {new' : Cell → Cell}
    (hnew : ∀ o, (new o).cell = new' o.cell) (hslot : ∀ o, (new o).slot = o.slot)
    (h : ∀ o, Meets strict (Mirrors rows keys K) I (k o.cell) (l o)) :
    Meets strict (Mirrors rows keys K) I (do
      let oc ← orderChunkForWrite slot
      let oo ← offset slot
      let c ← cell oc oo
      setCell oc oo (new' c)
      k c) (do
      let o ← Book.order slot
      Book.setOrder slot (new o)
      l o) :=
  Meets.learn (write_knows (P := fun _ => True) new hnew hslot fun o _ => h o)
    (fun _ _ hm => ⟨hm, fun _ _ => trivial⟩) fun _ _ _ _ _ h => h

/-- Writing all entries of a slot. -/
theorem overwrite_bind {x : Run (CowBook lm) β} {y : Run (Book om) β} (hslot : o.slot = slot)
    (h : Meets strict (Mirrors rows keys (K.and (named slot))) I x y) :
    Meets strict (Mirrors rows keys K) I (do
      let oc ← orderChunkForWrite slot
      let oo ← offset slot
      setCell oc oo o.cell
      x) (do
      Book.setOrder slot o
      y) := by
  intro w b hm
  cases ho : nth b.pool slot with
  | none =>
    have hstop : Book.setOrder slot o b = .error .indexOutOfBounds b := by
      simp only [Book.setOrder, ho]
    rw [bind_error hstop]
    obtain ⟨q, w', e⟩ | ⟨a, w', e, hnone⟩ := forWrite_stops hm ho
    · rw [bind_error e]
      exact both_stop rfl rfl
    · rw [bind_ok e]
      simp only [offset, bind_assoc, get_bind, pure_bind]
      rw [bind_error (show setCell a (slot.tmod w'.chunk) o.cell w' = .error .indexOutOfBounds w' by
        simp only [setCell, hnone])]
      exact both_stop rfl rfl
  | some old =>
    obtain ⟨n, rfl, hn⟩ := nth_eq_some ho
    obtain ⟨a, w', e, hm', hpins⟩ := orderChunkForWrite_ok hm hn
    have hget : w'.orders.get w'.chunk n = some old.cell := (hm'.order n).trans (by rw [hn]; rfl)
    have hitem := hpins.item.trans hget
    have hwrite : setCell a ((n % w'.chunk : Nat) : Int) o.cell w' = .ok ()
        { w' with orders := w'.orders.setItem a (n % w'.chunk) o.cell } := by
      simp only [setCell, entry_ofNat, hitem, Int.toNat_natCast]
    have hset : Book.setOrder n o b = .ok () { b with pool := b.pool.setIfInBounds n o } := by
      simp only [Book.setOrder, ho, Int.toNat_natCast]
    have hsome : (w'.orders.get w'.chunk n).isSome := by rw [hget]; rfl
    rw [bind_ok e, bind_ok hset]
    simp only [offset, bind_assoc, get_bind, pure_bind, ← Int.ofNat_tmod]
    rw [bind_ok hwrite]
    have hm'' := hm'.setOrder hn (.inr hslot) (hpins.setItem hm'.orders _)
      fun j => hpins.setItem_get hm'.orders hsome _ j
    apply h
    apply hm''.knowing
    refine ⟨hm''.known, o, ?_, hslot⟩
    rw [nth_ofNat, Array.getElem?_setIfInBounds, if_pos rfl,
      if_pos (Array.getElem?_eq_some_iff.mp hn).1]

end Bind

theorem setNext_tracks (slot v : Int) :
    Tracks strict rows keys K (setNext slot v) (Book.setNext slot v) := by
  have h := @write_bind lm om strict keys rows slot Unit K (Mirrors rows keys K)
    (fun _ => pure ()) (fun _ => pure ()) (fun o => { o with next := v })
    (fun c => { c with next := v }) (fun _ => rfl) (fun _ => rfl) fun _ => Lockstep.pure ()
  simp only [bind_pure_unit] at h
  exact h

theorem setPrev_tracks (slot v : Int) :
    Tracks strict rows keys K (setPrev slot v) (Book.setPrev slot v) := by
  have h := @write_bind lm om strict keys rows slot Unit K (Mirrors rows keys K)
    (fun _ => pure ()) (fun _ => pure ()) (fun o => { o with prev := v })
    (fun c => { c with prev := v }) (fun _ => rfl) (fun _ => rfl) fun _ => Lockstep.pure ()
  simp only [bind_pure_unit] at h
  exact h

variable {i : Int}

theorem Mirrors.lane_none (h : Mirrors rows keys K w b) (ht : nth (b.lane side) i = none) (n : Nat)
    (e : i = n) : (w.lane side).get LEVEL_CHUNK n = none := by
  subst e
  rw [nth_ofNat] at ht
  rw [h.level side n, ht]

theorem level_tracks (side : Nat) (i : Int) :
    Tracks strict rows keys K (level side i) (Book.level side i) := by
  apply Lockstep.of_cases
  intro w b h
  unfold level lvlChunkForRead
  simp only [bind_assoc, get_bind]
  cases hl : nth (b.lane side) i with
  | none =>
    have hbook : Book.level side i b = .error .indexOutOfBounds b := by simp only [Book.level, hl]
    right
    cases ht : nth (w.lane side).table (i.tdiv LEVEL_CHUNK) with
    | none => exact ⟨_, _, _, _, rfl, hbook⟩
    | some a =>
      have hnone := entry_none ht (h.lane_none hl)
      refine ⟨.indexOutOfBounds, w, _, _, ?_, hbook⟩
      simp only [pure_bind, lvl, hnone]
  | some l =>
    obtain ⟨n, rfl, hn⟩ := nth_eq_some hl
    have hget := (h.level side n).trans hn
    have hbook : Book.level side n b = .ok l b := by simp only [Book.level, hl]
    cases ht : (w.lane side).table[n / LEVEL_CHUNK]? with
    | none =>
      simp only [Pages.get, Epoch.get, ht, Option.bind_none] at hget
      cases hget
    | some a =>
      left
      refine ⟨l, w, b, ?_, hbook, h⟩
      have hitem := (Pages.item_of_place ht).trans hget
      simp only [← Int.ofNat_tdiv, nth_ofNat, ht, pure_bind, lvl, ← Int.ofNat_tmod, entry_ofNat, hitem]

section Level

variable {I : CowBook lm → Book om → Prop} {k : Nat → Level → Run (CowBook lm) β}
  {l : Level → Run (Book om) β}

/-- A level is read through its chunk, which was made one to be written and is kept. -/
theorem lvl_bind (h : ∀ t lc level, i = (t : Nat) →
      Meets strict (Mirrors rows keys (K.and (refersTo side t lc))) I (k lc level) (l level)) :
    Meets strict (Mirrors rows keys K) I (do
      let lc ← lvlChunkForWrite side i
      let level ← lvl side lc (i.tmod LEVEL_CHUNK)
      k lc level) (do
      let level ← Book.level side i
      l level) := by
  intro w b hm
  unfold lvlChunkForWrite
  simp only [bind_assoc, get_bind]
  cases hl : nth (b.lane side) i with
  | none =>
    rw [bind_error (show Book.level side i b = .error .indexOutOfBounds b by
      simp only [Book.level, hl])]
    by_cases hci : i.tdiv LEVEL_CHUNK < 0
    · rw [if_pos hci]
      exact both_stop rfl rfl
    · rw [if_neg hci]
      cases e : (w.lane side).pin w.gen.toNat (i.tdiv LEVEL_CHUNK).toNat with
      | none => exact both_stop rfl rfl
      | some ap =>
        obtain ⟨a, p⟩ := ap
        have ht : nth p.table (i.tdiv LEVEL_CHUNK) = some a := by
          rw [nth, if_pos (Int.not_lt.mp hci)]
          exact (Pages.pin_pins e).place
        have hnone : entry p a (i.tmod LEVEL_CHUNK) = none := by
          apply entry_none ht
          intro n hn
          rw [(hm.sound side).pin_get e]
          exact hm.lane_none hl n hn
        have hstop : lvl side a (i.tmod LEVEL_CHUNK) (w.setLane side p) =
            .error .indexOutOfBounds (w.setLane side p) := by
          simp only [lvl, setLane_lane, if_true, hnone]
        simp only [bind_assoc, set_bind, pure_bind]
        rw [bind_error hstop]
        exact both_stop rfl rfl
  | some level =>
    obtain ⟨n, rfl, hn⟩ := nth_eq_some hl
    have hget := (hm.level side n).trans hn
    have hsome : ((w.lane side).get LEVEL_CHUNK n).isSome := by rw [hget]; rfl
    obtain ⟨a, p, e⟩ := (hm.sound side).pin_isSome hsome
    have hpins := Pages.pin_pins e
    have hsame := (hm.sound side).pin_get e
    have hm' := hm.setLane ((hm.sound side).pin e) rfl fun u => (hsame _ u).trans (hm.level side u)
    rw [setRows_self] at hm'
    have hlane : (w.setLane side p).lane side = p := by
      rw [setLane_lane, if_pos Iff.rfl]
    have hrefers : RefersTo side n a (w.setLane side p) := by
      refine ⟨?_, ?_⟩
      · rw [hlane, setLane_gen]
        exact hpins
      · rw [hlane, hsame]
        exact hsome
    have hread : lvl side a ((n % LEVEL_CHUNK : Nat) : Int) (w.setLane side p) =
        .ok level (w.setLane side p) := by
      have hitem := hpins.item.trans ((hsame _ n).trans hget)
      simp only [lvl, hlane, entry_ofNat, hitem]
    have hci : ¬ ((n / LEVEL_CHUNK : Nat) : Int) < 0 := Int.not_lt.mpr (Int.natCast_nonneg _)
    rw [bind_ok (show Book.level side n b = .ok level b by simp only [Book.level, hl])]
    simp only [← Int.ofNat_tdiv, if_neg hci, Int.toNat_natCast, e, bind_assoc, set_bind, pure_bind,
      ← Int.ofNat_tmod]
    rw [bind_ok hread]
    exact h n a level rfl _ _ (hm'.knowing ⟨hm'.known, hrefers⟩)

end Level

theorem lvl_tracks (hK : ∀ {w b}, K.holds w b → RefersTo side t lc w) :
    Tracks strict rows keys K (lvl side lc ((t : Int).tmod LEVEL_CHUNK))
      (Book.level side t) := by
  apply Lockstep.of_cases
  intro w b h
  obtain ⟨hpins, hsome⟩ := hK h.known
  obtain ⟨l, hl⟩ := Option.isSome_iff_exists.mp hsome
  have hrow := (h.level side t).symm.trans hl
  have hitem := hpins.item.trans hl
  left
  refine ⟨l, w, b, ?_, ?_, h⟩
  · simp only [lvl, ← Int.ofNat_tmod, entry_ofNat, hitem]
  · simp only [Book.level, nth_ofNat, hrow]

theorem setLvl_tracks (hK : ∀ {w b}, K.holds w b → RefersTo side t lc w) (l : Level) :
    Tracks strict rows keys K (setLvl side lc ((t : Int).tmod LEVEL_CHUNK) l)
      (Book.setLevel side t l) := by
  apply Lockstep.of_cases
  intro w b h
  obtain ⟨hpins, hsome⟩ := hK h.known
  obtain ⟨l₀, hl⟩ := Option.isSome_iff_exists.mp hsome
  have hrow := (h.level side t).symm.trans hl
  have ht := (Array.getElem?_eq_some_iff.mp hrow).1
  have hitem := hpins.item.trans hl
  have hbook : Book.setLevel side t l b =
      .ok () (setRows b side ((b.lane side).setIfInBounds t l)) := by
    simp only [Book.setLevel, nth_ofNat, hrow, Int.toNat_natCast]
    by_cases hs : side = 0
    · simp only [setRows, Book.lane, hs, if_true]
    · simp only [setRows, Book.lane, hs, if_false]
  have hcow : setLvl side lc ((t : Int).tmod LEVEL_CHUNK) l w = .ok ()
      (w.setLane side ((w.lane side).setItem lc (t % LEVEL_CHUNK) l)) := by
    simp only [setLvl, ← Int.ofNat_tmod, entry_ofNat, hitem, Int.toNat_natCast]
  left
  refine ⟨(), _, _, hcow, hbook, ?_⟩
  apply h.setLane (hpins.setItem (h.sound side) l) Array.size_setIfInBounds
  intro u
  rw [hpins.setItem_get (h.sound side) hsome l u, Array.getElem?_setIfInBounds, h.level side u]
  by_cases e : u = t
  · rw [if_pos e, if_pos e.symm, if_pos ht]
  · rw [if_neg e, if_neg (Ne.symm e)]

theorem Tracks.forget {x : Run (CowBook lm) α} {y : Run (Book om) α}
    (h : Tracks strict rows keys (K.and K') x y) :
    Meets strict (Mirrors rows keys (K.and K')) (Mirrors rows keys K) x y :=
  Meets.learn h (fun _ _ h => h) fun _ _ _ _ _ h => h.forget

/-- Reading and writing a level through its chunk is reading and writing the lane. -/
theorem setLvl_bind (side : Nat) (i : Int) (new : Level → Level) :
    Tracks strict rows keys K (do
      let lc ← lvlChunkForWrite side i
      let level ← lvl side lc (i.tmod LEVEL_CHUNK)
      setLvl side lc (i.tmod LEVEL_CHUNK) (new level)) (do
      let level ← Book.level side i
      Book.setLevel side i (new level)) := by
  apply lvl_bind
  rintro t lc level rfl
  exact (setLvl_tracks And.right (new level)).forget

theorem link_tracks (hK : ∀ {w b}, K.holds w b → RefersTo side t lc w) (slot prevTail : Int) :
    Tracks strict rows keys K (link side slot prevTail lc ((t : Int).tmod LEVEL_CHUNK))
      (Book.link side t slot prevTail) := by
  unfold link Book.link
  refine Lockstep.ite Iff.rfl (fun _ => setNext_tracks prevTail slot) fun _ => ?_
  exact (lvl_tracks hK).bind fun l => setLvl_tracks hK _

theorem tickOf_tracks (price : Int) :
    Tracks strict rows keys K (tickOf price) (Book.tickOf price) := by
  apply Lockstep.get_bind
  intro w b h
  rw [h.priceMin, h.tick]
  exact Lockstep.ite Iff.rfl (fun _ => Lockstep.throw _ _) fun _ => Lockstep.pure _

theorem nth_nil (a : Array α) : nth a NIL = none := nth_of_neg a (by decide)

/-- An order that has a place in the pool can be told from none. -/
theorem named_ne_nil (h : b.Named slot) : slot ≠ NIL := by
  rintro rfl
  obtain ⟨o, ho, -⟩ := h
  rw [nth_nil] at ho
  cases ho

/-- A handle of the map is an `int`. -/
theorem named_i32 (h : Mirrors rows keys K w b) (hs : b.Named slot) : i32 slot = slot := by
  obtain ⟨o, ho, -⟩ := hs
  obtain ⟨n, rfl, hn⟩ := nth_eq_some ho
  have hlt := (Array.getElem?_eq_some_iff.mp hn).1
  have hpool := h.pool
  exact i32_ofNat (by omega)

/-- What `(int) ids.get` gives, for an id that is there or not. -/
theorem Mirrors.i32_get (h : Mirrors rows keys K w b) (orderId : Int) :
    i32 (lm.get w.ids orderId) = (om.get b.ids orderId).getD NIL := by
  rw [h.ids.get, h.missing]
  cases e : om.get b.ids orderId with
  | none => rfl
  | some i => exact named_i32 h (h.slot orderId i e)

/-- Other keys may be named, as long as the ids in the maps are all there. -/
theorem Mirrors.rename {keys' : List Int} (h : Mirrors rows keys K w b)
    (hk : ∀ k, om.get b.ids k ≠ none → k ∈ keys') : Mirrors rows keys' K w b :=
  { h with ids := h.ids.rename hk }

/-- Both maps take the id of an order that knows its slot. -/
theorem Mirrors.putId (h : Mirrors rows keys K w b) (hl : lm.Lawful) (ho : om.Lawful)
    {orderId : Int} (hfit : (putKey orderId keys).length ≤ 268435456) (hs : b.Named slot) :
    ∃ t u, CowBook.putId orderId slot w = .ok () { w with ids := t } ∧
      Book.putId orderId slot b = .ok () { b with ids := u } ∧
      Mirrors rows (putKey orderId keys) K { w with ids := t } { b with ids := u } := by
  have hne : slot ≠ lm.missingValue w.ids := h.missing ▸ named_ne_nil hs
  obtain ⟨t, u, et, eu, hids, hmissing, hget⟩ := h.ids.put hl ho hne hfit
  refine ⟨t, u, by rw [CowBook.putId, et], by rw [Book.putId, eu], { h with
    ids := hids
    missing := hmissing.trans h.missing
    slot := ?_
    known := h.same rfl rfl rfl rfl rfl rfl }⟩
  intro k i hk
  rw [hget] at hk
  split at hk
  · cases hk
    exact hs
  · exact h.slot k i hk

theorem putId_tracks (hl : lm.Lawful) (ho : om.Lawful) {orderId : Int}
    (hfit : (putKey orderId keys).length ≤ 268435456)
    (hK : ∀ {w b}, K.holds w b → b.Named slot) :
    Meets strict (Mirrors rows keys K) (Mirrors rows (putKey orderId keys) K) (putId orderId slot)
      (Book.putId orderId slot) := by
  apply Meets.of_cases
  intro w b h
  obtain ⟨t, u, et, eu, h'⟩ := h.putId hl ho hfit (hK h.known)
  exact .inl ⟨(), _, _, et, eu, h'⟩

theorem setFreeHead_tracks (head : Int) : Tracks strict rows keys K
    (modify fun w => { w with freeHead := head } : Run (CowBook lm) Unit)
    (modify fun b => { b with freeHead := head }) :=
  Lockstep.modify fun _ _ h => { h with freeHead := rfl, known := h.same rfl rfl rfl rfl rfl rfl }

theorem allocSlot_tracks : Tracks strict rows keys K allocSlot Book.allocSlot := by
  apply Lockstep.get_bind
  intro w b h
  rw [h.freeHead, h.hwm, h.capacity]
  refine Lockstep.ite Iff.rfl (fun _ => ?_) fun _ => ?_
  · apply order_bind
    intro o
    exact (setFreeHead_tracks o.next).bind fun _ => Lockstep.pure _
  · refine Lockstep.ite Iff.rfl (fun _ => Lockstep.throw _ _) fun _ => ?_
    refine Lockstep.bind (Lockstep.modify fun w b h => ?_) fun _ => Lockstep.pure _
    exact { h with hwm := by rw [h.hwm], known := h.same rfl rfl rfl rfl rfl rfl }

/-- The free list is read before or after the order, which is the same. -/
theorem bookFreeSlot_eq (slot : Int) : (Book.freeSlot slot : Run (Book om) Unit) = (do
    let head := (← get).freeHead
    let o ← Book.order slot
    Book.setOrder slot { o with orderId := 0, next := head, prev := NIL }
    modify fun b => { b with freeHead := slot }) := by
  funext b
  cases ho : nth b.pool slot with
  | none =>
    have e := bookOrder_stops ho
    rw [Book.freeSlot, bind_error e, get_bind, bind_error e]
  | some o =>
    have e := bookOrder_ok ho
    rw [Book.freeSlot, bind_ok e, get_bind, get_bind, bind_ok e]

theorem freeSlot_tracks (slot : Int) :
    Tracks strict rows keys K (freeSlot slot) (Book.freeSlot slot) := by
  rw [bookFreeSlot_eq]
  unfold freeSlot
  apply Lockstep.get_bind
  intro w b h
  rw [h.freeHead]
  exact write_bind (fun o => { o with orderId := 0, next := b.freeHead, prev := NIL })
    (fun _ => rfl) (fun _ => rfl) fun _ => setFreeHead_tracks slot

theorem noteBest_tracks (side : Nat) (i : Int) :
    Tracks strict rows keys K (noteBest side i) (Book.noteBest side i) := by
  refine Lockstep.bind (Lockstep.modify fun w b h => ?_) fun _ => Lockstep.modify fun w b h => ?_
  · exact { h with bestBid := by rw [h.bestBid], known := h.same rfl rfl rfl rfl rfl rfl }
  · exact { h with bestAsk := by rw [h.bestAsk], known := h.same rfl rfl rfl rfl rfl rfl }

theorem insert_tracks (hl : lm.Lawful) (ho : om.Lawful) {orderId : Int}
    (hfit : (putKey orderId keys).length ≤ 268435456) (price qty : Int) (side : Nat) :
    Meets strict (Mirrors rows keys K) (Mirrors rows (putKey orderId keys) K)
      (insert orderId price qty side) (Book.insert orderId price qty side) := by
  unfold insert Book.insert
  refine Meets.bind (tickOf_tracks price) fun i => Meets.bind allocSlot_tracks fun slot => ?_
  apply lvl_bind
  rintro t lc level rfl
  apply overwrite_bind (o := ⟨orderId, price, qty, 0, NIL, level.tail, slot, side⟩) rfl
  have hrefers : ∀ {w b}, ((K.and (refersTo side t lc)).and (named slot)).holds w b →
      RefersTo side t lc w := fun h => h.1.2
  refine Meets.learn
    (I := Mirrors rows (putKey orderId keys) ((K.and (refersTo side t lc)).and (named slot))) ?_
    (fun _ _ h => h) fun _ _ _ _ _ h => h.forget.forget
  refine Meets.bind (link_tracks hrefers slot level.tail) fun _ => ?_
  refine Meets.bind (lvl_tracks hrefers) fun l => Meets.bind (setLvl_tracks hrefers _) fun _ => ?_
  exact Meets.bind (putId_tracks hl ho hfit And.right) fun _ => noteBest_tracks side t

section Ids

variable {P : Order → Prop} {I : CowBook lm → Book om → Prop} {k : Int → Run (CowBook lm) β}
  {l : Int → Run (Book om) β}

/-- A look at the map, where the program that got none stops as well. -/
theorem getId_bind {orderId : Int}
    (hstops : ∀ w b, Mirrors rows keys K w b → ∃ q w', k NIL w = .error q w')
    (h : ∀ i, Meets strict (Knows rows keys K i (·.slot = i)) I (k i) (l i)) :
    Meets strict (Mirrors rows keys K) I (getId orderId >>= k) (Book.getId orderId >>= l) := by
  intro w b hm
  have hcow : getId orderId w = .ok ((om.get b.ids orderId).getD NIL) w := by
    rw [← hm.i32_get]
    rfl
  rw [bind_ok hcow]
  cases hid : om.get b.ids orderId with
  | none =>
    obtain ⟨q, w', e⟩ := hstops w b hm
    rw [Option.getD_none, e, bind_error (show Book.getId orderId b = .error .missingKey b by
      simp only [Book.getId, hid])]
    exact both_stop rfl rfl
  | some i =>
    rw [Option.getD_some, bind_ok (show Book.getId orderId b = .ok i b by
      simp only [Book.getId, hid])]
    obtain ⟨o, ho, hs⟩ := hm.slot orderId i hid
    apply h i w b ⟨hm, ?_⟩
    intro o' ho'
    rw [ho] at ho'
    cases ho'
    exact hs

theorem removeId_bind (hl : lm.Lawful) (ho : om.Lawful) {orderId : Int}
    (hstops : ∀ w b, Mirrors rows (removeKey orderId keys) K w b → ∃ q w', k NIL w = .error q w')
    (h : ∀ i, Meets strict (Knows rows (removeKey orderId keys) K i (·.slot = i)) I (k i) (l i)) :
    Meets strict (Mirrors rows keys K) I (removeId orderId >>= k)
      (Book.removeId orderId >>= l) := by
  intro w b hm
  obtain ⟨t, u, et, eu, hids, hmissing, hget⟩ := hm.ids.remove hl ho orderId
  have hcow : removeId orderId w = .ok ((om.get b.ids orderId).getD NIL) { w with ids := t } := by
    rw [← hm.i32_get]
    simp only [removeId, get_bind, et, set_bind]
    rfl
  have hm' : Mirrors rows (removeKey orderId keys) K { w with ids := t } { b with ids := u } := by
    refine { hm with
      ids := hids
      missing := hmissing.trans hm.missing
      slot := ?_
      known := hm.same rfl rfl rfl rfl rfl rfl }
    intro k i hk
    rw [hget] at hk
    split at hk
    · cases hk
    · exact hm.slot k i hk
  rw [bind_ok hcow]
  cases hid : om.get b.ids orderId with
  | none =>
    obtain ⟨q, w', e⟩ := hstops _ _ hm'
    rw [hid] at eu
    rw [Option.getD_none, e, bind_error (show Book.removeId orderId b =
      .error .missingKey { b with ids := u } by simp only [Book.removeId, eu])]
    exact both_stop rfl rfl
  | some i =>
    rw [hid] at eu
    rw [Option.getD_some, bind_ok (show Book.removeId orderId b = .ok i { b with ids := u } by
      simp only [Book.removeId, eu])]
    obtain ⟨o, ho, hs⟩ := hm.slot orderId i hid
    apply h i _ _ ⟨hm', ?_⟩
    intro o' ho'
    rw [show nth b.pool i = some o' from ho'] at ho
    cases ho
    exact hs

end Ids

/-- Where the map has none, the chunk of none is looked up. -/
theorem order_nil_stops {k : Cell → Run (CowBook lm) β} (w : CowBook lm) (b : Book om)
    (h : Mirrors rows keys K w b) : ∃ q w', (order NIL >>= k) w = .error q w' := by
  obtain ⟨q, e⟩ := order_stops h (nth_nil b.pool)
  exact ⟨q, w, bind_error e k⟩

theorem forWrite_nil_stops {k : Nat → Int → Cell → Run (CowBook lm) β} (w : CowBook lm) (b : Book om)
    (h : Mirrors rows keys K w b) : ∃ q w', (do
      let oc ← orderChunkForWrite NIL
      let oo ← offset NIL
      let c ← cell oc oo
      k oc oo c : Run (CowBook lm) β) w = .error q w' := by
  obtain ⟨q, w', e⟩ | ⟨a, w', e, hnone⟩ := forWrite_stops h (nth_nil b.pool)
  · exact ⟨q, w', bind_error e _⟩
  · have hstop : cell a (NIL.tmod w'.chunk) w' = .error .indexOutOfBounds w' := by
      simp only [cell, hnone]
    refine ⟨.indexOutOfBounds, w', (bind_ok e _).trans ?_⟩
    simp only [offset, bind_assoc, get_bind, pure_bind]
    exact bind_error hstop _

theorem update_tracks (orderId fillQty : Int) :
    Tracks strict rows keys K (update orderId fillQty) (Book.update orderId fillQty) := by
  unfold update Book.update
  apply getId_bind forWrite_nil_stops
  intro i
  apply write_knows (fun o =>
    { o with filled := i64 (o.filled + min fillQty (i64 (o.qty - o.filled))) })
    (fun _ => rfl) fun _ => rfl
  intro o ho
  exact (tickOf_tracks o.price).bind fun t => setLvl_bind o.side t _

theorem unlink_tracks (slot : Int) (side : Nat) (t rem : Int) :
    Tracks strict rows keys K (unlink slot side t rem) (Book.unlink slot side t rem) := by
  unfold unlink Book.unlink
  apply order_bind
  intro o
  refine Lockstep.ite Iff.rfl (fun _ => (setNext_tracks _ _).bind fun _ => ?_) fun _ => ?_
  all_goals
    refine Lockstep.ite Iff.rfl (fun _ => (setPrev_tracks _ _).bind fun _ => ?_) fun _ => ?_
    all_goals exact setLvl_bind side t _

theorem scanBids_tracks (i : Int) (n : Nat) :
    Tracks strict rows keys K (scanBids i n) (Book.scanBids i n) := by
  induction n generalizing i with
  | zero => exact Lockstep.pure _
  | succ n ih =>
    exact (level_tracks 0 i).bind fun l =>
      Lockstep.ite Iff.rfl (fun _ => Lockstep.pure _) fun _ => ih (i - 1)

theorem scanAsks_tracks (i : Int) (n : Nat) :
    Tracks strict rows keys K (scanAsks i n) (Book.scanAsks i n) := by
  induction n generalizing i with
  | zero => exact Lockstep.pure _
  | succ n ih =>
    exact (level_tracks 1 i).bind fun l =>
      Lockstep.ite Iff.rfl (fun _ => Lockstep.pure _) fun _ => ih (i + 1)

theorem repairBest_tracks (side : Nat) (t : Int) :
    Tracks strict rows keys K (repairBest side t) (Book.repairBest side t) := by
  apply Lockstep.get_bind
  intro w b h
  rw [h.bestBid, h.bestAsk, h.nLevels]
  refine Lockstep.ite Iff.rfl (fun _ => ?_) fun _ => ?_
  · refine Lockstep.ite Iff.rfl (fun _ => Lockstep.pure _) fun _ => ?_
    refine (level_tracks 0 t).bind fun l => Lockstep.ite Iff.rfl (fun _ => Lockstep.pure _) fun _ => ?_
    refine (scanBids_tracks t _).bind fun nb => Lockstep.modify fun w b h => ?_
    exact { h with bestBid := rfl, known := h.same rfl rfl rfl rfl rfl rfl }
  · refine Lockstep.ite Iff.rfl (fun _ => Lockstep.pure _) fun _ => ?_
    refine (level_tracks 1 t).bind fun l => Lockstep.ite Iff.rfl (fun _ => Lockstep.pure _) fun _ => ?_
    refine (scanAsks_tracks t _).bind fun na => Lockstep.modify fun w b h => ?_
    exact { h with bestAsk := rfl, known := h.same rfl rfl rfl rfl rfl rfl }

theorem cancel_tracks (hl : lm.Lawful) (ho : om.Lawful) (orderId : Int) :
    Meets strict (Mirrors rows keys K) (Mirrors rows (removeKey orderId keys) K) (cancel orderId)
      (Book.cancel orderId) := by
  unfold cancel Book.cancel
  apply removeId_bind hl ho order_nil_stops
  intro i
  apply order_knows
  intro o ho
  rw [ho]
  refine (tickOf_tracks o.price).bind fun t => (unlink_tracks i o.side t _).bind fun _ => ?_
  exact (freeSlot_tracks i).bind fun _ => repairBest_tracks o.side t

theorem fill_tracks (hl : lm.Lawful) (ho : om.Lawful) (orderId : Int) :
    Meets strict (Mirrors rows keys K) (Mirrors rows (removeKey orderId keys) K) (fill orderId)
      (Book.fill orderId) := by
  unfold fill Book.fill
  apply removeId_bind hl ho forWrite_nil_stops
  intro i
  apply write_knows (fun o => { o with filled := o.qty }) (fun _ => rfl) fun _ => rfl
  intro o ho
  rw [ho]
  refine (tickOf_tracks o.price).bind fun t => (unlink_tracks i o.side t _).bind fun _ => ?_
  exact (freeSlot_tracks i).bind fun _ => repairBest_tracks o.side t

/-- The ids in the maps after a call. -/
def idsAfter (keys : List Int) : Op → List Int
  | .insert orderId _ _ _ => putKey orderId keys
  | .update _ _ => keys
  | .cancel orderId => removeKey orderId keys
  | .fill orderId => removeKey orderId keys

/-- Whatever the call, both books take it or both stop, as long as the maps have room. -/
theorem apply_tracks (hl : lm.Lawful) (ho : om.Lawful) {op : Op}
    (hfit : (idsAfter keys op).length ≤ 268435456) :
    Meets strict (Mirrors rows keys K) (Mirrors rows (idsAfter keys op) K) (apply op)
      (Book.apply op) := by
  cases op with
  | insert orderId price qty side => exact insert_tracks hl ho hfit price qty side
  | update orderId fillQty => exact update_tracks orderId fillQty
  | cancel orderId => exact cancel_tracks hl ho orderId
  | fill orderId => exact fill_tracks hl ho orderId

end CowBook

end HiPerf.Java
