import HiPerf.Book.Invariant
import HiPerf.Lib.Along

/-!
Calls that stop part-way. Whatever calls a book has completed, its links stay in
bounds, so a call can only stop before it has written anything, but for one case:
`insert` takes its slot before it looks at the ladder.
-/

namespace HiPerf

open Machine Exec

namespace Book

/-- A handle is empty, or a slot of a pool of `n`. -/
def Slot (n s : Nat) : Prop := s ≠ NIL → s < n

/-- A ladder that starts at `priceMin` files the price at level `t`. -/
def Finds (priceMin tick price : Int) (t : Nat) : Prop :=
  ∀ b : Book, gridTick priceMin tick price b = .ok t b

/-- Slot `s` has an order whose price is on the ladder. -/
def Placed (b : Book) (s : Nat) : Prop :=
  ∃ o t, b.pool[s]? = some o ∧ Finds b.priceMin b.tick o.price t ∧ t < b.nLevels

/-- All handles are in bounds, and the ladder has the prices of the known orders. -/
structure Sound (b : Book) : Prop where
  bids : b.bids.size = b.nLevels
  asks : b.asks.size = b.nLevels
  free : Slot b.pool.size b.freeHead
  hwm : b.hwm ≤ b.pool.size
  links : ∀ (s : Nat) (o : Order), b.pool[s]? = some o →
    Slot b.pool.size o.next ∧ Slot b.pool.size o.prev
  tails : ∀ (side t : Nat) (l : PriceLevel), (b.lane side)[t]? = some l → Slot b.pool.size l.tail
  known : ∀ (orderId : Int) (s : Nat), b.idmap orderId = some s → b.Placed s

variable {b b' : Book} {s side t : Nat}

theorem new_sound (cfg : SmrConfig) : (new cfg).Sound where
  bids := Array.size_replicate
  asks := Array.size_replicate
  free := fun h => absurd rfl h
  hwm := Nat.zero_le _
  links s o h := by
    simp only [new, Array.getElem?_replicate] at h
    split at h
    · cases h
      exact ⟨fun h => absurd rfl h, fun h => absurd rfl h⟩
    · cases h
  tails side t l h := by
    simp only [new, lane, ite_self, Array.getElem?_replicate] at h
    split at h
    · cases h
      exact fun h => absurd rfl h
    · cases h
  known orderId s h := nomatch h

theorem order_get {o : Order} (h : b.pool[s]? = some o) : order s b = .ok o b := by
  simp only [order, h]

/-- The fields that no call changes, and slots `K` that the map may come to know. -/
structure Base (n : Nat) (priceMin tick : Int) (nLevels : Nat) (K : List Nat) (b : Book) :
    Prop where
  sound : b.Sound
  placed : ∀ s ∈ K, b.Placed s
  pool : b.pool.size = n
  priceMin : b.priceMin = priceMin
  tick : b.tick = tick
  nLevels : b.nLevels = nLevels

theorem Sound.lane_size (h : b.Sound) (side : Nat) : (b.lane side).size = b.nLevels := by
  unfold lane
  split
  · exact h.bids
  · exact h.asks

theorem Placed.setOrder {s' : Nat} (h : b.Placed s') {o' : Order}
    (hprice : ∀ o t, b.pool[s]? = some o → Finds b.priceMin b.tick o.price t → t < b.nLevels →
      ∃ t', Finds b.priceMin b.tick o'.price t' ∧ t' < b.nLevels) :
    Placed { b with pool := b.pool.setIfInBounds s o' } s' := by
  obtain ⟨o, t, ho, hfind, ht⟩ := h
  unfold Placed
  dsimp only
  rw [Array.getElem?_setIfInBounds]
  by_cases e : s = s'
  · subst e
    have hlt : s < b.pool.size := (Array.getElem?_eq_some_iff.mp ho).1
    obtain ⟨t', hfind', ht'⟩ := hprice o t ho hfind ht
    exact ⟨o', t', by rw [if_pos rfl, if_pos hlt], hfind', ht'⟩
  · exact ⟨o, t, by rw [if_neg e]; exact ho, hfind, ht⟩

/-- An order is overwritten by one that is as well linked and as well placed. -/
theorem Sound.setOrder (h : b.Sound) {o' : Order}
    (hlinks : Slot b.pool.size o'.next ∧ Slot b.pool.size o'.prev)
    (hprice : ∀ o t, b.pool[s]? = some o → Finds b.priceMin b.tick o.price t → t < b.nLevels →
      ∃ t', Finds b.priceMin b.tick o'.price t' ∧ t' < b.nLevels) :
    Sound { b with pool := b.pool.setIfInBounds s o' } := by
  have hsize : (b.pool.setIfInBounds s o').size = b.pool.size := Array.size_setIfInBounds
  refine ⟨h.bids, h.asks, ?_, ?_, ?_, ?_, ?_⟩
  · simp only [hsize]
    exact h.free
  · simp only [hsize]
    exact h.hwm
  · intro s' o ho
    simp only [hsize]
    rw [Array.getElem?_setIfInBounds] at ho
    split at ho
    · split at ho
      · cases ho
        exact hlinks
      · cases ho
    · exact h.links s' o ho
  · simp only [hsize]
    exact h.tails
  · exact fun orderId s' hs' => (h.known orderId s' hs').setOrder hprice

/-- A level is overwritten by one with an order at its end, or none. -/
theorem Sound.setLevel (h : b.Sound) {l' : PriceLevel} (htail : Slot b.pool.size l'.tail) :
    Sound (if side = 0 then { b with bids := b.bids.setIfInBounds t l' }
      else { b with asks := b.asks.setIfInBounds t l' }) := by
  have hset : ∀ {ls : Array PriceLevel} (u : Nat) (l : PriceLevel),
      (∀ (u : Nat) (l : PriceLevel), ls[u]? = some l → Slot b.pool.size l.tail) →
      (ls.setIfInBounds t l')[u]? = some l → Slot b.pool.size l.tail := by
    intro ls u l hls hl
    rw [Array.getElem?_setIfInBounds] at hl
    split at hl
    · split at hl
      · cases hl
        exact htail
      · cases hl
    · exact hls u l hl
  have hbids : ∀ (u : Nat) (l : PriceLevel), b.bids[u]? = some l → Slot b.pool.size l.tail :=
    fun u l hl => h.tails 0 u l hl
  have hasks : ∀ (u : Nat) (l : PriceLevel), b.asks[u]? = some l → Slot b.pool.size l.tail :=
    fun u l hl => h.tails 1 u l hl
  split
  · refine ⟨Array.size_setIfInBounds.trans h.bids, h.asks, h.free, h.hwm, h.links, ?_, h.known⟩
    intro side' u l hl
    unfold lane at hl
    split at hl
    · exact hset u l hbids hl
    · exact hasks u l hl
  · refine ⟨h.bids, Array.size_setIfInBounds.trans h.asks, h.free, h.hwm, h.links, ?_, h.known⟩
    intro side' u l hl
    unfold lane at hl
    split at hl
    · exact hbids u l hl
    · exact hset u l hasks hl

section ends

variable {n nLevels : Nat} {priceMin tick : Int} {K : List Nat}

theorem order_ends (hs : s < n) : Ends (Base n priceMin tick nLevels K) (order s) fun o b =>
    Base n priceMin tick nLevels K b ∧ b.pool[s]? = some o := by
  intro b hb
  have hget := Array.getElem?_eq_getElem (hb.pool ▸ hs : s < b.pool.size)
  exact ⟨_, b, by simp only [order, hget], hb, hget⟩

/-- A slot is read and written back with other links. -/
theorem rewrite_ends (hs : s < n) {f : Order → Order}
    (hf : ∀ o, Slot n o.next ∧ Slot n o.prev → Slot n (f o).next ∧ Slot n (f o).prev)
    (hprice : ∀ o, (f o).price = o.price) :
    Ends (Base n priceMin tick nLevels K) (order s >>= fun o => setOrder s (f o))
      fun _ => Base n priceMin tick nLevels K := by
  refine (order_ends hs).bind fun o b hb => ?_
  obtain ⟨hbase, ho⟩ := hb
  obtain ⟨hsound, hplaced, rfl, rfl, rfl, rfl⟩ := hbase
  have hsame : ∀ o' t, b.pool[s]? = some o' → Finds b.priceMin b.tick o'.price t →
      t < b.nLevels → ∃ t', Finds b.priceMin b.tick (f o).price t' ∧ t' < b.nLevels := by
    intro o' t ho' hfind ht
    rw [ho] at ho'
    cases ho'
    exact ⟨t, by rw [hprice]; exact hfind, ht⟩
  exact ⟨(), _, if_pos hs, hsound.setOrder (hf o (hsound.links s o ho)) hsame,
    fun s' hs' => (hplaced s' hs').setOrder hsame, Array.size_setIfInBounds, rfl, rfl, rfl⟩

/-- A slot gets an order the ladder has a level for. -/
theorem setOrder_ends (hs : s < n) (o' : Order) (hlinks : Slot n o'.next ∧ Slot n o'.prev)
    (hfind : Finds priceMin tick o'.price t) (ht : t < nLevels) :
    Ends (Base n priceMin tick nLevels K) (setOrder s o')
      fun _ => Base n priceMin tick nLevels (s :: K) := by
  intro b hb
  obtain ⟨hsound, hplaced, rfl, rfl, rfl, rfl⟩ := hb
  refine ⟨(), _, if_pos hs, hsound.setOrder hlinks fun _ _ _ _ _ => ⟨t, hfind, ht⟩, ?_,
    Array.size_setIfInBounds, rfl, rfl, rfl⟩
  intro s' hs'
  rcases List.mem_cons.mp hs' with rfl | hs'
  · refine ⟨o', t, ?_, hfind, ht⟩
    dsimp only
    rw [Array.getElem?_setIfInBounds, if_pos rfl, if_pos hs]
  · exact (hplaced s' hs').setOrder fun _ _ _ _ _ => ⟨t, hfind, ht⟩

theorem level_ends (ht : t < nLevels) (side : Nat) :
    Ends (Base n priceMin tick nLevels K) (level side t) fun l b =>
      Base n priceMin tick nLevels K b ∧ Slot n l.tail := by
  intro b hb
  obtain ⟨hsound, hplaced, rfl, rfl, rfl, rfl⟩ := hb
  have hget := Array.getElem?_eq_getElem (hsound.lane_size side ▸ ht)
  exact ⟨_, b, by simp only [level, hget], ⟨hsound, hplaced, rfl, rfl, rfl, rfl⟩,
    hsound.tails side t _ hget⟩

theorem setLevel_ends (ht : t < nLevels) (side : Nat) {l : PriceLevel} (hl : Slot n l.tail) :
    Ends (Base n priceMin tick nLevels K) (setLevel side t l)
      fun _ => Base n priceMin tick nLevels K := by
  intro b hb
  obtain ⟨hsound, hplaced, rfl, rfl, rfl, rfl⟩ := hb
  have hlt : t < (b.lane side).size := (hsound.lane_size side).symm ▸ ht
  refine ⟨(), _, if_pos hlt, hsound.setLevel hl, ?_, ?_, ?_, ?_, ?_⟩
  · split <;> exact hplaced
  all_goals split <;> rfl

theorem tickOf_ends {price : Int} (hfind : Finds priceMin tick price t) :
    Ends (Base n priceMin tick nLevels K) (tickOf price) fun t' b =>
      Base n priceMin tick nLevels K b ∧ t' = t := by
  intro b hb
  refine ⟨t, b, ?_, hb, rfl⟩
  simp only [tickOf, get_bind, hb.priceMin, hb.tick]
  exact hfind b

/-- A price has a tick, or the division stops and nothing happens. -/
theorem tickOf_cases (price : Int) (b : Book) :
    (∃ t, tickOf price b = .ok t b ∧ Finds b.priceMin b.tick price t) ∨
      ∃ e, tickOf price b = .error e b := by
  simp only [tickOf, get_bind, Finds, gridTick, ite_run]
  split
  · exact .inr ⟨_, rfl⟩
  · split
    · exact .inr ⟨_, rfl⟩
    · exact .inl ⟨_, rfl, fun _ => rfl⟩

theorem linkNext_ends {p v : Nat} (hp : Slot n p) (hv : Slot n v) {α : Type} {k : Run Book α}
    {Q : α → Book → Prop} (hk : Ends (Base n priceMin tick nLevels K) k Q) :
    Ends (Base n priceMin tick nLevels K) (if p ≠ NIL then setNext p v >>= fun _ => k else k) Q :=
  Ends.ite (fun h => (rewrite_ends (hp h) (f := fun o => { o with next := v })
    (fun _ ho => ⟨hv, ho.2⟩) fun _ => rfl).bind fun _ => hk) fun _ => hk

theorem linkPrev_ends {p v : Nat} (hp : Slot n p) (hv : Slot n v) {α : Type} {k : Run Book α}
    {Q : α → Book → Prop} (hk : Ends (Base n priceMin tick nLevels K) k Q) :
    Ends (Base n priceMin tick nLevels K) (if p ≠ NIL then setPrev p v >>= fun _ => k else k) Q :=
  Ends.ite (fun h => (rewrite_ends (hp h) (f := fun o => { o with prev := v })
    (fun _ ho => ⟨ho.1, hv⟩) fun _ => rfl).bind fun _ => hk) fun _ => hk

theorem unlink_ends (hs : s < n) (ht : t < nLevels) (side : Nat) (rem : Int) :
    Ends (Base n priceMin tick nLevels K) (unlink s side t rem)
      fun _ => Base n priceMin tick nLevels K := by
  unfold unlink
  refine (order_ends hs).bind fun o b hb => ?_
  obtain ⟨hbase, ho⟩ := hb
  obtain ⟨hnext, hprev⟩ := hbase.sound.links s o ho
  rw [hbase.pool] at hnext hprev
  refine linkNext_ends hprev hnext (linkPrev_ends hnext hprev ?_) b hbase
  refine (level_ends ht side).bind fun l b' hb' => ?_
  refine setLevel_ends ht side ?_ b' hb'.1
  dsimp only
  split
  · exact hprev
  · exact hb'.2

theorem freeSlot_ends (hs : s < n) : Ends (Base n priceMin tick nLevels K) (freeSlot s)
    fun _ => Base n priceMin tick nLevels K := by
  unfold freeSlot
  refine Ends.get_bind fun b hb => ?_
  have hfree := hb.sound.free
  rw [hb.pool] at hfree
  have hwrite : Ends (Base n priceMin tick nLevels K)
      (order s >>= fun o => setOrder s { o with orderId := 0, next := b.freeHead, prev := NIL })
      fun _ => Base n priceMin tick nLevels K :=
    rewrite_ends hs (fun _ _ => ⟨hfree, fun h => absurd rfl h⟩) fun _ => rfl
  have hend : Ends (Base n priceMin tick nLevels K)
      (modify fun b : Book => { b with freeHead := s } : Run Book PUnit)
      fun _ => Base n priceMin tick nLevels K := by
    refine Ends.modify fun b' hb' => ?_
    obtain ⟨hsound, hplaced, hpool, h₁, h₂, h₃⟩ := hb'
    exact ⟨⟨hsound.bids, hsound.asks, fun _ => hpool ▸ hs, hsound.hwm, hsound.links, hsound.tails,
      hsound.known⟩, hplaced, hpool, h₁, h₂, h₃⟩
  have hall := hwrite.bind fun _ => hend
  rwa [bind_assoc] at hall

theorem scanBids_ends (ht : t < nLevels) : Ends (Base n priceMin tick nLevels K) (scanBids t)
    fun _ => Base n priceMin tick nLevels K := by
  induction t with
  | zero =>
    refine (level_ends ht 0).bind fun l => Ends.ite (fun _ => ?_) fun _ => ?_
    · exact Ends.pure fun b hb => hb.1
    · exact Ends.pure fun b hb => hb.1
  | succ t ih =>
    refine (level_ends ht 0).bind fun l => Ends.ite (fun _ => ?_) fun _ => ?_
    · exact Ends.pure fun b hb => hb.1
    · exact fun b hb => ih (by omega) b hb.1

theorem scanAsks_ends {m : Nat} (ht : t + m = nLevels) :
    Ends (Base n priceMin tick nLevels K) (scanAsks t m)
      fun _ => Base n priceMin tick nLevels K := by
  induction m generalizing t with
  | zero => exact Ends.pure fun b hb => hb
  | succ m ih =>
    refine (level_ends (by omega) 1).bind fun l => Ends.ite (fun _ => ?_) fun _ => ?_
    · exact Ends.pure fun b hb => hb.1
    · exact fun b hb => ih (by omega) b hb.1

theorem Base.setBest {b : Book} (h : Base n priceMin tick nLevels K b) (bid ask : Int) :
    Base n priceMin tick nLevels K { b with bestBid := bid, bestAsk := ask } :=
  ⟨⟨h.sound.bids, h.sound.asks, h.sound.free, h.sound.hwm, h.sound.links, h.sound.tails,
    h.sound.known⟩, h.placed, h.pool, h.priceMin, h.tick, h.nLevels⟩

theorem repairBest_ends (ht : t < nLevels) (side : Nat) :
    Ends (Base n priceMin tick nLevels K) (repairBest side t)
      fun _ => Base n priceMin tick nLevels K := by
  unfold repairBest
  refine Ends.get_bind fun b hb => Ends.ite (fun _ => ?_) fun _ => ?_
  · refine Ends.ite (fun _ => Ends.pure fun b hb => hb) fun _ => ?_
    refine (level_ends ht 0).bind fun l => Ends.ite (fun _ => Ends.pure fun b hb => hb.1) fun _ => ?_
    intro b' hb'
    exact (scanBids_ends ht).bind (fun nb => Ends.modify fun b hb => hb.setBest nb b.bestAsk) b' hb'.1
  · refine Ends.ite (fun _ => Ends.pure fun b hb => hb) fun _ => ?_
    refine (level_ends ht 1).bind fun l => Ends.ite (fun _ => Ends.pure fun b hb => hb.1) fun _ => ?_
    intro b' hb'
    have hm : t + (b.nLevels - t) = nLevels := by
      rw [hb.nLevels]
      omega
    exact (scanAsks_ends hm).bind (fun na => Ends.modify fun b hb => hb.setBest b.bestBid na) b' hb'.1

end ends

theorem Sound.base (h : b.Sound) : Base b.pool.size b.priceMin b.tick b.nLevels [] b :=
  ⟨h, nofun, rfl, rfl, rfl, rfl⟩

/-- The removal of an order that the map knew, once it is marked. -/
theorem remove_ends {n nLevels : Nat} {priceMin tick price : Int} {K : List Nat} (hs : s < n)
    (hfind : Finds priceMin tick price t) (ht : t < nLevels) (side : Nat) (rem : Int) :
    Ends (Base n priceMin tick nLevels K) (do
        let t ← tickOf price
        unlink s side t rem
        freeSlot s
        repairBest side t)
      fun _ => Base n priceMin tick nLevels K := by
  refine (tickOf_ends hfind).bind fun t' b hb => ?_
  obtain ⟨hbase, rfl⟩ := hb
  exact ((unlink_ends hs ht side rem).bind fun _ => (freeSlot_ends hs).bind fun _ =>
    repairBest_ends ht side) b hbase

theorem debit_ends {n nLevels : Nat} {priceMin tick price : Int} {K : List Nat}
    (hfind : Finds priceMin tick price t) (ht : t < nLevels) (side : Nat) (add : Int) :
    Ends (Base n priceMin tick nLevels K) (do
        let t ← tickOf price
        let lvl ← level side t
        setLevel side t { lvl with qtyTotal := i64 (lvl.qtyTotal - add) })
      fun _ => Base n priceMin tick nLevels K := by
  refine (tickOf_ends hfind).bind fun t' b hb => ?_
  obtain ⟨hbase, rfl⟩ := hb
  refine (level_ends ht side).bind (fun l b' hb' => ?_) b hbase
  exact setLevel_ends ht side (by exact hb'.2) b' hb'.1

/-- A call goes through, or stops and leaves `b` as it was. -/
def Whole (b : Book) (x : Run Book Unit) : Prop :=
  (∃ b', x b = .ok () b' ∧ b'.Sound) ∨ ∃ e, x b = .error e b

theorem update_whole (h : b.Sound) (orderId fillQty : Int) : b.Whole (update orderId fillQty) := by
  cases hs : b.idmap orderId with
  | none => exact .inr ⟨.missingKey, bind_error (by simp only [getSlot, hs]) _⟩
  | some s =>
    left
    obtain ⟨o, t, ho, hfind, ht⟩ := h.known orderId s hs
    have hlt : s < b.pool.size := (Array.getElem?_eq_some_iff.mp ho).1
    have hget : getSlot orderId b = .ok s b := by simp only [getSlot, hs]
    unfold update
    rw [bind_ok hget, bind_ok (order_get ho)]
    have hmark := setOrder_ends (K := []) hlt
      { o with filled := i64 (o.filled + min fillQty (i64 (o.qty - o.filled))) } (h.links s o ho)
      hfind ht
    obtain ⟨_, b', e, hb'⟩ := (hmark.bind fun _ =>
      debit_ends hfind ht o.side (min fillQty (i64 (o.qty - o.filled)))) b h.base
    exact ⟨b', e, hb'.sound⟩

/-- The map forgets an id. -/
theorem Sound.remove (h : b.Sound) (orderId : Int) :
    Sound { b with idmap := b.idmap.remove orderId } := by
  refine ⟨h.bids, h.asks, h.free, h.hwm, h.links, h.tails, fun i s hs => ?_⟩
  simp only [IdMap.remove] at hs
  split at hs
  · cases hs
  · exact h.known i s hs

theorem removeId_none {orderId : Int} (h : b.idmap orderId = none) (text : String) :
    removeId orderId text b = .error (.message text) b := by
  simp only [removeId, h]

theorem removeId_some {orderId : Int} (h : b.idmap orderId = some s) (text : String) :
    removeId orderId text b = .ok s { b with idmap := b.idmap.remove orderId } := by
  simp only [removeId, h]

theorem cancel_whole (h : b.Sound) (orderId : Int) : b.Whole (cancel orderId) := by
  cases hs : b.idmap orderId with
  | none => exact .inr ⟨.message _, bind_error (removeId_none hs _) _⟩
  | some s =>
    left
    obtain ⟨o, t, ho, hfind, ht⟩ := h.known orderId s hs
    have hlt : s < b.pool.size := (Array.getElem?_eq_some_iff.mp ho).1
    have hget := removeId_some hs
    unfold cancel
    rw [bind_ok (hget _), bind_ok (order_get (by exact ho))]
    obtain ⟨_, b', e, hb'⟩ := remove_ends hlt hfind ht o.side _ _ (h.remove orderId).base
    exact ⟨b', e, hb'.sound⟩

theorem fill_whole (h : b.Sound) (orderId : Int) : b.Whole (fill orderId) := by
  cases hs : b.idmap orderId with
  | none => exact .inr ⟨.message _, bind_error (removeId_none hs _) _⟩
  | some s =>
    left
    obtain ⟨o, t, ho, hfind, ht⟩ := h.known orderId s hs
    have hlt : s < b.pool.size := (Array.getElem?_eq_some_iff.mp ho).1
    have hget := removeId_some hs
    unfold fill
    rw [bind_ok (hget _), bind_ok (order_get (by exact ho))]
    have hmark := setOrder_ends (K := []) hlt { o with filled := o.qty } (h.links s o ho) hfind ht
    obtain ⟨_, b', e, hb'⟩ := (hmark.bind fun _ =>
      remove_ends hlt hfind ht o.side (i64 (o.qty - o.filled))) _ (h.remove orderId).base
    exact ⟨b', e, hb'.sound⟩

/-- A slot is taken, or there is none and nothing happens. -/
theorem allocSlot_cases (h : b.Sound) :
    (∃ slot b₁, allocSlot b = .ok slot b₁ ∧ b₁.Sound ∧ slot < b.pool.size ∧
      b₁ = { b with hwm := b₁.hwm, freeHead := b₁.freeHead }) ∨
    allocSlot b = .error
      (.message s!"order pool exhausted: SMRC_CAP={b.pool.size} reached") b := by
  by_cases hfree : b.freeHead ≠ NIL
  · left
    have hlt := h.free hfree
    have hget : b.pool[b.freeHead]? = some b.pool[b.freeHead] := Array.getElem?_eq_getElem hlt
    refine ⟨b.freeHead, { b with freeHead := b.pool[b.freeHead].next }, ?_, ?_, hlt, rfl⟩
    · simp only [allocSlot, get_bind, if_pos hfree]
      rw [bind_ok (order_get hget)]
      rfl
    · exact ⟨h.bids, h.asks, (h.links _ _ hget).1, h.hwm, h.links, h.tails, h.known⟩
  · by_cases hfull : b.hwm = b.pool.size
    · right
      simp only [allocSlot, get_bind, if_neg hfree, if_pos hfull]
      rfl
    · left
      have hle := h.hwm
      refine ⟨b.hwm, { b with hwm := u32 (b.hwm + 1) }, ?_, ?_, by omega, rfl⟩
      · simp only [allocSlot, get_bind, if_neg hfree, if_neg hfull]
        rfl
      · have hwrap : u32 ((b.hwm : Int) + 1) ≤ b.hwm + 1 := by unfold u32; omega
        exact ⟨h.bids, h.asks, h.free, by dsimp only; omega, h.links, h.tails, h.known⟩

/-- An order is entered in a slot of the pool, at a level of the ladder. -/
theorem enter_ends {n nLevels : Nat} {priceMin tick price : Int} {K : List Nat} (hs : s < n)
    (hfind : Finds priceMin tick price t) (ht : t < nLevels) (orderId qty : Int) (side : Nat) :
    Ends (Base n priceMin tick nLevels K) (do
        let prevTail := (← level side t).tail
        setOrder s
          { orderId, price, qty, filled := 0, next := NIL, prev := prevTail, side }
        let lvl ← level side t
        setLevel side t
          { head := if lvl.tail = NIL then s else lvl.head
            tail := s
            qtyTotal := i64 (lvl.qtyTotal + qty)
            count := u32 (lvl.count + 1) }
        if prevTail ≠ NIL then setNext prevTail s
        modify fun b => { b with idmap := b.idmap.insert orderId s }
        noteBest side t)
      fun _ => Base n priceMin tick nLevels (s :: K) := by
  have hnote : Ends (Base n priceMin tick nLevels (s :: K)) (noteBest side t)
      fun _ => Base n priceMin tick nLevels (s :: K) := by
    refine Ends.bind (Q := fun _ => Base n priceMin tick nLevels (s :: K)) ?_ fun _ => ?_
    · exact Ends.modify fun b hb => hb.setBest _ b.bestAsk
    · exact Ends.modify fun b hb => hb.setBest b.bestBid _
  have hend : Ends (Base n priceMin tick nLevels (s :: K)) (do
      modify fun b => { b with idmap := b.idmap.insert orderId s }
      noteBest side t)
      fun _ => Base n priceMin tick nLevels (s :: K) := by
    refine Ends.bind (Q := fun _ => Base n priceMin tick nLevels (s :: K)) ?_ fun _ => hnote
    refine Ends.modify fun b hb => ?_
    obtain ⟨hsound, hplaced, h₀, h₁, h₂, h₃⟩ := hb
    refine ⟨⟨hsound.bids, hsound.asks, hsound.free, hsound.hwm, hsound.links, hsound.tails, ?_⟩,
      hplaced, h₀, h₁, h₂, h₃⟩
    intro i s' hs'
    simp only [IdMap.insert] at hs'
    split at hs'
    · cases hs'
      exact hplaced s List.mem_cons_self
    · exact hsound.known i s' hs'
  refine (level_ends ht side).bind fun old b hb => ?_
  obtain ⟨hbase, htail⟩ := hb
  refine ((setOrder_ends hs _ ⟨fun h => absurd rfl h, htail⟩ hfind ht).bind fun _ => ?_) b hbase
  refine (level_ends ht side).bind fun lvl b hb => ?_
  exact ((setLevel_ends ht side fun _ => hs).bind fun _ => linkNext_ends htail (fun _ => hs) hend)
    b hb.1

/-- An insert that has a slot goes through, or the ladder has no level for it. -/
theorem insert_of_slot (h : b.Sound) {price : Int} {slot : Nat} {b₁ : Book}
    (e₁ : tickOf price b = .ok t b) (hfind : Finds b.priceMin b.tick price t)
    (e₂ : allocSlot b = .ok slot b₁) (orderId qty : Int) (side : Nat) :
    (∃ b', insert orderId price qty side b = .ok () b' ∧ b'.Sound) ∨
      b.nLevels ≤ t ∧ insert orderId price qty side b = .error .indexOutOfBounds b₁ := by
  unfold insert
  rcases allocSlot_cases h with ⟨slot', b₂, e₃, h₁, hlt, hb₁⟩ | e₃
  · rw [e₂] at e₃
    cases e₃
    have hbase : Base b.pool.size b.priceMin b.tick b.nLevels [] b₁ := by
      rw [hb₁] at h₁ ⊢
      exact ⟨h₁, nofun, rfl, rfl, rfl, rfl⟩
    rw [bind_ok e₁, bind_ok e₂]
    by_cases ht : t < b.nLevels
    · obtain ⟨_, b', e, hb'⟩ := enter_ends hlt hfind ht orderId qty side b₁ hbase
      exact .inl ⟨b', e, hb'.sound⟩
    · refine .inr ⟨Nat.le_of_not_lt ht, bind_error ?_ _⟩
      have hsize := h₁.lane_size side
      rw [hbase.nLevels] at hsize
      simp only [level, Array.getElem?_eq_none (hsize.trans_le (Nat.le_of_not_lt ht))]
  · rw [e₂] at e₃
    cases e₃

/-- An insert goes through, or stops and leaves `b` as it was, or takes a slot and
then finds that the ladder has no level for the price. -/
theorem insert_cases (h : b.Sound) (orderId price qty : Int) (side : Nat) :
    b.Whole (insert orderId price qty side) ∨
      ∃ t slot b₁, tickOf price b = .ok t b ∧ b.nLevels ≤ t ∧ allocSlot b = .ok slot b₁ ∧
        insert orderId price qty side b = .error .indexOutOfBounds b₁ := by
  rcases tickOf_cases price b with ⟨t, e₁, hfind⟩ | ⟨e, e₁⟩
  · rcases allocSlot_cases h with ⟨slot, b₁, e₂, -, -, -⟩ | e₂
    · rcases insert_of_slot h e₁ hfind e₂ orderId qty side with hok | ⟨ht, e₃⟩
      · exact .inl (.inl hok)
      · exact .inr ⟨t, slot, b₁, e₁, ht, e₂, e₃⟩
    · exact .inl (.inr ⟨_, by rw [insert, bind_ok e₁]; exact bind_error e₂ _⟩)
  · exact .inl (.inr ⟨e, bind_error e₁ _⟩)

theorem apply_sound (h : b.Sound) {op : Op} (e : apply op b = .ok () b') : b'.Sound := by
  have hwhole : b.Whole (apply op) ∨ ∃ p b₁, apply op b = .error p b₁ := by
    cases op with
    | insert orderId price qty side =>
      rcases insert_cases h orderId price qty side with hw | ⟨t, slot, b₁, -, -, -, e'⟩
      · exact .inl hw
      · exact .inr ⟨_, b₁, e'⟩
    | update orderId fillQty => exact .inl (update_whole h orderId fillQty)
    | cancel orderId => exact .inl (cancel_whole h orderId)
    | fill orderId => exact .inl (fill_whole h orderId)
  rcases hwhole with (⟨b₁, e₁, h₁⟩ | ⟨p, e₁⟩) | ⟨p, b₁, e₁⟩
  · rw [e] at e₁
    cases e₁
    exact h₁
  · rw [e] at e₁
    cases e₁
  · rw [e] at e₁
    cases e₁

theorem run_sound {ops : List Op} (h : b.Sound) (e : run ops b = .ok () b') : b'.Sound :=
  runAll_induct (P := fun _ b => b.Sound) h (fun _ _ _ _ hb e' => apply_sound hb e') e

/-- Whatever calls a book has completed, a call that stops leaves it exactly as it
was; only an insert at a price off the ladder is left with the slot it took. -/
theorem stops_clean {cfg : SmrConfig} {ops : List Op} (hrun : run ops (new cfg) = .ok () b)
    {op : Op} {p : Panic} (hstop : apply op b = .error p b') :
    b' = b ∨ ∃ orderId price qty side t slot, op = .insert orderId price qty side ∧
      tickOf price b = .ok t b ∧ b.nLevels ≤ t ∧ allocSlot b = .ok slot b' ∧
      b' = { b with hwm := b'.hwm, freeHead := b'.freeHead } := by
  have h := run_sound (new_sound cfg) hrun
  have hleft : b.Whole (apply op) → b' = b := by
    rintro (⟨b₁, e₁, -⟩ | ⟨e, e₁⟩)
    · rw [hstop] at e₁
      cases e₁
    · rw [hstop] at e₁
      cases e₁
      rfl
  cases op with
  | insert orderId price qty side =>
    rcases insert_cases h orderId price qty side with hw | ⟨t, slot, b₁, e₁, ht, e₂, e₃⟩
    · exact .inl (hleft hw)
    · obtain rfl : b' = b₁ := by
        have e := hstop.symm.trans e₃
        cases e
        rfl
      refine .inr ⟨orderId, price, qty, side, t, slot, rfl, e₁, ht, e₂, ?_⟩
      rcases allocSlot_cases h with ⟨slot', b₂, e, -, -, hb₂⟩ | e
      · rw [e₂] at e
        cases e
        exact hb₂
      · rw [e₂] at e
        cases e
  | update orderId fillQty => exact .inl (hleft (update_whole h orderId fillQty))
  | cancel orderId => exact .inl (hleft (cancel_whole h orderId))
  | fill orderId => exact .inl (hleft (fill_whole h orderId))

/-- Two calls that stop on the book `smallRun` leaves: an order that is no longer there, and a
price off the ladder. -/
theorem stops_clean_smallRun : ∃ b p b₁ p' b₂, run smallRun (new smallBook) = .ok () b ∧
    apply (.cancel 8) b = .error p b₁ ∧ b₁ = b ∧ apply (.insert 12 45 1 0) b = .error p' b₂ ∧
    b₂ = { b with hwm := b₂.hwm, freeHead := b₂.freeHead } := by
  have hstops : ((run smallRun (new smallBook)).casesOn
      (fun _ b => (apply (.cancel 8) b).casesOn (fun _ _ => false) fun _ _ =>
        (apply (.insert 12 45 1 0) b).casesOn (fun _ _ => false) fun _ _ => true)
      fun _ _ => false : Bool) = true := by decide +kernel
  cases e : run smallRun (new smallBook) with
  | error p b =>
    rw [e] at hstops
    cases hstops
  | ok _ b =>
    rw [e] at hstops
    cases e₁ : apply (.cancel 8) b with
    | ok _ b₁ =>
      simp only [e₁] at hstops
      cases hstops
    | error p b₁ =>
      cases e₂ : apply (.insert 12 45 1 0) b with
      | ok _ b₂ =>
        simp only [e₁, e₂] at hstops
        cases hstops
      | error p' b₂ =>
        refine ⟨b, p, b₁, p', b₂, rfl, e₁, ?_, e₂, ?_⟩
        · rcases stops_clean e e₁ with h | ⟨orderId, price, qty, side, t, slot, hop, -⟩
          · exact h
          · cases hop
        · rcases stops_clean e e₂ with h | ⟨orderId, price, qty, side, t, slot, -, -, -, -, h⟩
          · rw [h]
          · exact h

/-- A book of one slot and one level. -/
def tinyBook : SmrConfig := ⟨1, 1, 1, 0, 1, 1, 0⟩

/-- A price beyond the last level costs the book its only slot. -/
theorem slot_lost : ∃ cfg b op p b', run [] (new cfg) = .ok () b ∧
    apply op b = .error p b' ∧ b'.hwm ≠ b.hwm :=
  ⟨tinyBook, _, .insert 1 5 1 0, _, _, rfl, rfl, by decide⟩

end Book

end HiPerf
