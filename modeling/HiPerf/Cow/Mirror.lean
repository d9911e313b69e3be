import HiPerf.Book.Run
import HiPerf.Cow.Model
import HiPerf.Lib.Lockstep

/-!
The copy-on-write book and the flat book, call by call. Whichever chunks a call
copies, both books show the same orders and levels after it.
-/

namespace HiPerf

open Machine Exec Epoch

/-- `w` shows what `b` holds, and the tables of `w` share no chunk. -/
structure CowBook.Mirrors (cap : Nat) (w : CowBook) (b : Book) : Prop where
  priceMin : w.priceMin = b.priceMin
  tick : w.tick = b.tick
  nLevels : w.nLevels = b.nLevels
  capacity : w.capacity = u32 cap
  pool : b.pool.size = cap
  hwm : w.hwm = b.hwm
  hwm_lt : b.hwm < 4294967296
  bestBid : w.bestBid = b.bestBid
  bestAsk : w.bestAsk = b.bestAsk
  freeHead : w.freeHead = b.freeHead
  idmap : w.idmap = b.idmap
  order : ∀ s, w.order? s = b.pool[s]?
  level : ∀ side t, w.level? side t = (b.lane side)[t]?
  orders : Held w.mem.orders w.orderChunks
  bids : Held w.mem.levels w.bidChunks
  asks : Held w.mem.levels w.askChunks
  apart : Apart w.bidChunks w.askChunks

namespace CowBook

variable {strict : Prop} {cap : Nat} {α β : Type}

/-- From books that mirror each other, both programs give the same result and
end in books that do. -/
abbrev Paired (strict : Prop) (cap : Nat) (x : Run CowBook α) (y : Run Book α) : Prop :=
  Lockstep strict (Mirrors cap) x y

/-- The two books stop together when slot numbers have room for the capacity. -/
abbrev Tracks (cap : Nat) (x : Run CowBook α) (y : Run Book α) : Prop :=
  Paired (cap < 4294967296) cap x y

theorem Mirrors.lane {w : CowBook} {b : Book} (h : Mirrors cap w b) (side : Nat) :
    Held w.mem.levels (w.lane side) := by
  unfold CowBook.lane
  split
  · exact h.bids
  · exact h.asks

theorem order_tracks (slot : Nat) : Paired strict cap (order slot) (Book.order slot) := by
  refine Lockstep.of_cases fun w b h => ?_
  simp only [order, Book.order, h.order slot]
  cases b.pool[slot]? with
  | none => exact .inr ⟨_, _, _, _, rfl, rfl⟩
  | some o => exact .inl ⟨_, _, _, rfl, rfl, h⟩

theorem level_tracks (side t : Nat) : Paired strict cap (level side t) (Book.level side t) := by
  refine Lockstep.of_cases fun w b h => ?_
  simp only [level, Book.level, h.level side t]
  cases (b.lane side)[t]? with
  | none => exact .inr ⟨_, _, _, _, rfl, rfl⟩
  | some l => exact .inl ⟨_, _, _, rfl, rfl, h⟩

theorem getSlot_tracks (orderId : Int) :
    Paired strict cap (getSlot orderId) (Book.getSlot orderId) := by
  refine Lockstep.of_cases fun w b h => ?_
  simp only [getSlot, Book.getSlot, h.idmap]
  cases b.idmap orderId with
  | none => exact .inr ⟨_, _, _, _, rfl, rfl⟩
  | some slot => exact .inl ⟨_, _, _, rfl, rfl, h⟩

/-- Both books compute the level of a price the same way, and change nothing. -/
theorem tickOf_paired {I : CowBook → Book → Prop} (hI : ∀ w b, I w b → Mirrors cap w b)
    (price : Int) : Meets strict I I (tickOf price) (Book.tickOf price) := by
  refine Lockstep.get_bind fun w b h => ?_
  rw [(hI w b h).priceMin, (hI w b h).tick]
  exact Lockstep.ite Iff.rfl (fun _ => Lockstep.throw _ _) fun _ =>
    Lockstep.ite Iff.rfl (fun _ => Lockstep.throw _ _) fun _ => Lockstep.pure _

theorem tickOf_tracks (price : Int) : Paired strict cap (tickOf price) (Book.tickOf price) :=
  tickOf_paired (fun _ _ h => h) price

theorem removeId_tracks (orderId : Int) (text : String) :
    Paired strict cap (removeId orderId text) (Book.removeId orderId text) := by
  refine Lockstep.of_cases fun w b h => ?_
  simp only [removeId, Book.removeId, h.idmap]
  cases b.idmap orderId with
  | none => exact .inr ⟨_, _, _, _, rfl, rfl⟩
  | some slot => exact .inl ⟨_, _, _, rfl, rfl, { h with idmap := rfl }⟩

/-- Writing through `order_mut` is reading and writing the pool. -/
theorem orderMut_tracks (slot : Nat) (write : Order → Order) :
    Paired strict cap (orderMut slot write) (do
      let o ← Book.order slot
      Book.setOrder slot (write o)
      return o) := by
  refine Lockstep.of_cases fun w b h => ?_
  have hs : Epoch.get w.mem.orders w.orderChunks w.chunk slot = b.pool[slot]? := h.order slot
  cases eb : b.pool[slot]? with
  | none =>
    have hbook : (Book.order slot >>= fun o => Book.setOrder slot (write o) >>= fun _ =>
        (pure o : Run Book Order)) b = .error .indexOutOfBounds b :=
      bind_error (by simp only [Book.order, eb]) _
    have hcow : ∃ w', orderMut slot write w = .error .indexOutOfBounds w' := by
      unfold orderMut
      cases eo : own w.mem.orders w.orderChunks w.gen (slot / w.chunk) with
      | none => exact ⟨_, rfl⟩
      | some p => simp only [own_get h.orders eo, hs, eb]; exact ⟨_, rfl⟩
    obtain ⟨w', hcow⟩ := hcow
    exact .inr ⟨_, _, _, _, hcow, hbook⟩
  | some o =>
    have hlt : slot < b.pool.size := (Array.getElem?_eq_some_iff.mp eb).1
    have hw := hs.trans eb
    obtain ⟨heap, table, eo⟩ := own_isSome w.gen h.orders (by rw [hw]; rfl)
    have hg : Epoch.get heap table w.chunk slot = some o := (own_get h.orders eo).trans hw
    have hbook : (Book.order slot >>= fun o => Book.setOrder slot (write o) >>= fun _ =>
        (pure o : Run Book Order)) b = .ok o { b with pool := b.pool.setIfInBounds slot (write o) } := by
      have e₁ : Book.order slot b = .ok o b := by simp only [Book.order, eb]
      rw [bind_ok e₁]
      exact bind_ok (a := ()) (by simp only [Book.setOrder, hlt, if_true]) _
    have hcow : orderMut slot write w =
        .ok o (w.setOrders (put heap table w.chunk slot (write o)) table) := by
      simp only [orderMut, eo, hg]
    have hheld := own_held h.orders eo
    refine .inl ⟨_, _, _, hcow, hbook, { h with
      pool := by simpa using h.pool
      order := fun s => ?_
      orders := put_held hheld }⟩
    change get (put heap table w.chunk slot (write o)) table w.chunk s = _
    rw [put_get hheld (by rw [hg]; rfl), Array.getElem?_setIfInBounds, own_get h.orders eo]
    by_cases e : s = slot
    · rw [if_pos e, if_pos e.symm, if_pos hlt]
    · rw [if_neg e, if_neg (Ne.symm e)]
      exact h.order s

/-- Writing a level chunk and its table keeps what the other lane shows. -/
theorem Mirrors.setLevels {w : CowBook} {b : Book} (h : Mirrors cap w b) {side t : Nat}
    {heap : Heap PriceLevel} {table : Array Nat} {l : PriceLevel}
    (eo : own w.mem.levels (w.lane side) w.gen (t / LEVEL_CHUNK) = some (heap, table))
    (hl : t < (b.lane side).size) :
    Mirrors cap (w.setLevels side (put heap table LEVEL_CHUNK t l) table)
      (if side = 0 then { b with bids := b.bids.setIfInBounds t l }
        else { b with asks := b.asks.setIfInBounds t l }) := by
  have hheld := own_held (h.lane side) eo
  have hshow : (Epoch.get heap table LEVEL_CHUNK t).isSome := by
    rw [own_get (h.lane side) eo]
    have := h.level side t
    rw [Array.getElem?_eq_getElem hl] at this
    exact Option.isSome_iff_exists.mpr ⟨_, this⟩
  have hput : ∀ u, Epoch.get (put heap table LEVEL_CHUNK t l) table LEVEL_CHUNK u =
      ((b.lane side).setIfInBounds t l)[u]? := by
    intro u
    rw [put_get hheld hshow, Array.getElem?_setIfInBounds, own_get (h.lane side) eo]
    by_cases e : u = t
    · rw [if_pos e, if_pos e.symm, if_pos hl]
    · rw [if_neg e, if_neg (Ne.symm e)]
      exact h.level side u
  have hother : ∀ {other : Array Nat}, Held w.mem.levels other → Apart (w.lane side) other →
      Apart table other ∧ Held (put heap table LEVEL_CHUNK t l) other ∧ ∀ u,
        Epoch.get (put heap table LEVEL_CHUNK t l) other LEVEL_CHUNK u =
          Epoch.get w.mem.levels other LEVEL_CHUNK u := by
    intro other ho ha
    have ha' := own_apart ha ho.lt eo
    refine ⟨ha', ⟨fun i a e => ?_, ho.inj⟩, fun u => ?_⟩
    · rw [put_size]
      exact Nat.lt_of_lt_of_le (ho.lt i a e) (own_size eo)
    · rw [put_other ha', own_other eo ho.lt]
  by_cases hside : side = 0
  · subst hside
    obtain ⟨ha, ho, hsame⟩ := hother h.asks h.apart
    rw [if_pos rfl]
    refine { h with level := fun side u => ?_, bids := put_held hheld, asks := ho, apart := ha }
    by_cases hs : side = 0
    · subst hs
      exact hput u
    · have hlane : (b.lane side) = b.asks := if_neg hs
      have := h.level side u
      simp only [level?, CowBook.lane, if_neg hs] at this
      simp only [level?, CowBook.lane, if_neg hs, CowBook.setLevels, if_true]
      rw [hsame, this, hlane]
      simp only [Book.lane, if_neg hs]
  · obtain ⟨ha, ho, hsame⟩ := hother h.bids (by
      simp only [CowBook.lane, if_neg hside]; exact h.apart.symm)
    rw [if_neg hside]
    have hset : w.setLevels side (put heap table LEVEL_CHUNK t l) table =
        { w with askChunks := table,
                 mem := { w.mem with levels := put heap table LEVEL_CHUNK t l } } := if_neg hside
    rw [hset]
    refine { h with level := fun side u => ?_, bids := ho, asks := put_held hheld, apart := ha.symm }
    by_cases hs : side = 0
    · subst hs
      exact (hsame u).trans (h.level 0 u)
    · simp only [level?, CowBook.lane, if_neg hs, Book.lane, hput, if_neg hside]

theorem levelMut_tracks (side t : Nat) (write : PriceLevel → PriceLevel) :
    Paired strict cap (levelMut side t write) (do
      let l ← Book.level side t
      Book.setLevel side t (write l)
      return l) := by
  refine Lockstep.of_cases fun w b h => ?_
  have hs : Epoch.get w.mem.levels (w.lane side) LEVEL_CHUNK t = (b.lane side)[t]? := h.level side t
  cases eb : (b.lane side)[t]? with
  | none =>
    have hbook : (Book.level side t >>= fun l => Book.setLevel side t (write l) >>= fun _ =>
        (pure l : Run Book PriceLevel)) b = .error .indexOutOfBounds b :=
      bind_error (by simp only [Book.level, eb]) _
    have hcow : ∃ w', levelMut side t write w = .error .indexOutOfBounds w' := by
      unfold levelMut
      cases eo : own w.mem.levels (w.lane side) w.gen (t / LEVEL_CHUNK) with
      | none => exact ⟨_, rfl⟩
      | some p => simp only [own_get (h.lane side) eo, hs, eb]; exact ⟨_, rfl⟩
    obtain ⟨w', hcow⟩ := hcow
    exact .inr ⟨_, _, _, _, hcow, hbook⟩
  | some l =>
    have hlt : t < (b.lane side).size := (Array.getElem?_eq_some_iff.mp eb).1
    have hw := hs.trans eb
    obtain ⟨heap, table, eo⟩ := own_isSome w.gen (h.lane side) (by rw [hw]; rfl)
    have hg : Epoch.get heap table LEVEL_CHUNK t = some l := (own_get (h.lane side) eo).trans hw
    have hbook : (Book.level side t >>= fun l => Book.setLevel side t (write l) >>= fun _ =>
        (pure l : Run Book PriceLevel)) b = .ok l
          (if side = 0 then { b with bids := b.bids.setIfInBounds t (write l) }
            else { b with asks := b.asks.setIfInBounds t (write l) }) := by
      have e₁ : Book.level side t b = .ok l b := by simp only [Book.level, eb]
      rw [bind_ok e₁]
      exact bind_ok (a := ()) (by simp only [Book.setLevel, hlt, if_true]) _
    have hcow : levelMut side t write w =
        .ok l (w.setLevels side (put heap table LEVEL_CHUNK t (write l)) table) := by
      simp only [levelMut, eo, hg]
    exact .inl ⟨_, _, _, hcow, hbook, h.setLevels eo hlt⟩

/-- A write through `order_mut` and what follows, which may use what was there. -/
theorem orderMut_bind {slot : Nat} {write : Order → Order} {k : Order → Run CowBook β}
    {l : Order → Run Book β} (h : ∀ o, Paired strict cap (k o) (l o)) :
    Paired strict cap (orderMut slot write >>= k)
      (Book.order slot >>= fun o => Book.setOrder slot (write o) >>= fun _ => l o) := by
  have : Paired strict cap _ _ := (orderMut_tracks slot write).bind h
  simpa only [bind_assoc, pure_bind] using this

theorem levelMut_bind {side t : Nat} {write : PriceLevel → PriceLevel}
    {k : PriceLevel → Run CowBook β} {l : PriceLevel → Run Book β}
    (h : ∀ o, Paired strict cap (k o) (l o)) :
    Paired strict cap (levelMut side t write >>= k)
      (Book.level side t >>= fun o => Book.setLevel side t (write o) >>= fun _ => l o) := by
  have : Paired strict cap _ _ := (levelMut_tracks side t write).bind h
  simpa only [bind_assoc, pure_bind] using this

/-- A level write at the end of a call. -/
theorem levelMut_last (side t : Nat) (write : PriceLevel → PriceLevel) :
    Paired strict cap (levelMut side t write >>= fun _ => pure ())
      (Book.level side t >>= fun o => Book.setLevel side t (write o)) := by
  have : Paired strict cap (levelMut side t write >>= fun _ => pure ())
      (Book.level side t >>= fun o => Book.setLevel side t (write o) >>= fun _ => pure ()) :=
    levelMut_bind fun _ => Lockstep.pure ()
  simpa only [bind_pure_unit] using this

/-- Overwriting a whole slot. -/
theorem orderMut_set {slot : Nat} {o : Order} {k : Run CowBook β} {l : Unit → Run Book β}
    (h : Paired strict cap k (l ())) :
    Paired strict cap (orderMut slot (fun _ => o) >>= fun _ => k) (Book.setOrder slot o >>= l) := by
  have e : (Book.setOrder slot o >>= l) =
      (Book.order slot >>= fun _ => Book.setOrder slot o >>= fun _ => l ()) := by
    funext b
    cases eb : b.pool[slot]? with
    | none =>
      have hge : ¬ slot < b.pool.size := by simpa using eb
      have e₁ : Book.setOrder slot o b = .error .indexOutOfBounds b := by
        simp only [Book.setOrder, hge, if_false]
      have e₂ : Book.order slot b = .error .indexOutOfBounds b := by simp only [Book.order, eb]
      rw [bind_error e₁, bind_error e₂]
    | some o' =>
      have e₁ : Book.order slot b = .ok o' b := by simp only [Book.order, eb]
      rw [bind_ok e₁]
  rw [e]
  exact orderMut_bind fun _ => h

/-- Writing a link of a slot that may be the sentinel, and what follows. -/
theorem linkNext_tracks {slot v : Nat} {k : Run CowBook β} {l : Run Book β} (h : Paired strict cap k l) :
    Paired strict cap
      (if slot ≠ NIL then orderMut slot (fun o => { o with next := v }) >>= fun _ => k else k)
      (if slot ≠ NIL then Book.setNext slot v >>= fun _ => l else l) := by
  refine Lockstep.ite Iff.rfl (fun _ => ?_) fun _ => h
  rw [Book.setNext, bind_assoc]
  exact orderMut_bind fun _ => h

theorem linkPrev_tracks {slot v : Nat} {k : Run CowBook β} {l : Run Book β} (h : Paired strict cap k l) :
    Paired strict cap
      (if slot ≠ NIL then orderMut slot (fun o => { o with prev := v }) >>= fun _ => k else k)
      (if slot ≠ NIL then Book.setPrev slot v >>= fun _ => l else l) := by
  refine Lockstep.ite Iff.rfl (fun _ => ?_) fun _ => h
  rw [Book.setPrev, bind_assoc]
  exact orderMut_bind fun _ => h

/-- The copy-on-write book has no free slot only when the flat one has none. -/
def Roomy (strict : Prop) (cap : Nat) (w : CowBook) (b : Book) : Prop :=
  Mirrors cap w b ∧ (strict → b.freeHead = NIL → w.hwm = w.capacity → b.hwm = b.pool.size)

theorem Mirrors.roomy {w : CowBook} {b : Book} (h : Mirrors cap w b) :
    Roomy (cap < 4294967296) cap w b := by
  refine ⟨h, fun hc _ e => ?_⟩
  rw [h.hwm, h.capacity, u32_eq_self hc] at e
  rw [e, h.pool]

theorem allocSlot_meets : Meets strict (Roomy strict cap) (Mirrors cap) allocSlot Book.allocSlot := by
  unfold allocSlot Book.allocSlot
  intro w b ⟨h, hroom⟩
  have hstop : b.hwm = b.pool.size → w.hwm = w.capacity := by
    intro e
    have := h.hwm_lt
    rw [h.hwm, h.capacity, u32_eq_self (by rw [← h.pool]; omega), e, h.pool]
  simp only [get_bind, ite_run]
  rw [h.freeHead]
  by_cases hfree : b.freeHead ≠ NIL
  · rw [if_pos hfree, if_pos hfree]
    refine ((order_tracks b.freeHead).bind fun o => Lockstep.bind (Lockstep.modify ?_) fun _ =>
      Lockstep.pure _) w b h
    exact fun w b h => { h with freeHead := rfl }
  · rw [if_neg hfree, if_neg hfree]
    by_cases hw : w.hwm = w.capacity
    · rw [if_pos hw]
      refine ⟨fun a w' e => (nomatch e), fun hc a b' e => ?_⟩
      rw [if_pos (hroom hc (not_not.mp hfree) hw)] at e
      cases e
    · rw [if_neg hw, if_neg (mt hstop hw), h.hwm]
      refine (Lockstep.bind (Lockstep.modify ?_) fun _ => Lockstep.pure _) w b h
      exact fun w b h => { h with hwm := by rw [h.hwm], hwm_lt := u32_lt (b.hwm + 1) }

theorem freeSlot_tracks (slot : Nat) : Paired strict cap (freeSlot slot) (Book.freeSlot slot) := by
  refine Lockstep.get_bind fun w b h => ?_
  rw [h.freeHead]
  exact orderMut_bind fun _ => Lockstep.modify fun w b h => { h with freeHead := rfl }

theorem noteBest_tracks (side t : Nat) : Paired strict cap (noteBest side t) (Book.noteBest side t) :=
  Lockstep.bind (Lockstep.modify fun w b h => { h with bestBid := by rw [h.bestBid] }) fun _ =>
    Lockstep.modify fun w b h => { h with bestAsk := by rw [h.bestAsk] }

theorem insert_meets (orderId price qty : Int) (side : Nat) :
    Meets strict (Roomy strict cap) (Mirrors cap) (insert orderId price qty side)
      (Book.insert orderId price qty side) := by
  unfold insert Book.insert
  refine Meets.bind (tickOf_paired (fun w b h => h.1) price) fun t => ?_
  refine allocSlot_meets.bind fun slot => ?_
  refine (level_tracks side t).bind fun lvl => orderMut_set (levelMut_bind fun _ => ?_)
  dsimp only
  refine linkNext_tracks ?_
  refine Lockstep.bind (Lockstep.modify fun w b h => ?_) fun _ => noteBest_tracks side t
  exact { h with idmap := by rw [h.idmap] }

theorem update_tracks (orderId fillQty : Int) :
    Paired strict cap (update orderId fillQty) (Book.update orderId fillQty) := by
  unfold update Book.update
  refine (getSlot_tracks orderId).bind fun slot => orderMut_bind fun o => ?_
  exact (tickOf_tracks o.price).bind fun t => levelMut_last o.side t _

theorem unlink_tracks (slot side t : Nat) (rem : Int) :
    Paired strict cap (unlink slot side t rem) (Book.unlink slot side t rem) := by
  unfold unlink Book.unlink
  refine (order_tracks slot).bind fun o => ?_
  dsimp only
  exact linkNext_tracks (linkPrev_tracks (levelMut_last side t _))

theorem scanBids_tracks (t : Nat) : Paired strict cap (scanBids t) (Book.scanBids t) := by
  induction t with
  | zero =>
    exact (level_tracks 0 0).bind fun l =>
      Lockstep.ite Iff.rfl (fun _ => Lockstep.pure _) fun _ => Lockstep.pure _
  | succ t ih =>
    exact (level_tracks 0 (t + 1)).bind fun l =>
      Lockstep.ite Iff.rfl (fun _ => Lockstep.pure _) fun _ => ih

theorem scanAsks_tracks (t n : Nat) : Paired strict cap (scanAsks t n) (Book.scanAsks t n) := by
  induction n generalizing t with
  | zero => exact Lockstep.pure _
  | succ n ih =>
    exact (level_tracks 1 t).bind fun l =>
      Lockstep.ite Iff.rfl (fun _ => Lockstep.pure _) fun _ => ih (t + 1)

theorem repairBest_tracks (side t : Nat) :
    Paired strict cap (repairBest side t) (Book.repairBest side t) := by
  refine Lockstep.get_bind fun w b h => ?_
  refine Lockstep.ite Iff.rfl (fun _ => ?_) fun _ => ?_
  · refine Lockstep.ite (by rw [h.bestBid]) (fun _ => Lockstep.pure _) fun _ => ?_
    refine (level_tracks 0 t).bind fun l => Lockstep.ite Iff.rfl (fun _ => Lockstep.pure _) fun _ => ?_
    exact (scanBids_tracks t).bind fun nb => Lockstep.modify fun w b h => { h with bestBid := rfl }
  · refine Lockstep.ite (by rw [h.bestAsk]) (fun _ => Lockstep.pure _) fun _ => ?_
    refine (level_tracks 1 t).bind fun l => Lockstep.ite Iff.rfl (fun _ => Lockstep.pure _) fun _ => ?_
    rw [h.nLevels]
    exact (scanAsks_tracks t _).bind fun na => Lockstep.modify fun w b h => { h with bestAsk := rfl }

theorem cancel_tracks (orderId : Int) : Paired strict cap (cancel orderId) (Book.cancel orderId) := by
  unfold cancel Book.cancel
  refine (removeId_tracks orderId _).bind fun slot => (order_tracks slot).bind fun o => ?_
  refine (tickOf_tracks o.price).bind fun t => (unlink_tracks slot o.side t _).bind fun _ => ?_
  exact (freeSlot_tracks slot).bind fun _ => repairBest_tracks o.side t

theorem fill_tracks (orderId : Int) : Paired strict cap (fill orderId) (Book.fill orderId) := by
  unfold fill Book.fill
  refine (removeId_tracks orderId _).bind fun slot => orderMut_bind fun o => ?_
  refine (tickOf_tracks o.price).bind fun t => (unlink_tracks slot o.side t _).bind fun _ => ?_
  exact (freeSlot_tracks slot).bind fun _ => repairBest_tracks o.side t

theorem apply_meets (op : Op) :
    Meets strict (Roomy strict cap) (Mirrors cap) (apply op) (Book.apply op) := by
  cases op with
  | insert orderId price qty side => exact insert_meets orderId price qty side
  | update orderId fillQty => exact fun w b h => update_tracks orderId fillQty w b h.1
  | cancel orderId => exact fun w b h => cancel_tracks orderId w b h.1
  | fill orderId => exact fun w b h => fill_tracks orderId w b h.1

theorem apply_tracks (op : Op) : Tracks cap (apply op) (Book.apply op) :=
  fun w b h => apply_meets op w b h.roomy

/-- A capture changes nothing a flat book has. -/
theorem capture_tracks : Paired strict cap (call .capture) (pure ()) :=
  Lockstep.of_cases fun w b h =>
    .inl ⟨(), { w with gen := u64 (w.gen + 1) }, b, rfl, rfl, { h with hwm := h.hwm }⟩

/-- Over a whole run, with captures wherever they come. -/
theorem run_tracks (calls : List CowCall) :
    Tracks cap (run calls) (Book.run (CowCall.ops calls)) := by
  induction calls with
  | nil => exact Lockstep.pure _
  | cons c calls ih =>
    cases c with
    | op o => exact (apply_tracks o).bind fun _ => ih
    | capture =>
      have h : Tracks cap (call .capture >>= fun _ => run calls)
          (pure () >>= fun _ => Book.run (CowCall.ops calls)) := capture_tracks.bind fun _ => ih
      rwa [pure_bind] at h

theorem new_mirrors {cfg : SmrConfig} (hc : 1 ≤ cfg.chunk) :
    ∃ w, new cfg = .ok w ∧ Mirrors cfg.cap w (Book.new cfg) := by
  have hne : cfg.chunk ≠ 0 := by omega
  refine ⟨_, by rw [new, if_neg hne]; rfl, ?_⟩
  have hlanes : (mkLane cfg ++ mkLane cfg).size = (mkLane cfg).size + (mkLane cfg).size :=
    Array.size_append
  have hlevels : ∀ t, (Array.replicate cfg.levels PriceLevel.EMPTY)[t]? =
      if t < cfg.levels then some PriceLevel.EMPTY else none := fun t => Array.getElem?_replicate
  have hchunk : 0 < LEVEL_CHUNK := by decide
  have hplain : ∀ n : Nat, Array.range n = (Array.range n).map (· + 0) := fun n => by simp
  constructor
  case order =>
    intro s
    have h := fill_get hc Order.zero cfg.cap #[] #[] s
    simp only [Array.append_empty, Array.empty_append, Array.size_empty, ← hplain, ← fill_size _ _ Order.zero] at h
    simpa only [order?, Book.new, Array.getElem?_replicate] using h
  case level =>
    intro side t
    by_cases hs : side = 0
    · have h := fill_get hchunk PriceLevel.EMPTY cfg.levels #[] (mkLane cfg) t
      simp only [Array.empty_append, Array.size_empty, ← hplain, ← fill_size _ _ PriceLevel.EMPTY] at h
      simp only [level?, lane, Book.lane, Book.new, if_pos hs, hlevels]
      exact h
    · have h := fill_get hchunk PriceLevel.EMPTY cfg.levels (mkLane cfg) #[] t
      simp only [Array.append_empty, ← fill_size _ _ PriceLevel.EMPTY] at h
      simp only [level?, lane, Book.lane, Book.new, if_neg hs, hlevels]
      exact h
  case orders => rw [hplain]; exact range_held _ _ (Nat.le_of_eq (Nat.zero_add _))
  case bids =>
    change Held (mkLane cfg ++ mkLane cfg) (Array.range (mkLane cfg).size)
    rw [hplain (mkLane cfg).size]
    exact range_held _ _ (by omega)
  case asks => exact range_held _ _ (Nat.le_of_eq hlanes.symm)
  case apart =>
    intro i j a hi hj
    simp only [Array.getElem?_map, Array.getElem?_range, Option.map_eq_some_iff] at hi hj
    split at hi
    · cases hi
      obtain ⟨k, -, hk⟩ := hj
      omega
    · cases hi
  case pool => simp [Book.new]
  case hwm_lt => exact Nat.succ_pos _
  all_goals rfl

end CowBook

end HiPerf
