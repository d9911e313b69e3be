import HiPerf.Book.Queues

/-!
A memory that holds a ledger: queues, id-map and cached bests show exactly the
resting orders, and the free list shows the slots that were used and are not.
`Rep` is what every store keeps; `FreeList` belongs to the stores that reuse slots.
-/

namespace HiPerf

open Machine Fifo Ladder

/-- The values the fields of a slot can hold. -/
structure Order.Plain (o : Order) : Prop where
  orderId : InI64 o.orderId
  price : InI64 o.price
  qty : InI64 o.qty
  filled : InI64 o.filled
  next : o.next ≤ NIL
  prev : o.prev ≤ NIL
  side : o.side ≤ 1

theorem Order.Plain.zero : Order.zero.Plain := by
  constructor <;> simp [Order.zero, InI64]

/-- Slot `s` is in some queue. -/
def Queued (q : Lane → Nat → List Nat) (s : Nat) : Prop := ∃ x t, s ∈ q x t

/-- `f` holds the resting orders `L`, queued as `q` says. -/
structure Rep (f : Flat) (L : Ledger) (q : Lane → Nat → List Nat) : Prop where
  grid_ok : f.grid.Ok
  valid : L.Valid f.grid
  queues : Queues f L q
  live : ∀ s < f.hwm, (f.ord s).orderId ≠ 0 → Queued q s
  ids : ∀ orderId s, f.ids orderId = some s ↔ Queued q s ∧ (f.ord s).orderId = orderId
  hwm_le : f.hwm ≤ NIL
  bestBid : IsHighest (fun t => (f.lvl .bid t).head ≠ NIL) f.grid.nLevels f.bestBid
  bestAsk : IsLowest (fun t => (f.lvl .ask t).head ≠ NIL) f.grid.nLevels f.bestAsk
  plain : ∀ s, (f.ord s).Plain

/-- `fl` is the free list: every blank slot below `hwm`, linked from `freeHead`. -/
structure FreeList (f : Flat) (L : Ledger) (fl : List Nat) : Prop where
  chain : IsChain NIL f.next f.freeHead fl
  nodup : fl.Nodup
  mem_iff : ∀ s, s ∈ fl ↔ s < f.hwm ∧ (f.ord s).orderId = 0
  prev : ∀ s ∈ fl, f.prev s = NIL
  fresh : ∀ s, f.hwm ≤ s → f.ord s = Order.zero
  count : f.hwm = fl.length + L.length

/-- `fl` are slots linked from `freeHead`, all of them blank; there may be others. -/
structure Spare (f : Flat) (fl : List Nat) : Prop where
  chain : IsChain NIL f.next f.freeHead fl
  nodup : fl.Nodup
  blank : ∀ s ∈ fl, s < f.hwm ∧ (f.ord s).orderId = 0
  fresh : ∀ s, f.hwm ≤ s → f.ord s = Order.zero

theorem FreeList.spare {f : Flat} {L : Ledger} {fl : List Nat} (h : FreeList f L fl) : Spare f fl :=
  ⟨h.chain, h.nodup, fun s => (h.mem_iff s).mp, h.fresh⟩

namespace Rep

variable {f : Flat} {L : Ledger} {q : Lane → Nat → List Nat}

theorem queued_lt (h : Rep f L q) {s : Nat} (hs : Queued q s) : s < f.hwm := by
  obtain ⟨x, t, hs⟩ := hs
  exact (h.queues x t).below s hs

theorem queued_mem (h : Rep f L q) {s : Nat} (hs : Queued q s) : (f.ord s).resting ∈ L := by
  obtain ⟨x, t, hs⟩ := hs
  exact (h.queues x t).mem_ledger hs

theorem queued_id_ne (h : Rep f L q) {s : Nat} (hs : Queued q s) : (f.ord s).orderId ≠ 0 :=
  h.valid.id_ne _ (h.queued_mem hs)

/-- The live slots are the queued ones. -/
theorem queued_iff (h : Rep f L q) (s : Nat) :
    Queued q s ↔ s < f.hwm ∧ (f.ord s).orderId ≠ 0 :=
  ⟨fun hs => ⟨h.queued_lt hs, h.queued_id_ne hs⟩, fun hs => h.live s hs.1 hs.2⟩

theorem queued_ne_nil (h : Rep f L q) {s : Nat} (hs : Queued q s) : s ≠ NIL := by
  have := h.queued_lt hs; have := h.hwm_le; omega

theorem slot_unique (h : Rep f L q) {s s' : Nat} (hs : Queued q s) (hs' : Queued q s')
    (e : (f.ord s).orderId = (f.ord s').orderId) : s = s' := by
  obtain ⟨_, _, hs⟩ := hs
  obtain ⟨_, _, hs'⟩ := hs'
  exact h.queues.slot_unique h.valid.nodup hs hs' e

/-- The id-map knows the resting ids. -/
theorem ids_isSome (h : Rep f L q) {orderId : Int} (hid : orderId ∈ L.ids) :
    ∃ s, f.ids orderId = some s ∧ Queued q s ∧ (f.ord s).orderId = orderId := by
  obtain ⟨r, hr, rfl⟩ := List.mem_map.mp hid
  obtain ⟨s, hs, rfl⟩ := h.queues.exists_slot hr
  exact ⟨s, (h.ids _ s).mpr ⟨⟨_, _, hs⟩, rfl⟩, ⟨_, _, hs⟩, rfl⟩

theorem ids_none (h : Rep f L q) {orderId : Int} (hid : orderId ∉ L.ids) :
    f.ids orderId = none := by
  cases e : f.ids orderId with
  | none => rfl
  | some s =>
    obtain ⟨hs, rfl⟩ := (h.ids _ s).mp e
    exact absurd (List.mem_map_of_mem (h.queued_mem hs)) hid

/-- No other id is known. -/
theorem ids_mem (h : Rep f L q) {orderId : Int} (hid : f.ids orderId ≠ none) : orderId ∈ L.ids :=
  not_not.mp fun hnot => hid (h.ids_none hnot)

theorem tick_lt (h : Rep f L q) {s : Nat} (hs : Queued q s) :
    f.grid.tickOf (f.ord s).price < f.grid.nLevels := by
  simpa only [Order.resting] using h.valid.tick_lt _ (h.queued_mem hs)

theorem side_le (h : Rep f L q) {s : Nat} (hs : Queued q s) : (f.ord s).side ≤ 1 :=
  h.valid.side_le _ (h.queued_mem hs)

theorem own (h : Rep f L q) {s : Nat} (hs : Queued q s) :
    s ∈ q (laneOf (f.ord s).side) (f.grid.tickOf (f.ord s).price) := by
  obtain ⟨_, _, hs⟩ := hs
  exact h.queues.own hs

theorem tail_queued (h : Rep f L q) {x : Lane} {t : Nat} (ht : (f.lvl x t).tail ≠ NIL) :
    Queued q (f.lvl x t).tail := ⟨x, t, h.queues.tail_mem ht⟩

theorem next_queued (h : Rep f L q) {s : Nat} (hs : Queued q s) (hn : f.next s ≠ NIL) :
    Queued q (f.next s) := by
  obtain ⟨x, t, hs⟩ := hs
  exact ⟨x, t, (h.queues x t).fifo.next_mem hs hn⟩

theorem prev_queued (h : Rep f L q) {s : Nat} (hs : Queued q s) (hp : f.prev s ≠ NIL) :
    Queued q (f.prev s) := by
  obtain ⟨x, t, hs⟩ := hs
  exact ⟨x, t, (h.queues x t).fifo.prev_mem hs hp⟩

theorem tail_lt (h : Rep f L q) {x : Lane} {t : Nat} (ht : (f.lvl x t).tail ≠ NIL) :
    (f.lvl x t).tail < f.hwm := h.queued_lt (h.tail_queued ht)

/-- Nothing is queued beyond the ladder. -/
theorem q_beyond (h : Rep f L q) (x : Lane) {t : Nat} (ht : f.grid.nLevels ≤ t) : q x t = [] := by
  rw [List.eq_nil_iff_forall_not_mem]
  intro s hs
  have := (h.queues x t).at_level hs
  have := h.tick_lt ⟨x, t, hs⟩
  omega

theorem occupied_lt (h : Rep f L q) {x : Lane} {t : Nat} (hh : (f.lvl x t).head ≠ NIL) :
    t < f.grid.nLevels := by
  by_contra hge
  exact hh ((h.queues x t).fifo.head_eq_nil_iff.mpr (h.q_beyond x (Nat.le_of_not_lt hge)))

/-- A level with an empty queue is back to its initial value. -/
theorem level_eq_empty (h : Rep f L q) {x : Lane} {t : Nat} (hq : q x t = []) :
    f.lvl x t = PriceLevel.EMPTY := by
  have hl := h.queues x t
  have hat : L.atLevel f.grid x t = [] := by rw [← hl.recs, hq]; rfl
  have hqty : (f.lvl x t).qtyTotal = 0 := by
    rw [hl.qty, Ledger.levelQty, hat]; rfl
  have hh := hl.fifo.head_eq
  have ht := hl.fifo.tail_eq
  have hc := hl.count
  rw [hq] at hh ht hc
  cases e : f.lvl x t with
  | mk head tail qtyTotal count =>
    rw [e] at hh ht hc hqty
    simp only at hh ht hc hqty
    simp [PriceLevel.EMPTY, hh, ht, hc, hqty]

/-- The cached bests are levels or -1. -/
theorem bests_i32 (h : Rep f L q) : InI32 f.bestBid ∧ InI32 f.bestAsk := by
  have hle := h.grid_ok.levels_le
  refine ⟨?_, ?_⟩
  · obtain ⟨e, -⟩ | ⟨t, ht, e, -⟩ := h.bestBid
    all_goals rw [e]; exact ⟨by omega, by omega⟩
  · obtain ⟨e, -⟩ | ⟨t, ht, e, -⟩ := h.bestAsk
    all_goals rw [e]; exact ⟨by omega, by omega⟩

/-- An empty head marks an empty level. -/
theorem level_eq_empty_of_head (h : Rep f L q) {x : Lane} {t : Nat}
    (hh : (f.lvl x t).head = NIL) : f.lvl x t = PriceLevel.EMPTY :=
  h.level_eq_empty ((h.queues x t).fifo.head_eq_nil_iff.mp hh)

end Rep

/-- An empty memory holds no orders. -/
theorem Rep.empty {f : Flat} (hg : f.grid.Ok) (hlvl : ∀ x t, f.lvl x t = PriceLevel.EMPTY)
    (hord : ∀ s, f.ord s = Order.zero) (hids : ∀ i, f.ids i = none) (hh : f.hwm = 0)
    (hb : f.bestBid = -1) (ha : f.bestAsk = -1) : Rep f [] fun _ _ => [] where
  grid_ok := hg
  valid := Ledger.Valid.nil _
  queues x t := by
    constructor
    · rw [hlvl]; exact IsFifo.empty
    · rfl
    · rw [hlvl]; rfl
    · rw [hlvl]; rfl
    · simp
  live s hs := by omega
  ids i s := by simp [hids, Queued]
  hwm_le := by omega
  bestBid := .inl ⟨hb, by simp [hlvl, PriceLevel.EMPTY]⟩
  bestAsk := .inl ⟨ha, by simp [hlvl, PriceLevel.EMPTY]⟩
  plain s := hord s ▸ Order.Plain.zero

theorem FreeList.empty {f : Flat} (hord : ∀ s, f.ord s = Order.zero) (hh : f.hwm = 0)
    (hf : f.freeHead = NIL) : FreeList f [] [] where
  chain := hf
  nodup := List.nodup_nil
  mem_iff s := by simp [hh]
  prev := by simp
  fresh s _ := hord s
  count := by simpa using hh

section alloc

variable {f : Flat} {L : Ledger} {q : Lane → Nat → List Nat} {fl : List Nat}

/-- A slot for a new order is blank, below the new mark, and no longer spare. -/
theorem Spare.alloc (h : Spare f fl) (hhwm : f.hwm ≤ NIL) (hroom : fl = [] → f.hwm < NIL) :
    f.alloc.hwm = f.hwm + (if fl = [] then 1 else 0) ∧ f.alloc.hwm ≤ NIL ∧
    f.nextSlot < f.alloc.hwm ∧ (f.ord f.nextSlot).orderId = 0 ∧
    IsChain NIL f.next f.alloc.freeHead fl.tail ∧
    (∀ s ∈ fl.tail, s < f.alloc.hwm ∧ (f.ord s).orderId = 0 ∧ s ≠ f.nextSlot) ∧
    (fl = [] → f.nextSlot = f.hwm) := by
  have hc := h.chain
  cases fl with
  | nil =>
    have hnil : f.freeHead = NIL := hc
    have hlt := hroom rfl
    have hslot : f.nextSlot = f.hwm := by simp [Flat.nextSlot, hnil]
    have hw : f.alloc.hwm = f.hwm + 1 := by
      simp only [Flat.alloc, hnil, ne_eq, not_true, if_false]
      exact u32_eq_self (n := f.hwm + 1) (by simp only [NIL] at hlt; omega)
    have hfh : f.alloc.freeHead = NIL := by simp [Flat.alloc, hnil]
    refine ⟨hw, by omega, by omega, ?_, hfh, by simp, fun _ => hslot⟩
    rw [hslot, h.fresh _ (Nat.le_refl _)]; rfl
  | cons a fl =>
    obtain ⟨ha, hane, htl⟩ := hc
    subst ha
    have hslot : f.nextSlot = f.freeHead := by simp [Flat.nextSlot, hane]
    have hw : f.alloc.hwm = f.hwm := by simp [Flat.alloc, hane]
    have hfh : f.alloc.freeHead = f.next f.freeHead := by simp [Flat.alloc, hane]
    have hmem := h.blank f.freeHead (by simp)
    refine ⟨by simp [hw], by omega, by omega, hslot ▸ hmem.2, hfh ▸ htl, fun s hs => ?_,
      fun e => absurd e (List.cons_ne_nil _ _)⟩
    have hs' := h.blank s (List.mem_cons_of_mem _ hs)
    rw [hw, hslot]
    exact ⟨hs'.1, hs'.2, fun e => (List.nodup_cons.mp h.nodup).1 (e ▸ hs)⟩

@[simp] theorem alloc_ord (f : Flat) : f.alloc.ord = f.ord := by
  unfold Flat.alloc; split <;> rfl

@[simp] theorem alloc_lvl (f : Flat) : f.alloc.lvl = f.lvl := by
  unfold Flat.alloc; split <;> rfl

@[simp] theorem alloc_grid (f : Flat) : f.alloc.grid = f.grid := by
  unfold Flat.alloc; split <;> rfl

@[simp] theorem alloc_ids (f : Flat) : f.alloc.ids = f.ids := by
  unfold Flat.alloc; split <;> rfl

@[simp] theorem alloc_bestBid (f : Flat) : f.alloc.bestBid = f.bestBid := by
  unfold Flat.alloc; split <;> rfl

@[simp] theorem alloc_bestAsk (f : Flat) : f.alloc.bestAsk = f.bestAsk := by
  unfold Flat.alloc; split <;> rfl

theorem Rep.alloc (h : Rep f L q) (hfl : Spare f fl) (hroom : fl = [] → f.hwm < NIL) :
    Rep f.alloc L q := by
  obtain ⟨hle, hnil, -⟩ := hfl.alloc h.hwm_le hroom
  refine ⟨?_, ?_, ?_, ?_, ?_, hnil, ?_, ?_, ?_⟩
  · simpa using h.grid_ok
  · simpa using h.valid
  · exact h.queues.frame (by simp) (by simp) (by omega) (by simp)
  · intro s hs hne
    rw [alloc_ord] at hne
    by_cases hlt : s < f.hwm
    · exact h.live s hlt hne
    · exact absurd (by rw [hfl.fresh s (by omega)]; rfl) hne
  · simpa using h.ids
  · simpa using h.bestBid
  · simpa using h.bestAsk
  · simpa using h.plain

end alloc

section enter

variable {f : Flat} {L : Ledger} {q : Lane → Nat → List Nat}

theorem queued_pushQ (q : Lane → Nat → List Nat) (x : Lane) (t slot s : Nat) :
    Queued (pushQ q x t slot) s ↔ Queued q s ∨ s = slot := by
  constructor
  · rintro ⟨y, u, hs⟩
    simp only [pushQ] at hs
    split at hs
    · rcases List.mem_append.mp hs with hs | hs
      · exact .inl ⟨y, u, hs⟩
      · exact .inr (List.mem_singleton.mp hs)
    · exact .inl ⟨y, u, hs⟩
  · rintro (⟨y, u, hs⟩ | rfl)
    · refine ⟨y, u, ?_⟩
      simp only [pushQ]
      split
      · exact List.mem_append_left _ hs
      · exact hs
    · exact ⟨x, t, by simp [pushQ]⟩

/-- Entering an order occupies its own level and no other. -/
theorem place_occupied (h : Queues f L q) {slot : Nat} {r : Resting} {q' : Lane → Nat → List Nat}
    (h' : Queues (f.place slot r) (L ++ [r]) q') (y : Lane) (u : Nat) :
    ((f.place slot r).lvl y u).head ≠ NIL ↔
      (f.lvl y u).head ≠ NIL ∨ (y = laneOf r.side ∧ u = f.grid.tickOf r.price) := by
  rw [h'.occupied_iff, h.occupied_iff, show (f.place slot r).grid = f.grid from rfl]
  simp only [Ledger.atLevel, List.filter_append, ne_eq, List.append_eq_nil_iff, not_and_or]
  refine or_congr Iff.rfl ?_
  simp only [List.filter_cons, List.filter_nil, Resting.At, decide_eq_true_eq]
  split
  · rename_i e; simp [e.1, e.2]
  · rename_i e; simp only [not_true, false_iff]; exact fun e' => e ⟨e'.1.symm, e'.2.symm⟩

theorem place_ord_ne (h : Rep f L q) {slot : Nat} (r : Resting) {s : Nat} (hs : ¬ Queued q s)
    (hne : s ≠ slot) : (f.place slot r).ord s = f.ord s := by
  rw [place_ord]
  dsimp only
  rw [if_neg, if_neg hne]
  rintro ⟨rfl, ht⟩
  exact hs (h.tail_queued ht)

theorem place_orderId (f : Flat) (slot : Nat) (r : Resting) (s : Nat) :
    ((f.place slot r).ord s).orderId = if s = slot then r.orderId else (f.ord s).orderId := by
  rw [place_ord]
  dsimp only
  split_ifs <;> rfl

theorem Rep.enter (h : Rep f L q) {slot : Nat} (hs : slot < f.hwm)
    (hblank : (f.ord slot).orderId = 0) {r : Resting} (hr0 : r.filled = 0)
    (ha : (Op.insert r.orderId r.price r.qty r.side).Admitted f.grid L) :
    Rep (f.enter slot r) (L ++ [r]) (pushQ q (laneOf r.side) (f.grid.tickOf r.price) slot) := by
  have happly : L.apply (.insert r.orderId r.price r.qty r.side) = L ++ [r] := by
    simp only [Ledger.apply, ← hr0]
  have hvalid := h.valid.apply ha
  rw [happly] at hvalid
  obtain ⟨⟨hid, hprice, hqty⟩, hid0, hnew, htick, hside, hq1, hsum⟩ := ha
  have hfree : ¬ Queued q slot := fun hq => h.queued_id_ne hq hblank
  have hqs : Queues (f.place slot r) (L ++ [r])
      (pushQ q (laneOf r.side) (f.grid.tickOf r.price) slot) :=
    h.queues.place h.valid h.hwm_le hs (fun x t hm => hfree ⟨x, t, hm⟩) hr0 hq1 hsum
  have hocc : ∀ y u, ((f.enter slot r).lvl y u).head ≠ NIL ↔ (f.lvl y u).head ≠ NIL ∨
      (y = laneOf r.side ∧ u = f.grid.tickOf r.price) := place_occupied h.queues hqs
  refine ⟨h.grid_ok, hvalid, ?_, ?_, ?_, h.hwm_le, ?_, ?_, ?_⟩
  · exact hqs.frame rfl rfl (Nat.le_refl _) fun _ _ _ _ => rfl
  · intro s hlt hne
    rw [queued_pushQ]
    have hne' : ((f.place slot r).ord s).orderId ≠ 0 := hne
    rw [place_orderId] at hne'
    by_cases e : s = slot
    · exact .inr e
    · exact .inl (h.live s hlt (by simpa [e] using hne'))
  · intro i s
    rw [queued_pushQ]
    change (if i = r.orderId then some slot else f.ids i) = some s ↔
      _ ∧ ((f.place slot r).ord s).orderId = i
    rw [place_orderId]
    by_cases hi : i = r.orderId
    · rw [if_pos hi, Option.some.injEq]
      constructor
      · rintro rfl; exact ⟨.inr rfl, by rw [if_pos rfl, hi]⟩
      · rintro ⟨hs | rfl, e⟩
        · have hne : s ≠ slot := fun e => hfree (e ▸ hs)
          rw [if_neg hne, hi] at e
          exact absurd (e ▸ List.mem_map_of_mem (h.queued_mem hs)) hnew
        · rfl
    · rw [if_neg hi, h.ids i s]
      constructor
      · rintro ⟨hs, e⟩
        have hne : s ≠ slot := fun e => hfree (e ▸ hs)
        exact ⟨.inl hs, by rw [if_neg hne, e]⟩
      · rintro ⟨hs, e⟩
        have hne : s ≠ slot := by
          rintro rfl
          rw [if_pos rfl] at e
          exact hi e.symm
        exact ⟨hs.resolve_right hne, by rwa [if_neg hne] at e⟩
  · change IsHighest _ f.grid.nLevels (if r.side = 0 ∧ _ then _ else f.bestBid)
    by_cases e : r.side = 0
    · simp only [e, true_and]
      exact h.bestBid.insert htick fun u => by
        simpa [laneOf, e] using hocc .bid u
    · rw [if_neg fun h => e h.1]
      exact h.bestBid.congr fun u _ => by simpa [laneOf, e] using hocc .bid u
  · change IsLowest _ f.grid.nLevels (if r.side = 1 ∧ _ then _ else f.bestAsk)
    by_cases e : r.side = 0
    · rw [if_neg fun h => by omega]
      exact h.bestAsk.congr fun u _ => by simpa [laneOf, e] using hocc .ask u
    · have e1 : r.side = 1 := by omega
      simp only [e1, true_and]
      exact h.bestAsk.insert htick fun u => by simpa [laneOf, e1] using hocc .ask u
  · intro s
    change ((f.place slot r).ord s).Plain
    have htail : (f.lvl (laneOf r.side) (f.grid.tickOf r.price)).tail ≤ NIL := by
      by_cases ht : (f.lvl (laneOf r.side) (f.grid.tickOf r.price)).tail = NIL
      · exact ht.le
      · have := h.tail_lt ht; have := h.hwm_le; omega
    have hnew : (⟨r.orderId, r.price, r.qty, r.filled, NIL,
        (f.lvl (laneOf r.side) (f.grid.tickOf r.price)).tail, r.side⟩ : Order).Plain :=
      ⟨hid, hprice, hqty, by simp [hr0, InI64], Nat.le_refl _, htail, hside⟩
    have hmid : (if s = slot then (⟨r.orderId, r.price, r.qty, r.filled, NIL,
        (f.lvl (laneOf r.side) (f.grid.tickOf r.price)).tail, r.side⟩ : Order)
        else f.ord s).Plain := by
      split
      · exact hnew
      · exact h.plain s
    rw [place_ord]
    dsimp only
    split
    · have := h.hwm_le
      exact ⟨hmid.orderId, hmid.price, hmid.qty, hmid.filled, by simp only; omega, hmid.prev,
        hmid.side⟩
    · exact hmid

theorem insert_orderId (f : Flat) (r : Resting) (s : Nat) :
    ((f.insert r).ord s).orderId = if s = f.nextSlot then r.orderId else (f.ord s).orderId := by
  rw [← alloc_ord f]
  exact place_orderId f.alloc f.nextSlot r s

theorem insert_hwm (f : Flat) (r : Resting) : (f.insert r).hwm = f.alloc.hwm := rfl

theorem Spare.enter {fl : List Nat} (h : Rep f L q) (hfl : Spare f fl)
    (hroom : fl = [] → f.hwm < NIL) (r : Resting) :
    Spare (f.alloc.enter f.nextSlot r) fl.tail ∧
      ∀ s ∈ fl.tail, (f.alloc.place f.nextSlot r).ord s = f.ord s := by
  obtain ⟨hle, hnil, hslot, hblank, hchain, hmem, -⟩ := hfl.alloc h.hwm_le hroom
  have hal := h.alloc hfl hroom
  have hord : ∀ s, ¬ Queued q s → s ≠ f.nextSlot →
      (f.alloc.place f.nextSlot r).ord s = f.ord s := by
    intro s hs hne
    rw [place_ord_ne hal r hs hne, alloc_ord]
  have hkeep : ∀ s ∈ fl.tail, (f.alloc.place f.nextSlot r).ord s = f.ord s := fun s hs =>
    hord s (fun hq => h.queued_id_ne hq (hmem s hs).2.1) (hmem s hs).2.2
  refine ⟨⟨?_, hfl.nodup.sublist (List.tail_sublist _), fun s hs => ?_, fun s hs => ?_⟩, hkeep⟩
  · exact hchain.congr fun s hs => congrArg Order.next (hkeep s hs)
  · exact ⟨(hmem s hs).1, (congrArg Order.orderId (hkeep s hs)).trans (hmem s hs).2.1⟩
  · have hs' : f.alloc.hwm ≤ s := hs
    refine (hord s (fun hq => ?_) (by omega)).trans (hfl.fresh s (by omega))
    have := h.queued_lt hq
    omega

theorem FreeList.enter {fl : List Nat} (h : Rep f L q) (hfl : FreeList f L fl)
    (hroom : fl = [] → f.hwm < NIL) {r : Resting} (hid0 : r.orderId ≠ 0) :
    FreeList (f.alloc.enter f.nextSlot r) (L ++ [r]) fl.tail := by
  obtain ⟨hhwm, -, -, -, -, -, hnew⟩ := hfl.spare.alloc h.hwm_le hroom
  obtain ⟨hspare, hkeep⟩ := hfl.spare.enter h hroom r
  have hcount := hfl.count
  refine ⟨hspare.chain, hspare.nodup, fun s => ⟨hspare.blank s, ?_⟩, fun s hs => ?_, hspare.fresh, ?_⟩
  · change s < f.alloc.hwm ∧ ((f.alloc.place f.nextSlot r).ord s).orderId = 0 → s ∈ fl.tail
    rw [place_orderId, alloc_ord]
    rintro ⟨hlt, h0⟩
    by_cases e : s = f.nextSlot
    · rw [if_pos e] at h0
      exact absurd h0 hid0
    · rw [if_neg e] at h0
      have hmem := hfl.mem_iff s
      cases fl with
      | nil =>
        rw [if_pos rfl] at hhwm
        rw [hnew rfl] at e
        exact absurd (hmem.mpr ⟨by omega, h0⟩) List.not_mem_nil
      | cons a fl =>
        rw [if_neg (List.cons_ne_nil _ _), Nat.add_zero] at hhwm
        have ha : f.nextSlot = a := by
          obtain ⟨rfl, hane, -⟩ := hfl.chain
          simp [Flat.nextSlot, hane]
        exact (List.mem_cons.mp (hmem.mpr ⟨hhwm ▸ hlt, h0⟩)).resolve_left (ha ▸ e)
  · exact (congrArg Order.prev (hkeep s hs)).trans (hfl.prev s (List.mem_of_mem_tail hs))
  · rw [List.length_append, List.length_singleton]
    refine hhwm.trans ?_
    cases fl with
    | nil => simp only [List.length_nil] at hcount; simp; omega
    | cons a fl => simp only [List.length_cons] at hcount; simp; omega

end enter

section fillSlot

variable {f : Flat} {L : Ledger} {q : Lane → Nat → List Nat}

theorem fillSlot_ord (f : Flat) (slot : Nat) (n : Int) (s : Nat) :
    (f.fillSlot slot n).ord s =
      if s = slot then
        { f.ord slot with
          filled := i64 ((f.ord slot).filled + min n (i64 ((f.ord slot).qty - (f.ord slot).filled))) }
      else f.ord s := rfl

theorem fillSlot_head (f : Flat) (slot : Nat) (n : Int) (x : Lane) (t : Nat) :
    ((f.fillSlot slot n).lvl x t).head = (f.lvl x t).head := by
  simp only [Flat.fillSlot, Flat.setLvl, Flat.setOrd]
  split
  · rename_i e; rw [e.1, e.2]
  · rfl

theorem Rep.fillSlot (h : Rep f L q) {slot : Nat} (hs : Queued q slot) {n : Int} (hn : 0 ≤ n) :
    Rep (f.fillSlot slot n) (L.apply (.update (f.ord slot).orderId n)) q := by
  have hid : ∀ s, ((f.fillSlot slot n).ord s).orderId = (f.ord s).orderId := by
    intro s
    rw [fillSlot_ord]
    split
    · rename_i e; rw [e]
    · rfl
  have hvalid : (L.apply (.update (f.ord slot).orderId n)).Valid f.grid :=
    h.valid.apply ⟨List.mem_map_of_mem (h.queued_mem hs), hn⟩
  have hocc : ∀ x u, ((f.fillSlot slot n).lvl x u).head ≠ NIL ↔ (f.lvl x u).head ≠ NIL :=
    fun x u => by rw [fillSlot_head]
  refine ⟨h.grid_ok, hvalid, ?_, ?_, ?_, h.hwm_le, ?_, ?_, ?_⟩
  · obtain ⟨x, t, hs⟩ := hs
    exact h.queues.fillSlot h.valid hs hn
  · intro s hlt hne
    exact h.live s hlt (hid s ▸ hne)
  · intro i s
    rw [hid]
    exact h.ids i s
  · exact h.bestBid.congr fun u _ => hocc .bid u
  · exact h.bestAsk.congr fun u _ => hocc .ask u
  · intro s
    rw [fillSlot_ord]
    split
    · have hp := h.plain slot
      exact ⟨hp.orderId, hp.price, hp.qty, inI64_i64 _, hp.next, hp.prev, hp.side⟩
    · exact h.plain s

theorem Spare.fillSlot (h : Rep f L q) {fl : List Nat} (hfl : Spare f fl) {slot : Nat}
    (hs : Queued q slot) (n : Int) :
    Spare (f.fillSlot slot n) fl ∧ ∀ s ∈ fl, (f.fillSlot slot n).ord s = f.ord s := by
  have hkeep : ∀ s, ¬ Queued q s → (f.fillSlot slot n).ord s = f.ord s := by
    intro s hsq
    rw [fillSlot_ord, if_neg]
    rintro rfl
    exact hsq hs
  have hspare : ∀ s ∈ fl, (f.fillSlot slot n).ord s = f.ord s := fun s hs =>
    hkeep s fun hq => h.queued_id_ne hq (hfl.blank s hs).2
  refine ⟨⟨?_, hfl.nodup, fun s hs => ?_, fun s hs => ?_⟩, hspare⟩
  · exact hfl.chain.congr fun s hs => congrArg Order.next (hspare s hs)
  · rw [hspare s hs]
    exact hfl.blank s hs
  · refine (hkeep s fun hq => ?_).trans (hfl.fresh s hs)
    have := h.queued_lt hq
    exact absurd hs (by change ¬ f.hwm ≤ s; omega)

theorem FreeList.fillSlot (h : Rep f L q) {fl : List Nat} (hfl : FreeList f L fl) {slot : Nat}
    (hs : Queued q slot) (n : Int) :
    FreeList (f.fillSlot slot n) (L.apply (.update (f.ord slot).orderId n)) fl := by
  obtain ⟨hspare, hkeep⟩ := hfl.spare.fillSlot h hs n
  refine ⟨hspare.chain, hspare.nodup, fun s => ?_, fun s hs => ?_, hspare.fresh, ?_⟩
  · rw [hfl.mem_iff, fillSlot_ord]
    split
    · rename_i e; rw [e]; rfl
    · rfl
  · exact (congrArg Order.prev (hkeep s hs)).trans (hfl.prev s hs)
  · rw [show (f.fillSlot slot n).hwm = f.hwm from rfl, hfl.count]
    simp [Ledger.apply]

end fillSlot

section remove

variable {f : Flat} {L : Ledger} {q : Lane → Nat → List Nat}

/-- What a removal books on an order: nothing, or that it is filled. -/
def Flat.Books (mark : Order → Order) : Prop :=
  ∀ o, mark o = o ∨ mark o = { o with filled := o.qty }

theorem books_withdrawn : Flat.Books Flat.withdrawn := fun _ => .inl rfl

theorem books_completed : Flat.Books Flat.completed := fun _ => .inr rfl

theorem queued_dropQ (h : Rep f L q) (slot s : Nat) :
    Queued (dropQ q slot) s ↔ Queued q s ∧ s ≠ slot := by
  simp only [Queued, dropQ]
  constructor
  · rintro ⟨x, t, hs⟩
    have hm := ((h.queues x t).nodup h.valid.nodup).mem_erase_iff.mp hs
    exact ⟨⟨x, t, hm.2⟩, hm.1⟩
  · rintro ⟨⟨x, t, hs⟩, hne⟩
    exact ⟨x, t, ((h.queues x t).nodup h.valid.nodup).mem_erase_iff.mpr ⟨hne, hs⟩⟩

theorem unlink_plain {g : Flat} {slot : Nat} (hg : ∀ s, (g.ord s).Plain)
    (x : Lane) (t : Nat) (rem : Int) (s : Nat) : ((g.unlink slot x t rem).ord s).Plain := by
  rw [unlink_ord]
  dsimp only
  have hs := hg s
  have ho := hg slot
  split_ifs
  · exact ⟨hs.orderId, hs.price, hs.qty, hs.filled, ho.next, ho.prev, hs.side⟩
  · exact ⟨hs.orderId, hs.price, hs.qty, hs.filled, hs.next, ho.prev, hs.side⟩
  · exact ⟨hs.orderId, hs.price, hs.qty, hs.filled, ho.next, hs.prev, hs.side⟩
  · exact hs

/-- A memory in which `slot` is no longer queued nor known by its id, once its
side's best is repaired, holds the ledger without its order. -/
theorem Rep.take {g : Flat} (h : Rep f L q) {slot : Nat} (hs : Queued q slot)
    (hgrid : g.grid = f.grid) (hhwm : g.hwm = f.hwm)
    (hids : g.ids = f.ids.remove (f.ord slot).orderId)
    (hord : ∀ s, s ≠ slot → (g.ord s).orderId = (f.ord s).orderId)
    (hblank : (g.ord slot).orderId = 0) (hplain : ∀ s, (g.ord s).Plain)
    (hqs : Queues g (L.apply (.cancel (f.ord slot).orderId)) (dropQ q slot))
    (hbid : g.bestBid = f.bestBid) (hask : g.bestAsk = f.bestAsk) :
    Rep (g.repairBest (laneOf (f.ord slot).side) (f.grid.tickOf (f.ord slot).price))
      (L.apply (.cancel (f.ord slot).orderId)) (dropQ q slot) := by
  set x := laneOf (f.ord slot).side
  set t := f.grid.tickOf (f.ord slot).price
  have hmem : slot ∈ q x t := h.own hs
  have hadm : (Op.cancel (f.ord slot).orderId).Admitted f.grid L :=
    List.mem_map_of_mem (h.queued_mem hs)
  have hvalid := h.valid.apply hadm
  have helse : ∀ y u, ¬ (y = x ∧ u = t) →
      ((g.lvl y u).head ≠ NIL ↔ (f.lvl y u).head ≠ NIL) := by
    intro y u hne
    have hns : slot ∉ q y u := fun hm => hne (h.queues.unique hm hmem)
    rw [(hqs y u).fifo.head_eq, (h.queues y u).fifo.head_eq, dropQ, List.erase_of_not_mem hns]
  have hot : (f.lvl x t).head ≠ NIL := by
    rw [ne_eq, (h.queues x t).fifo.head_eq_nil_iff]
    exact List.ne_nil_of_mem hmem
  have ht := h.tick_lt hs
  have hkeep : ∀ (y : Lane) (u : Nat),
      (g.repairBest y u).grid = g.grid ∧ (g.repairBest y u).ord = g.ord ∧
      (g.repairBest y u).lvl = g.lvl ∧ (g.repairBest y u).hwm = g.hwm ∧
      (g.repairBest y u).ids = g.ids := by
    intro y u; cases y <;> exact ⟨rfl, rfl, rfl, rfl, rfl⟩
  obtain ⟨kg, ko, kl, kh, ki⟩ := hkeep x t
  refine ⟨?_, ?_, ?_, ?_, ?_, ?_, ?_, ?_, ?_⟩
  · rw [kg, hgrid]; exact h.grid_ok
  · rw [kg, hgrid]; exact hvalid
  · exact hqs.frame kg kl kh.ge fun _ _ _ _ => by rw [ko]
  · intro s hlt hne
    rw [ko] at hne
    rw [queued_dropQ h]
    by_cases e : s = slot
    · exact absurd (e ▸ hblank) hne
    · exact ⟨h.live s (by omega) (hord s e ▸ hne), e⟩
  · intro i s
    rw [ki, ko, hids, queued_dropQ h]
    simp only [IdMap.remove]
    split
    · rename_i hi
      simp only [reduceCtorEq, false_iff]
      rintro ⟨⟨hq, hne⟩, e⟩
      rw [hord s hne, hi] at e
      exact hne (h.slot_unique hq hs e)
    · rename_i hi
      rw [h.ids i s]
      constructor
      · rintro ⟨hq, e⟩
        have hne : s ≠ slot := by rintro rfl; exact hi e.symm
        exact ⟨⟨hq, hne⟩, by rw [hord s hne, e]⟩
      · rintro ⟨⟨hq, hne⟩, e⟩
        exact ⟨hq, by rw [← hord s hne, e]⟩
  · rw [kh, hhwm]; exact h.hwm_le
  · rw [kl, kg, hgrid]
    cases hx : x with
    | bid =>
      simp only [Flat.repairBest, Flat.setBestBid, hbid]
      exact h.bestBid.remove ht (by rw [← hx]; exact hot) fun u hu =>
        helse .bid u fun e => hu e.2
    | ask =>
      simp only [Flat.repairBest, Flat.setBestAsk, hbid]
      exact h.bestBid.congr fun u _ => helse .bid u fun e => by rw [hx] at e; cases e.1
  · rw [kl, kg, hgrid]
    cases hx : x with
    | bid =>
      simp only [Flat.repairBest, Flat.setBestBid, hask]
      exact h.bestAsk.congr fun u _ => helse .ask u fun e => by rw [hx] at e; cases e.1
    | ask =>
      simp only [Flat.repairBest, Flat.setBestAsk, hask, hgrid]
      exact h.bestAsk.remove ht (by rw [← hx]; exact hot) fun u hu =>
        helse .ask u fun e => hu e.2
  · rw [ko]; exact hplain

/-- The marked memory, before its slot is unlinked. -/
def Flat.marked (f : Flat) (orderId : Int) (slot : Nat) (mark : Order → Order) : Flat :=
  (f.setOrd slot (mark (f.ord slot))).setIds (f.ids.remove orderId)

/-- The memory after the unlink. -/
def Flat.unlinked (f : Flat) (slot : Nat) (mark : Order → Order) : Flat :=
  (f.marked (f.ord slot).orderId slot mark).unlink slot (laneOf (f.ord slot).side)
    (f.grid.tickOf (f.ord slot).price) (i64 ((f.ord slot).qty - (f.ord slot).filled))

theorem remove_eq (f : Flat) (slot : Nat) (mark : Order → Order) :
    f.remove (f.ord slot).orderId slot mark = ((f.unlinked slot mark).free slot).repairBest
      (laneOf (f.ord slot).side) (f.grid.tickOf (f.ord slot).price) := rfl

section unlinked

variable {slot : Nat} {mark : Order → Order}

theorem marked_ord_ne {s : Nat} (hne : s ≠ slot) (i : Int) :
    (f.marked i slot mark).ord s = f.ord s := if_neg hne

theorem marked_ord_self (i : Int) : (f.marked i slot mark).ord slot = mark (f.ord slot) :=
  if_pos rfl

theorem Flat.Books.links (hm : Flat.Books mark) (o : Order) :
    (mark o).next = o.next ∧ (mark o).prev = o.prev := by
  rcases hm o with e | e <;> rw [e] <;> exact ⟨rfl, rfl⟩

theorem Flat.Books.plain (hm : Flat.Books mark) {o : Order} (h : o.Plain) : (mark o).Plain := by
  rcases hm o with e | e <;> rw [e]
  · exact h
  · exact ⟨h.orderId, h.price, h.qty, h.qty, h.next, h.prev, h.side⟩

theorem Rep.remaining_i64 (h : Rep f L q) (hs : Queued q slot) :
    i64 ((f.ord slot).qty - (f.ord slot).filled) = (f.ord slot).resting.remaining := by
  have hr := h.queued_mem hs
  have hle := h.valid.filled_le _ hr
  have hlo := h.valid.filled_nonneg _ hr
  have hq := (h.valid.i64 _ hr).2.2
  simp only [Order.resting, Resting.remaining] at hle hlo hq ⊢
  exact i64_eq_self (by unfold InI64 at hq ⊢; omega)

theorem Rep.unlinked_queues (h : Rep f L q) (hs : Queued q slot) (hm : Flat.Books mark) :
    Queues (f.unlinked slot mark) (L.apply (.cancel (f.ord slot).orderId)) (dropQ q slot) := by
  rw [Flat.unlinked, h.remaining_i64 hs]
  refine h.queues.unlink h.valid h.hwm_le (h.own hs) ⟨rfl, rfl, rfl, ?_, ?_, ?_⟩
  · intro s hne
    exact marked_ord_ne hne _
  · rw [Flat.next, marked_ord_self, (hm.links _).1]
    rfl
  · rw [Flat.prev, marked_ord_self, (hm.links _).2]
    rfl

theorem unlinked_orderId {s : Nat} (hne : s ≠ slot) :
    ((f.unlinked slot mark).ord s).orderId = (f.ord s).orderId := by
  have e := congrArg Resting.orderId (unlink_resting (f.marked (f.ord slot).orderId slot mark) slot
    (laneOf (f.ord slot).side) (f.grid.tickOf (f.ord slot).price)
    (i64 ((f.ord slot).qty - (f.ord slot).filled)) s)
  rw [marked_ord_ne hne] at e
  exact e

theorem Rep.unlinked_plain (h : Rep f L q) (hm : Flat.Books mark) (s : Nat) :
    ((f.unlinked slot mark).ord s).Plain := by
  refine unlink_plain (fun s => ?_) _ _ _ s
  by_cases e : s = slot
  · rw [e, marked_ord_self]; exact hm.plain (h.plain slot)
  · rw [marked_ord_ne e]; exact h.plain s

/-- Unlinking touches queued slots only. -/
theorem Rep.unlinked_ord (h : Rep f L q) (hs : Queued q slot) (hm : Flat.Books mark) {s : Nat}
    (hsq : ¬ Queued q s) : (f.unlinked slot mark).ord s = f.ord s := by
  have hne : s ≠ slot := by rintro rfl; exact hsq hs
  rw [Flat.unlinked, unlink_ord, marked_ord_self, marked_ord_ne hne]
  dsimp only
  rw [(hm.links _).1, (hm.links _).2, if_neg, if_neg]
  · rintro ⟨rfl, hnil⟩; exact hsq (h.prev_queued hs hnil)
  · rintro ⟨rfl, hnil⟩; exact hsq (h.next_queued hs hnil)

end unlinked

theorem free_ord (f : Flat) (slot s : Nat) :
    (f.free slot).ord s =
      if s = slot then { f.ord slot with orderId := 0, next := f.freeHead, prev := NIL }
      else f.ord s := rfl

/-- Marking, unlinking and freeing a queued slot: what the memory then holds. -/
theorem Rep.remove (h : Rep f L q) {slot : Nat} (hs : Queued q slot) {mark : Order → Order}
    (hm : Flat.Books mark) (hfh : f.freeHead ≤ NIL) :
    Rep (f.remove (f.ord slot).orderId slot mark) (L.apply (.cancel (f.ord slot).orderId))
      (dropQ q slot) := by
  rw [remove_eq]
  refine h.take hs rfl rfl rfl (fun s hne => ?_) ?_ (fun s => ?_) ?_ rfl rfl
  · rw [free_ord, if_neg hne, unlinked_orderId hne]
  · rw [free_ord, if_pos rfl]
  · have hp : ∀ s, ((f.unlinked slot mark).ord s).Plain := h.unlinked_plain hm
    rw [free_ord]
    split
    · have hps := hp slot
      exact ⟨by simp [InI64], hps.price, hps.qty, hps.filled, hfh, Nat.le_refl _, hps.side⟩
    · exact hp s
  · refine (h.unlinked_queues hs hm).frame rfl rfl (Nat.le_refl _) fun x t s hsq => ?_
    rw [free_ord, if_neg]
    exact ((queued_dropQ h slot s).mp ⟨x, t, hsq⟩).2

theorem Spare.head_le {fl : List Nat} (h : Spare f fl) (hhwm : f.hwm ≤ NIL) : f.freeHead ≤ NIL := by
  have hc := h.chain
  cases fl with
  | nil => exact hc.le
  | cons a fl =>
    have := (h.blank a (by simp)).1
    rw [hc.1]
    omega

theorem FreeList.head_le {fl : List Nat} (h : FreeList f L fl) (hhwm : f.hwm ≤ NIL) :
    f.freeHead ≤ NIL := h.spare.head_le hhwm

theorem remove_ord (f : Flat) (slot : Nat) (mark : Order → Order) :
    (f.remove (f.ord slot).orderId slot mark).ord = ((f.unlinked slot mark).free slot).ord ∧
      (f.remove (f.ord slot).orderId slot mark).hwm = f.hwm ∧
      (f.remove (f.ord slot).orderId slot mark).freeHead = slot := by
  rw [remove_eq]
  cases laneOf (f.ord slot).side <;> exact ⟨rfl, rfl, rfl⟩

/-- The freed slot comes back first. -/
theorem Spare.remove (h : Rep f L q) {fl : List Nat} (hfl : Spare f fl) {slot : Nat}
    (hs : Queued q slot) {mark : Order → Order} (hm : Flat.Books mark) :
    Spare (f.remove (f.ord slot).orderId slot mark) (slot :: fl) ∧
      ∀ s ∈ fl, (f.remove (f.ord slot).orderId slot mark).ord s = f.ord s := by
  obtain ⟨ko, kh, kf⟩ := remove_ord f slot mark
  have hnq : ∀ s ∈ fl, ¬ Queued q s := fun s hs hq => h.queued_id_ne hq (hfl.blank s hs).2
  have hkeep : ∀ s, ¬ Queued q s → (f.remove (f.ord slot).orderId slot mark).ord s = f.ord s := by
    intro s hsq
    have hne : s ≠ slot := by rintro rfl; exact hsq hs
    rw [ko, free_ord, if_neg hne, h.unlinked_ord hs hm hsq]
  refine ⟨⟨?_, List.nodup_cons.mpr ⟨fun hm => hnq slot hm hs, hfl.nodup⟩, fun s hsm => ?_,
    fun s hle => ?_⟩, fun s hs => hkeep s (hnq s hs)⟩
  · rw [kf]
    have hchain : IsChain NIL f.next f.freeHead fl := hfl.chain
    refine hchain.push (h.queued_ne_nil hs) (fun s hs => ?_) ?_
    · exact congrArg Order.next (hkeep s (hnq s hs))
    · rw [Flat.next, ko, free_ord, if_pos rfl]; rfl
  · rw [kh]
    rcases List.mem_cons.mp hsm with rfl | hsm
    · exact ⟨h.queued_lt hs, by rw [ko, free_ord, if_pos rfl]⟩
    · rw [hkeep s (hnq s hsm)]
      exact hfl.blank s hsm
  · rw [kh] at hle
    rw [hkeep s fun hq => by have := h.queued_lt hq; omega]
    exact hfl.fresh s hle

theorem FreeList.remove (h : Rep f L q) {fl : List Nat} (hfl : FreeList f L fl) {slot : Nat}
    (hs : Queued q slot) {mark : Order → Order} (hm : Flat.Books mark) :
    FreeList (f.remove (f.ord slot).orderId slot mark)
      (L.apply (.cancel (f.ord slot).orderId)) (slot :: fl) := by
  obtain ⟨hspare, hkeep⟩ := hfl.spare.remove h hs hm
  obtain ⟨ko, kh, kf⟩ := remove_ord f slot mark
  refine ⟨hspare.chain, hspare.nodup, fun s => ?_, fun s hsm => ?_, hspare.fresh, ?_⟩
  · rw [kh, ko, List.mem_cons, hfl.mem_iff, free_ord]
    have hlt := h.queued_lt hs
    by_cases e : s = slot
    · simp [e, hlt]
    · rw [if_neg e, unlinked_orderId e]
      simp [e]
  · rcases List.mem_cons.mp hsm with rfl | hsm
    · rw [Flat.prev, ko, free_ord, if_pos rfl]
    · rw [Flat.prev, hkeep s hsm]
      exact hfl.prev s hsm
  · have hlen := Ledger.length_cancel h.valid.nodup (h.queued_mem hs)
    rw [kh, hfl.count, List.length_cons]
    simp only [Order.resting] at hlen
    omega

end remove

end HiPerf
