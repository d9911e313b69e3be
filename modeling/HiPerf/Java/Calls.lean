import HiPerf.Java.Flat
import HiPerf.Snapshot.RoundTrip

/-!
Every call of the Java book runs where the memory holds a ledger, and does what the step does.
-/

namespace HiPerf.Java

open Machine Exec HashMaps

namespace Book

variable {om : Long2ObjectHashMap Int} {cap n s t side slot : Nat} {f : Flat} {orderId : Int} {L : Ledger}

/-- A link of the memory: none, or to a slot that shows. -/
structure Link (cap n s : Nat) : Prop where
  le_nil : s ≤ HiPerf.NIL
  lt : s ≠ HiPerf.NIL → s < n ∧ s < cap

theorem link_of_lt (hcap : cap ≤ 2147483647) (h : s ≠ HiPerf.NIL → s < n ∧ s < cap) :
    Link cap n s := by
  refine ⟨?_, h⟩
  by_cases e : s = HiPerf.NIL
  · exact Nat.le_of_eq e
  · have := (h e).2
    unfold HiPerf.NIL
    omega

/-- Writing a link of a slot that may be none. -/
theorem setNext_link (hcap : cap ≤ 2147483647) (hs : Link cap n s) (hne : s ≠ HiPerf.NIL) (v : Nat) :
    Runs (@Shows om cap) (setNext (int s) (int v)) (n, f) () (n, f.linkNext s v) := by
  obtain ⟨hlt, hlt'⟩ := hs.lt hne
  rw [int_slot hcap hlt', HiPerf.Book.linkNext_eq f hne]
  exact setNext_runs hlt hlt' v

theorem setPrev_link (hcap : cap ≤ 2147483647) (hs : Link cap n s) (hne : s ≠ HiPerf.NIL) (v : Nat) :
    Runs (@Shows om cap) (setPrev (int s) (int v)) (n, f) () (n, f.linkPrev s v) := by
  obtain ⟨hlt, hlt'⟩ := hs.lt hne
  rw [int_slot hcap hlt', HiPerf.Book.linkPrev_eq f hne]
  exact setPrev_runs hlt hlt' v

/-- A new order is linked behind the tail of its level, and its level is told. -/
theorem link_runs {qty : Int} {l : PriceLevel} (hcap : cap ≤ 2147483647) (hslot : slot < cap)
    (hl : f.lvl (laneOf side) t = l) (ht : t < f.grid.nLevels) (htail : Link cap n l.tail) :
    Runs (@Shows om cap) (do
        link side t slot (int l.tail)
        let lvl ← level side t
        setLevel side t { lvl with
          tail := slot
          qtyTotal := i64 (lvl.qtyTotal + qty)
          count := i32 (lvl.count + 1) })
      (n, f) ()
      (n, (f.setLvl (laneOf side) t
        { head := if l.tail = HiPerf.NIL then slot else l.head
          tail := slot
          qtyTotal := i64 (l.qtyTotal + qty)
          count := u32 (l.count + 1) }).linkNext l.tail slot) := by
  have hself := int_slot hcap hslot
  have hread := @level_runs om cap n t f side ht
  rw [hl] at hread
  have hcount := int_count l.count 1
  by_cases hnil : l.tail = HiPerf.NIL
  · rw [link, hnil, int_nil, if_neg (not_not.mpr rfl), if_pos rfl, HiPerf.Book.linkNext_nil,
      ← Flat.setLvl_setLvl f _ t { l with head := slot }, ← hself]
    have hhead := @setLevel_runs om cap n t f side ht { l with head := slot }
    have hagain := @level_runs om cap n t (f.setLvl (laneOf side) t { l with head := slot }) side ht
    have hlvl : (f.setLvl (laneOf side) t { l with head := slot }).lvl (laneOf side) t =
        { l with head := slot } := if_pos ⟨rfl, rfl⟩
    rw [hlvl] at hagain
    have hlevel := @setLevel_runs om cap n t (f.setLvl (laneOf side) t { l with head := slot }) side
      ht { head := slot, tail := slot, qtyTotal := i64 (l.qtyTotal + qty), count := u32 (l.count + 1) }
    rw [shownLevel, ← hcount] at hlevel
    exact (hread.bind hhead).bind (hagain.bind hlevel)
  · have hne : int l.tail ≠ NIL := mt (int_eq_nil htail.le_nil).mp hnil
    rw [link, if_pos hne, if_neg hnil, ← hself]
    have hagain := @level_runs om cap n t (f.linkNext l.tail slot) side ht
    rw [show (f.linkNext l.tail slot).lvl (laneOf side) t = l from hl] at hagain
    have hlevel := @setLevel_runs om cap n t (f.linkNext l.tail slot) side ht
      { l with tail := slot, qtyTotal := i64 (l.qtyTotal + qty), count := u32 (l.count + 1) }
    rw [shownLevel, ← hcount] at hlevel
    exact (setNext_link hcap htail hnil slot).bind (hagain.bind hlevel)

theorem insert_runs_of {price qty : Int} {keys : List Int} (hm : om.Lawful)
    (hcap : cap ≤ 2147483647) (hgrid : f.grid.Ok)
    (htick : f.grid.tickOf price < f.grid.nLevels)
    (hfree : f.freeHead ≠ HiPerf.NIL → f.freeHead < f.hwm ∧ f.freeHead < cap)
    (hroom : f.freeHead = HiPerf.NIL → f.hwm < cap)
    (hle : f.nextSlot ≤ f.hwm) (hslot : f.nextSlot < cap)
    (hmark : max f.hwm (f.nextSlot + 1) = f.alloc.hwm)
    (htail : ∀ x t, Link cap f.alloc.hwm (f.lvl x t).tail)
    (hkeys : ∀ k, f.ids k ≠ none → k ∈ keys) (hput : (putKey orderId keys).length ≤ 536870912) :
    Runs (@Shows om cap) (insert orderId price qty side) (f.hwm, f) ()
      ((f.insert ⟨orderId, price, qty, 0, side⟩).hwm, f.insert ⟨orderId, price, qty, 0, side⟩) := by
  have hg : f.alloc.grid = f.grid := alloc_grid f
  have htick' : f.grid.tickOf price < f.alloc.grid.nLevels := by rwa [hg]
  have htail' := htail (laneOf side) (f.grid.tickOf price)
  rw [← alloc_lvl f] at htail'
  have hplace := @setOrder_runs om cap f.hwm f.nextSlot f.alloc hle hslot
    ⟨orderId, price, qty, 0, HiPerf.NIL, (f.alloc.lvl (laneOf side) (f.grid.tickOf price)).tail, side⟩
  rw [hmark, shown, int_nil] at hplace
  have hlink := @link_runs om cap f.alloc.hwm (f.grid.tickOf price) side f.nextSlot
    (f.alloc.setOrd f.nextSlot ⟨orderId, price, qty, 0, HiPerf.NIL,
      (f.alloc.lvl (laneOf side) (f.grid.tickOf price)).tail, side⟩)
    qty (f.alloc.lvl (laneOf side) (f.grid.tickOf price)) hcap hslot rfl htick' htail'
  have hplaced : Runs (@Shows om cap) (putId orderId f.nextSlot >>= fun _ =>
      noteBest side (f.grid.tickOf price : Nat))
      (f.alloc.hwm, f.alloc.place f.nextSlot ⟨orderId, price, qty, 0, side⟩) ()
      (f.alloc.hwm, f.insert ⟨orderId, price, qty, 0, side⟩) := by
    have hids : ∀ k, (f.alloc.place f.nextSlot ⟨orderId, price, qty, 0, side⟩).ids k ≠ none →
        k ∈ keys := by
      intro k hk
      rw [show (f.alloc.place f.nextSlot _).ids = f.ids from alloc_ids f] at hk
      exact hkeys k hk
    refine (putId_runs hm hids hput f.nextSlot).bind ?_
    rw [Flat.insert, Flat.enter, hg]
    exact noteBest_runs side _
  rw [Flat.place] at hplaced
  dsimp only at hplaced
  rw [hg] at hplaced
  unfold insert
  refine (tickOf_runs hgrid htick).bind ((allocSlot_runs hcap hfree hroom).bind ?_)
  refine (level_runs side htick').bind (hplace.bind ?_)
  have hall := hlink.bind (k := fun _ => putId orderId f.nextSlot >>= fun _ =>
    noteBest side (f.grid.tickOf price : Nat)) hplaced
  simp only [bind_assoc] at hall
  exact hall

theorem update_runs_of (hg : f.grid.Ok) (hs : f.ids orderId = some slot) (hlt : slot < n)
    (hcap : slot < cap) (ht : f.grid.tickOf (f.ord slot).price < f.grid.nLevels) (fillQty : Int) :
    Runs (@Shows om cap) (update orderId fillQty) (n, f) () (n, f.fillSlot slot fillQty) := by
  have hset := @setOrder_runs om cap n slot f hlt.le hcap
    { f.ord slot with filled := i64 ((f.ord slot).filled +
        min fillQty (i64 ((f.ord slot).qty - (f.ord slot).filled))) }
  rw [Nat.max_eq_left hlt] at hset
  unfold update
  refine (getId_runs hs).bind ((order_runs hlt).bind (hset.bind ?_))
  refine (tickOf_runs (by exact hg) (by exact ht)).bind ?_
  have hlevel := @setLevel_runs om cap n (f.grid.tickOf (f.ord slot).price) (f.setOrd slot
    { f.ord slot with filled := i64 ((f.ord slot).filled +
        min fillQty (i64 ((f.ord slot).qty - (f.ord slot).filled))) }) (f.ord slot).side ht
    { f.lvl (laneOf (f.ord slot).side) (f.grid.tickOf (f.ord slot).price) with
      qtyTotal := i64 ((f.lvl (laneOf (f.ord slot).side)
        (f.grid.tickOf (f.ord slot).price)).qtyTotal -
          min fillQty (i64 ((f.ord slot).qty - (f.ord slot).filled))) }
  exact (level_runs _ (by exact ht)).bind hlevel

/-- Writing a link of a slot that may be none, and what follows. -/
theorem linkNext_runs (hcap : cap ≤ 2147483647) (hs : Link cap n s) (v : Nat)
    {k : Unit → Run (Book om) Unit} {v' : Nat × Flat}
    (hk : Runs (@Shows om cap) (k ()) (n, f.linkNext s v) () v') :
    Runs (@Shows om cap) (if int s ≠ NIL then setNext (int s) (int v) >>= k else k ()) (n, f) () v' := by
  refine Runs.ite (fun h => ?_) fun h => ?_
  · have hne := mt (int_eq_nil hs.le_nil).mpr h
    exact (setNext_link hcap hs hne v).bind hk
  · rw [(int_eq_nil hs.le_nil).mp (not_not.mp h), HiPerf.Book.linkNext_nil] at hk
    exact hk

theorem linkPrev_runs (hcap : cap ≤ 2147483647) (hs : Link cap n s) (v : Nat)
    {k : Unit → Run (Book om) Unit} {v' : Nat × Flat}
    (hk : Runs (@Shows om cap) (k ()) (n, f.linkPrev s v) () v') :
    Runs (@Shows om cap) (if int s ≠ NIL then setPrev (int s) (int v) >>= k else k ()) (n, f) () v' := by
  refine Runs.ite (fun h => ?_) fun h => ?_
  · have hne := mt (int_eq_nil hs.le_nil).mpr h
    exact (setPrev_link hcap hs hne v).bind hk
  · rw [(int_eq_nil hs.le_nil).mp (not_not.mp h), HiPerf.Book.linkPrev_nil] at hk
    exact hk

/-- A level that `slot` was unlinked from. -/
def unlinked (l : PriceLevel) (slot next prev : Nat) (rem : Int) : PriceLevel where
  head := if l.head = slot then next else l.head
  tail := if l.tail = slot then prev else l.tail
  qtyTotal := i64 (l.qtyTotal - rem)
  count := u32 (l.count - 1)

theorem shownLevel_unlinked {l : PriceLevel} (hl : l.Plain) (hself : int slot = slot)
    (hslot : slot ≤ HiPerf.NIL) (next prev : Nat) (rem : Int) :
    shownLevel (unlinked l slot next prev rem) =
      { head := if int l.head = slot then int next else int l.head
        tail := if int l.tail = slot then int prev else int l.tail
        qtyTotal := i64 (l.qtyTotal - rem)
        count := i32 (int l.count - 1) } := by
  have hcount := int_count l.count (-1)
  have hheads := int_inj hl.head hslot
  have htails := int_inj hl.tail hslot
  rw [hself] at hheads htails
  simp only [shownLevel, unlinked, apply_ite int, sub_eq_add_neg, hcount, hheads, htails]

theorem unlink_runs {x : Lane} (hcap : cap ≤ 2147483647) (hx : laneOf side = x)
    (hs : slot < n ∧ slot < cap) (ht : t < f.grid.nLevels) (hp : Link cap n (f.prev slot))
    (hn : Link cap n (f.next slot)) (hl : (f.lvl x t).Plain) (rem : Int) :
    Runs (@Shows om cap) (unlink slot side t rem) (n, f) () (n, f.unlink slot x t rem) := by
  subst hx
  have hslot : slot ≤ HiPerf.NIL := by
    have := hs.2
    unfold HiPerf.NIL
    omega
  have hset := @setLevel_runs om cap n t
    ((f.linkNext (f.prev slot) (f.next slot)).linkPrev (f.next slot) (f.prev slot)) side ht
    (unlinked (f.lvl (laneOf side) t) slot (f.next slot) (f.prev slot) rem)
  rw [shownLevel_unlinked hl (int_slot hcap hs.2) hslot] at hset
  unfold unlink
  apply (order_runs hs.1).bind
  apply linkNext_runs hcap hp
  apply linkPrev_runs hcap hn
  exact (level_runs side (by exact ht)).bind hset

theorem freeSlot_runs (hcap : cap ≤ 2147483647) (hs : slot < n ∧ slot < cap) :
    Runs (@Shows om cap) (freeSlot slot) (n, f) () (n, f.free slot) := by
  unfold freeSlot
  apply (order_runs hs.1).bind
  apply Runs.get_bind
  intro b hb
  have hhead : b.freeHead = int f.freeHead := hb.freeHead
  have hset := @setOrder_runs om cap n slot f hs.1.le hs.2
    { f.ord slot with orderId := 0, next := f.freeHead, prev := HiPerf.NIL }
  rw [Nat.max_eq_left hs.1, shown, int_nil] at hset
  rw [hhead]
  apply hset.bind
  apply Runs.modify
  intro b' hb'
  rw [← int_slot hcap hs.2]
  exact hb'.setFreeHead slot

theorem scanBids_runs (hheads : ∀ t, (f.lvl .bid t).head ≤ HiPerf.NIL) (ht : t < f.grid.nLevels) :
    Runs (@Shows om cap) (scanBids t (t + 1)) (n, f)
      (Ladder.scanDown (fun u => (f.lvl .bid u).head ≠ HiPerf.NIL) t) (n, f) := by
  induction t with
  | zero =>
    rw [scanBids, Ladder.scanDown]
    apply (level_runs 0 ht).bind
    refine Runs.ite (fun h => ?_) fun h => ?_
    · rw [if_pos (mt (int_eq_nil (hheads 0)).mpr h)]
      exact Runs.pure _
    · rw [if_neg (mt (mt (int_eq_nil (hheads 0)).mp) h)]
      exact Runs.pure _
  | succ t ih =>
    rw [scanBids, Ladder.scanDown]
    apply (level_runs 0 ht).bind
    refine Runs.ite (fun h => ?_) fun h => ?_
    · rw [if_pos (mt (int_eq_nil (hheads (t + 1))).mpr h)]
      exact Runs.pure _
    · rw [if_neg (mt (mt (int_eq_nil (hheads (t + 1))).mp) h)]
      have hdown : ((t + 1 : Nat) : Int) - 1 = t := by omega
      rw [hdown]
      exact ih (by omega)

theorem scanAsks_runs (hheads : ∀ t, (f.lvl .ask t).head ≤ HiPerf.NIL) {k : Nat}
    (ht : t + k = f.grid.nLevels) :
    Runs (@Shows om cap) (scanAsks t k) (n, f)
      (Ladder.scanUp (fun u => (f.lvl .ask u).head ≠ HiPerf.NIL) t k) (n, f) := by
  induction k generalizing t with
  | zero => exact Runs.pure _
  | succ k ih =>
    rw [scanAsks, Ladder.scanUp]
    apply (level_runs 1 (show t < f.grid.nLevels by omega)).bind
    refine Runs.ite (fun h => ?_) fun h => ?_
    · rw [if_pos (mt (int_eq_nil (hheads t)).mpr h)]
      exact Runs.pure _
    · rw [if_neg (mt (mt (int_eq_nil (hheads t)).mp) h)]
      exact @ih (t + 1) (by omega)

theorem repairBest_runs (hheads : ∀ x t, (f.lvl x t).head ≤ HiPerf.NIL) (ht : t < f.grid.nLevels) :
    Runs (@Shows om cap) (repairBest side t) (n, f) () (n, f.repairBest (laneOf side) t) := by
  unfold repairBest
  apply Runs.get_bind
  intro b hb
  have hbid : b.bestBid = f.bestBid := hb.bestBid
  have hask : b.bestAsk = f.bestAsk := hb.bestAsk
  have hlevels : b.nLevels = f.grid.nLevels := hb.nLevels
  rw [hbid, hask, hlevels]
  refine Runs.ite (fun hside => ?_) fun hside => ?_
  · have hx : laneOf side = .bid := if_pos hside
    rw [hx, Flat.repairBest]
    refine Runs.ite (fun h => ?_) fun h => ?_
    · rw [if_pos (.inl h)]
      exact Runs.pure _
    apply (level_runs 0 ht).bind
    refine Runs.ite (fun h' => ?_) fun h' => ?_
    · rw [if_pos (.inr (mt (int_eq_nil (hheads .bid t)).mpr h'))]
      exact Runs.pure _
    · have hempty := mt (mt (int_eq_nil (hheads .bid t)).mp) h'
      rw [if_neg (not_or.mpr ⟨h, hempty⟩)]
      apply (scanBids_runs (hheads .bid) ht).bind
      exact Runs.modify fun b' hb' => hb'.setBestBid _
  · have hx : laneOf side = .ask := if_neg hside
    rw [hx, Flat.repairBest]
    refine Runs.ite (fun h => ?_) fun h => ?_
    · rw [if_pos (.inl h)]
      exact Runs.pure _
    apply (level_runs 1 ht).bind
    refine Runs.ite (fun h' => ?_) fun h' => ?_
    · rw [if_pos (.inr (mt (int_eq_nil (hheads .ask t)).mpr h'))]
      exact Runs.pure _
    · have hempty := mt (mt (int_eq_nil (hheads .ask t)).mp) h'
      have hrounds : ((f.grid.nLevels : Int) - t).toNat = f.grid.nLevels - t := by
        rw [← Int.ofNat_sub ht.le, Int.toNat_natCast]
      rw [if_neg (not_or.mpr ⟨h, hempty⟩), hrounds]
      apply (scanAsks_runs (hheads .ask) (Nat.add_sub_of_le ht.le)).bind
      exact Runs.modify fun b' hb' => hb'.setBestAsk _

/-- All that a removal of `slot` touches is below the mark and in the pool. -/
structure Removable (cap n : Nat) (f : Flat) (slot : Nat) : Prop where
  grid : f.grid.Ok
  slot_lt : slot < n ∧ slot < cap
  tick_lt : f.grid.tickOf (f.ord slot).price < f.grid.nLevels
  prev : Link cap n (f.prev slot)
  next : Link cap n (f.next slot)
  levels : ∀ x t, (f.lvl x t).Plain

theorem removable {q : Lane → Nat → List Nat} (hcap : cap ≤ 2147483647) (h : Rep f L q)
    (hmark : f.hwm ≤ cap) (hq : Queued q slot) : Removable cap f.hwm f slot := by
  have hlt : ∀ s, Queued q s → s < f.hwm ∧ s < cap := fun s hs =>
    ⟨h.queued_lt hs, Nat.lt_of_lt_of_le (h.queued_lt hs) hmark⟩
  exact {
    grid := h.grid_ok
    slot_lt := hlt slot hq
    tick_lt := h.tick_lt hq
    prev := link_of_lt hcap fun hne => hlt _ (h.prev_queued hq hne)
    next := link_of_lt hcap fun hne => hlt _ (h.next_queued hq hne)
    levels := HiPerf.Book.level_plain h }

theorem unlink_head (hn : f.next slot ≤ HiPerf.NIL) (h : ∀ x t, (f.lvl x t).head ≤ HiPerf.NIL)
    (x : Lane) (t : Nat) (rem : Int) (y : Lane) (u : Nat) :
    ((f.unlink slot x t rem).lvl y u).head ≤ HiPerf.NIL := by
  have hlvl : (f.unlink slot x t rem).lvl y u = if y = x ∧ u = t then
      unlinked (f.lvl x t) slot (f.next slot) (f.prev slot) rem else f.lvl y u := rfl
  rw [hlvl]
  split
  · rw [unlinked]
    split
    · exact hn
    · exact h x t
  · exact h y u

/-- What `cancel` and `fill` share, once the id is out of the map and the order marked. -/
theorem remove_runs (hcap : cap ≤ 2147483647) (h : Removable cap n f slot) (orderId : Int)
    {mark : HiPerf.Order → HiPerf.Order} (hm : Flat.Books mark) :
    Runs (@Shows om cap) (do
        unlink slot (f.ord slot).side (f.grid.tickOf (f.ord slot).price : Nat)
          (i64 ((f.ord slot).qty - (f.ord slot).filled))
        freeSlot slot
        repairBest (f.ord slot).side (f.grid.tickOf (f.ord slot).price : Nat))
      (n, f.marked orderId slot mark) () (n, f.remove orderId slot mark) := by
  have hp : (f.marked orderId slot mark).prev slot = f.prev slot := by
    rw [Flat.prev, marked_ord_self, (hm.links _).2]; rfl
  have hn : (f.marked orderId slot mark).next slot = f.next slot := by
    rw [Flat.next, marked_ord_self, (hm.links _).1]; rfl
  have hunlink := @unlink_runs om cap n (f.grid.tickOf (f.ord slot).price) (f.ord slot).side slot
    (f.marked orderId slot mark) _ hcap rfl h.slot_lt h.tick_lt (hp.symm ▸ h.prev)
    (hn.symm ▸ h.next) (h.levels _ _) (i64 ((f.ord slot).qty - (f.ord slot).filled))
  have hheads := unlink_head (f := f.marked orderId slot mark) (hn.symm ▸ h.next.le_nil)
    (fun x t => (h.levels x t).head) (laneOf (f.ord slot).side) (f.grid.tickOf (f.ord slot).price)
    (i64 ((f.ord slot).qty - (f.ord slot).filled))
  apply hunlink.bind
  exact (freeSlot_runs hcap h.slot_lt).bind (repairBest_runs hheads h.tick_lt)

theorem cancel_runs_of (hm : om.Lawful) (hcap : cap ≤ 2147483647) (hs : f.ids orderId = some slot)
    (h : Removable cap n f slot) :
    Runs (@Shows om cap) (cancel orderId) (n, f) () (n, f.remove orderId slot Flat.withdrawn) := by
  have hrest := @remove_runs om cap n slot f hcap h orderId _ books_withdrawn
  rw [HiPerf.Book.marked_withdrawn] at hrest
  unfold cancel
  apply (removeId_runs hm hs).bind
  apply (order_runs h.slot_lt.1).bind
  exact (tickOf_runs (by exact h.grid) (by exact h.tick_lt)).bind hrest

theorem fill_runs_of (hm : om.Lawful) (hcap : cap ≤ 2147483647) (hs : f.ids orderId = some slot)
    (h : Removable cap n f slot) :
    Runs (@Shows om cap) (fill orderId) (n, f) () (n, f.remove orderId slot Flat.completed) := by
  have hset := @setOrder_runs om cap n slot (f.setIds (f.ids.remove orderId)) h.slot_lt.1.le h.slot_lt.2
    (Flat.completed (f.ord slot))
  rw [Nat.max_eq_left h.slot_lt.1] at hset
  unfold fill
  apply (removeId_runs hm hs).bind
  apply (order_runs h.slot_lt.1).bind
  apply hset.bind
  apply (tickOf_runs (by exact h.grid) (by exact h.tick_lt)).bind
  exact remove_runs hcap h orderId books_completed

/-- Every call a store can carry out runs, and does the step. -/
theorem apply_runs (hm : om.Lawful) (hcap : cap ≤ 536870912) (h : f.Holds cap L) {op : Op}
    (hop : op.Ready cap f.grid L) :
    Runs (@Shows om cap) (apply op) (f.hwm, f) () ((f.step op).hwm, f.step op) := by
  have hroom := HiPerf.Book.room_of_holds (L := L) h
  have hint : cap ≤ 2147483647 := by omega
  obtain ⟨q, fl, hrep, hfl, hmark⟩ := h
  obtain ⟨hadm, hready⟩ := hop
  have hremove : ∀ orderId mark, orderId ∈ L.ids → ∃ slot, f.ids orderId = some slot ∧
      Removable cap f.hwm f slot ∧ (f.remove orderId slot mark).hwm = f.hwm := by
    intro orderId mark hid
    obtain ⟨slot, e, hq, rfl⟩ := hrep.ids_isSome hid
    exact ⟨slot, e, removable hint hrep hmark hq, remove_hwm f slot mark⟩
  cases op with
  | insert orderId price qty side =>
    obtain ⟨-, hne, -, htick, -, -, -⟩ := hadm
    have hlt := hroom hready.1
    have hcount := hfl.count
    have hnil : fl = [] → f.hwm < HiPerf.NIL := by
      rintro rfl
      simp only [List.length_nil] at hcount
      unfold HiPerf.NIL
      omega
    obtain ⟨hnew, -, hslot, -, -, -, hfresh⟩ := hfl.spare.alloc hrep.hwm_le hnil
    have hfree : f.freeHead ≠ HiPerf.NIL → f.freeHead < f.hwm ∧ f.freeHead < cap := by
      intro hne
      have hchain := hfl.chain
      cases fl with
      | nil => exact absurd hchain hne
      | cons a fl =>
        have ha := ((hfl.mem_iff a).mp List.mem_cons_self).1
        rw [hchain.1]
        exact ⟨ha, Nat.lt_of_lt_of_le ha hmark⟩
    have hcases : f.nextSlot ≤ f.hwm ∧ f.nextSlot < cap ∧
        max f.hwm (f.nextSlot + 1) = f.alloc.hwm := by
      cases fl with
      | nil =>
        have hhead : f.freeHead = HiPerf.NIL := hfl.chain
        have hfresh' := hfresh rfl
        have hroom' := hlt hhead
        rw [if_pos rfl] at hnew
        omega
      | cons a fl =>
        rw [if_neg (List.cons_ne_nil a fl)] at hnew
        omega
    have hbound : f.hwm ≤ f.alloc.hwm := by omega
    have htail : ∀ x t, Link cap f.alloc.hwm (f.lvl x t).tail := by
      intro x t
      apply link_of_lt hint
      intro ht
      have htail := hrep.tail_lt ht
      exact ⟨Nat.lt_of_lt_of_le htail hbound, Nat.lt_of_lt_of_le htail hmark⟩
    have hput : (putKey orderId L.ids).length ≤ 536870912 := by
      have hle := putKey_length_le orderId L.ids
      have hids : L.ids.length = L.length := List.length_map _
      have hroom' := hready.1
      omega
    exact insert_runs_of hm hint hrep.grid_ok htick hfree hlt hcases.1 hcases.2.1 hcases.2.2 htail
      (fun k hk => hrep.ids_mem hk) hput
  | update orderId n =>
    obtain ⟨slot, e, hq, -⟩ := hrep.ids_isSome hadm.1
    have hlt := hrep.queued_lt hq
    simp only [Flat.step, e]
    exact update_runs_of hrep.grid_ok e hlt (Nat.lt_of_lt_of_le hlt hmark) (hrep.tick_lt hq) n
  | cancel orderId =>
    obtain ⟨slot, e, hrem, hhwm⟩ := hremove orderId Flat.withdrawn hadm
    simp only [Flat.step, e]
    rw [hhwm]
    exact cancel_runs_of hm hint e hrem
  | fill orderId =>
    obtain ⟨slot, e, hrem, hhwm⟩ := hremove orderId Flat.completed hadm
    simp only [Flat.step, e]
    rw [hhwm]
    exact fill_runs_of hm hint e hrem

end Book

end HiPerf.Java
