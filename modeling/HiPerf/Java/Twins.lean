import HiPerf.Book.Invariant
import HiPerf.Java.Roots
import HiPerf.Snapshot.Reads
import HiPerf.Snapshot.RestoreCow

/-!
The two Java stores side by side, from new or from an image: over any calls they stop together,
and what one encodes at a capture the other encodes at any later time.
-/

namespace HiPerf.Java

open Machine Exec Epoch Decoder HashMaps

variable {lm : Long2LongHashMap} {om : Long2ObjectHashMap Int}

section Reads

variable {strict : Prop} {σ τ : Type} {I : σ → τ → Prop}

theorem getSide_lockstep (data : List UInt8) (i : Nat) :
    Lockstep strict I (Snapshot.getSide data i : Restoring σ Nat)
      (Snapshot.getSide data i : Restoring τ Nat) := by
  apply (read_lockstep _ data i 1).bind
  intro v
  refine Lockstep.ite Iff.rfl (fun _ => Lockstep.pure _) fun _ => ?_
  exact Lockstep.ite Iff.rfl (fun _ => Lockstep.pure _) fun _ => Lockstep.throw _ _

theorem getLevel_lockstep (data : List UInt8) (position : Nat) :
    Lockstep strict I (Snapshot.getLevel data position : Restoring σ (Nat × Int × Level))
      (Snapshot.getLevel data position : Restoring τ (Nat × Int × Level)) := by
  unfold Snapshot.getLevel
  refine (getSide_lockstep data _).bind fun _ => (read_lockstep _ data _ 4).bind fun _ => ?_
  refine (read_lockstep _ data _ 8).bind fun _ => (read_lockstep _ data _ 4).bind fun _ => ?_
  exact (read_lockstep _ data _ 4).bind fun _ => (read_lockstep _ data _ 4).bind fun _ =>
    Lockstep.pure _

theorem getOrder_lockstep (data : List UInt8) (position : Nat) :
    Lockstep strict I (Snapshot.getOrder data position : Restoring σ (Int × Cell))
      (Snapshot.getOrder data position : Restoring τ (Int × Cell)) := by
  unfold Snapshot.getOrder
  refine (read_lockstep _ data _ 4).bind fun _ => (read_lockstep _ data _ 8).bind fun _ => ?_
  refine (read_lockstep _ data _ 8).bind fun _ => (read_lockstep _ data _ 8).bind fun _ => ?_
  refine (read_lockstep _ data _ 8).bind fun _ => (getSide_lockstep data _).bind fun _ => ?_
  exact (read_lockstep _ data _ 4).bind fun _ => (read_lockstep _ data _ 4).bind fun _ =>
    Lockstep.pure _

theorem readLevels_lockstep {x : Nat → Int → Level → Run σ Unit}
    {y : Nat → Int → Level → Run τ Unit}
    (h : ∀ side t lvl, Lockstep strict I (x side t lvl) (y side t lvl)) (data : List UInt8)
    (blockLength n position : Nat) :
    Lockstep strict I (Snapshot.readLevels x data blockLength n position)
      (Snapshot.readLevels y data blockLength n position) := by
  induction n generalizing position with
  | zero => exact Lockstep.pure _
  | succ n ih =>
    apply (getLevel_lockstep data position).bind
    intro ⟨side, t, lvl⟩
    exact (lift_lockstep (h side t lvl)).bind fun _ => ih _

theorem readOrders_lockstep {x : Int → Cell → Run σ Unit} {y : Int → Cell → Run τ Unit}
    (h : ∀ slot c, Lockstep strict I (x slot c) (y slot c)) (data : List UInt8)
    (blockLength n position : Nat) :
    Lockstep strict I (Snapshot.readOrders x data blockLength n position)
      (Snapshot.readOrders y data blockLength n position) := by
  induction n generalizing position with
  | zero => exact Lockstep.pure _
  | succ n ih =>
    apply (getOrder_lockstep data position).bind
    intro ⟨slot, c⟩
    exact (lift_lockstep (h slot c)).bind fun _ => ih _

theorem wrapGroup_lockstep (data : List UInt8) (position : Nat) :
    Lockstep strict I (Snapshot.wrapGroup data position : Restoring σ _)
      (Snapshot.wrapGroup data position : Restoring τ _) :=
  (read_lockstep _ data _ 2).bind fun _ => (read_lockstep _ data _ 2).bind fun _ => Lockstep.pure _

end Reads

/-- Every chunk is of the first generation. -/
def Fresh {α : Type} (p : Pages α) : Prop := ∀ (a : Nat) c, p.heap[a]? = some c → c.born = 1

theorem newChunks_fresh {α : Type} (size total n : Nat) (v : α) :
    Fresh (newChunks size total n v) := by
  intro a c hc
  obtain ⟨ci, -, rfl⟩ := Array.mem_map.mp (Array.mem_of_getElem? hc)
  rfl

theorem Fresh.setItem {α : Type} {p : Pages α} (h : Fresh p) (a k : Nat) (v : α) :
    Fresh (p.setItem a k v) := by
  intro b c hc
  simp only [Pages.setItem, Array.getElem?_modify] at hc
  split at hc
  · obtain ⟨d, hd, rfl⟩ := Option.map_eq_some_iff.mp hc
    exact h b d hd
  · exact h b c hc

/-- A new chunk is written without a copy. -/
theorem Fresh.pins {α : Type} {p : Pages α} {size i : Nat} {v : α} (h : Fresh p)
    (hget : p.get size i = some v) :
    ∃ a, p.table[i / size]? = some a ∧ Pages.Pins 1 (i / size) a p := by
  simp only [Pages.get, Epoch.get, Option.bind_eq_some_iff] at hget
  obtain ⟨a, ha, c, hc, -⟩ := hget
  exact ⟨a, ha, ha, c, hc, Nat.le_of_eq (h a c hc).symm⟩

/-- An order that is to be indexed knows its slot. -/
def Book.Indexable (b : Book om) : Prop :=
  ∀ slot o, nth b.pool slot = some o → o.orderId ≠ 0 → o.slot = slot

/-- What the id map can have once it was built anew. -/
def Book.orderIds (b : Book om) : List Int := b.pool.toList.map Order.orderId

theorem Book.orderIds_length (b : Book om) : b.orderIds.length = b.pool.size := by
  rw [Book.orderIds, List.length_map, Array.length_toList]

theorem Book.orderId_mem {b : Book om} {slot : Int} {o : Order} (h : nth b.pool slot = some o) :
    o.orderId ∈ b.orderIds := by
  obtain ⟨n, -, hn⟩ := nth_eq_some h
  exact List.mem_map_of_mem (Array.mem_toList_iff.mpr (Array.mem_of_getElem? hn))

namespace CowBook

/-- Books that are being restored. -/
structure Restored (rows : Nat) (w : CowBook lm) (b : Book om) : Prop where
  mirrors : Mirrors rows [] .nothing w b
  size : b.pool.size ≤ 268435456
  gen : w.gen = 1
  orders : Fresh w.orders
  bids : Fresh w.bids
  asks : Fresh w.asks
  indexable : b.Indexable

variable {strict : Prop} {rows : Nat} {K : Knowledge lm om} {w : CowBook lm} {b : Book om}
  {cfg : SmrConfig}

theorem putOrder_tracks (slot : Int) (c : Cell) : Lockstep strict (@Restored lm om rows)
    (CowSnapshot.putOrder slot c) (Snapshot.putOrder slot c) := by
  apply Lockstep.of_cases
  intro w b h
  have hm := h.mirrors
  unfold CowSnapshot.putOrder Snapshot.putOrder orderChunkForRead
  simp only [bind_assoc, get_bind]
  cases ho : nth b.pool slot with
  | none =>
    right
    have hbook : ∀ o, Book.setOrder slot o b = .error .indexOutOfBounds b := fun o => by
      simp only [Book.setOrder, ho]
    cases ht : nth w.orders.table (slot.tdiv w.chunk) with
    | none => exact ⟨_, _, _, _, rfl, hbook _⟩
    | some a =>
      have hnone := entry_none ht (hm.get_none ho)
      refine ⟨.indexOutOfBounds, w, _, _, ?_, hbook _⟩
      simp only [pure_bind, offset, bind_assoc, get_bind, setCell, hnone]
  | some o =>
    obtain ⟨n, rfl, hn⟩ := nth_eq_some ho
    have hget : w.orders.get w.chunk n = some o.cell := (hm.order n).trans (by rw [hn]; rfl)
    have hsome : (w.orders.get w.chunk n).isSome := by rw [hget]; rfl
    obtain ⟨a, ht, hpins⟩ := h.orders.pins hget
    have hone : w.gen.toNat = 1 := by rw [h.gen]; rfl
    rw [← hone] at hpins
    have hitem := hpins.item.trans hget
    left
    have hbook : ∀ o', Book.setOrder n o' b =
        .ok () { b with pool := b.pool.setIfInBounds n o' } := fun o' => by
      simp only [Book.setOrder, ho, Int.toNat_natCast]
    refine ⟨(), { w with orders := w.orders.setItem a (n % w.chunk) c }, _, ?_, hbook _, ?_⟩
    · simp only [← Int.ofNat_tdiv, nth_ofNat, ht, pure_bind, offset, bind_assoc, get_bind, setCell,
        ← Int.ofNat_tmod, entry_ofNat, hitem, Int.toNat_natCast]
    · have hm' := @Mirrors.setOrder lm om [] rows n _ w b o
        ⟨c.orderId, c.price, c.qty, c.filled, c.next, c.prev, n, c.side⟩ hm hn (.inr rfl) _
        (hpins.setItem hm.orders c) fun j => hpins.setItem_get hm.orders hsome c j
      refine ⟨hm', Array.size_setIfInBounds.trans_le h.size, h.gen, h.orders.setItem _ _ _, h.bids,
        h.asks, ?_⟩
      intro i o' ho' hne
      obtain ⟨j, rfl, hj⟩ := nth_eq_some ho'
      rw [Array.getElem?_setIfInBounds] at hj
      split at hj
      · rename_i e
        split at hj
        · cases hj
          rw [e]
        · cases hj
      · exact h.indexable j o' (by rw [nth_ofNat]; exact hj) hne

theorem putLevel_tracks (side : Nat) (i : Int) (l : Level) : Lockstep strict (@Restored lm om rows)
    (CowSnapshot.putLevel side i l) (Book.setLevel side i l) := by
  apply Lockstep.of_cases
  intro w b h
  have hm := h.mirrors
  unfold CowSnapshot.putLevel lvlChunkForRead
  simp only [bind_assoc, get_bind]
  cases hl : nth (b.lane side) i with
  | none =>
    right
    have hbook : Book.setLevel side i l b = .error .indexOutOfBounds b := by
      simp only [Book.setLevel, hl]
    cases ht : nth (w.lane side).table (i.tdiv LEVEL_CHUNK) with
    | none => exact ⟨_, _, _, _, rfl, hbook⟩
    | some a =>
      have hnone := entry_none ht (hm.lane_none hl)
      refine ⟨.indexOutOfBounds, w, _, _, ?_, hbook⟩
      simp only [pure_bind, setLvl, hnone]
  | some l₀ =>
    obtain ⟨n, rfl, hn⟩ := nth_eq_some hl
    have hget := (hm.level side n).trans hn
    have hsome : ((w.lane side).get LEVEL_CHUNK n).isSome := by rw [hget]; rfl
    have hfresh : Fresh (w.lane side) := by
      unfold CowBook.lane
      split
      · exact h.bids
      · exact h.asks
    obtain ⟨a, ht, hpins⟩ := hfresh.pins hget
    have hone : w.gen.toNat = 1 := by rw [h.gen]; rfl
    rw [← hone] at hpins
    have hitem := hpins.item.trans hget
    have hbook : Book.setLevel side n l b =
        .ok () (setRows b side ((b.lane side).setIfInBounds n l)) := by
      simp only [Book.setLevel, hl, Int.toNat_natCast]
      by_cases hs : side = 0
      · simp only [setRows, Book.lane, hs, if_true]
      · simp only [setRows, Book.lane, hs, if_false]
    left
    refine ⟨(), w.setLane side ((w.lane side).setItem a (n % LEVEL_CHUNK) l), _, ?_, hbook, ?_⟩
    · simp only [← Int.ofNat_tdiv, nth_ofNat, ht, pure_bind, setLvl, ← Int.ofNat_tmod, entry_ofNat,
        hitem, Int.toNat_natCast]
    · have hshows : ∀ u, ((w.lane side).setItem a (n % LEVEL_CHUNK) l).get LEVEL_CHUNK u =
          ((b.lane side).setIfInBounds n l)[u]? := by
        intro u
        rw [hpins.setItem_get (hm.sound side) hsome l u, Array.getElem?_setIfInBounds,
          hm.level side u]
        by_cases e : u = n
        · rw [if_pos e, if_pos e.symm, if_pos (Array.getElem?_eq_some_iff.mp hn).1]
        · rw [if_neg e, if_neg (Ne.symm e)]
      have hm' := hm.setLane (hpins.setItem (hm.sound side) l) Array.size_setIfInBounds hshows
      have hset := hfresh.setItem a (n % LEVEL_CHUNK) l
      have hindexable : (setRows b side ((b.lane side).setIfInBounds n l)).Indexable := by
        unfold setRows
        split
        · exact h.indexable
        · exact h.indexable
      have hsize : (setRows b side ((b.lane side).setIfInBounds n l)).pool.size ≤ 268435456 := by
        unfold setRows
        split
        · exact h.size
        · exact h.size
      refine ⟨hm', hsize, (setLane_gen _ _ _).trans h.gen, ?_, ?_, ?_, hindexable⟩
      all_goals
        unfold CowBook.setLane
        unfold CowBook.lane at hset ⊢
        split
        all_goals rename_i hs
        all_goals simp only [hs, if_true, if_false] at hset ⊢
      · exact h.orders
      · exact h.orders
      · exact hset
      · exact h.bids
      · exact h.asks
      · exact hset

/-- No more ids are put than there are orders in the pool. -/
theorem indexSlots_tracks (hl : lm.Lawful) (ho : om.Lawful) (slot : Int) (n : Nat) :
    Lockstep strict (fun w b =>
        Mirrors rows b.orderIds K w b ∧ b.Indexable ∧ b.pool.size ≤ 268435456)
      (indexSlots slot n) (Book.indexSlots slot n) := by
  induction n generalizing slot with
  | zero => exact Lockstep.pure _
  | succ n ih =>
    rintro w b ⟨hm, hindex, hsize⟩
    unfold indexSlots Book.indexSlots
    cases hread : nth b.pool slot with
    | none =>
      obtain ⟨q, e⟩ := order_stops hm hread
      rw [bind_error e, bind_error (bookOrder_stops hread)]
      exact both_stop rfl rfl
    | some o =>
      rw [bind_ok (order_ok hm hread), bind_ok (bookOrder_ok hread)]
      by_cases hne : o.orderId ≠ 0
      · rw [if_pos hne, if_pos (show o.cell.orderId ≠ 0 from hne)]
        have hmem := Book.orderId_mem hread
        have hput : (putKey o.orderId b.orderIds).length ≤ 268435456 :=
          (putKey_length_of_mem hmem).trans (b.orderIds_length.trans_le hsize)
        obtain ⟨t, u, et, eu, hm'⟩ := hm.putId hl ho hput ⟨o, hread, hindex slot o hread hne⟩
        have hnamed : ∀ k, om.get u k ≠ none → k ∈ b.orderIds := by
          intro k hk
          obtain rfl | hk := mem_putKey.mp (hm'.ids.within k hk)
          · exact hmem
          · exact hk
        rw [bind_ok (show putId o.cell.orderId slot w = .ok () _ from et), bind_ok eu]
        exact ih (slot + 1) _ _ ⟨hm'.rename hnamed, hindex, hsize⟩
      · rw [if_neg hne, if_neg (show ¬ o.cell.orderId ≠ 0 from hne)]
        exact ih (slot + 1) w b ⟨hm, hindex, hsize⟩

theorem rebuildIds_tracks (hl : lm.Lawful) (ho : om.Lawful) :
    Meets strict (@Restored lm om rows) (fun w b => ∃ keys, Mirrors rows keys (genIs 1) w b)
      rebuildIds Book.rebuildIds := by
  intro w b h
  have hm : Mirrors rows b.orderIds (genIs 1) { w with ids := lm.clear w.ids }
      { b with ids := om.clear b.ids } := { h.mirrors with
    ids := .clear hl ho
    missing := (hl.clear_missing w.ids).trans h.mirrors.missing
    slot := by
      intro k i hk
      rw [ho.clear_get] at hk
      cases hk
    known := h.gen }
  have hloop := @indexSlots_tracks lm om strict rows (genIs 1) hl ho 0 b.hwm.toNat
    { w with ids := lm.clear w.ids } { b with ids := om.clear b.ids } ⟨hm, h.indexable, h.size⟩
  have hcow : rebuildIds w = indexSlots 0 b.hwm.toNat { w with ids := lm.clear w.ids } := by
    rw [← h.mirrors.hwm]
    rfl
  have hbook : Book.rebuildIds b =
      Book.indexSlots 0 b.hwm.toNat { b with ids := om.clear b.ids } := rfl
  rw [hcow, hbook]
  refine ⟨fun a s' e => ?_, fun hs a t' e => ?_⟩
  · obtain ⟨t', e', h', -⟩ := hloop.1 a s' e
    exact ⟨t', e', _, h'⟩
  · obtain ⟨s', e', h', -⟩ := hloop.2 hs a t' e
    exact ⟨s', e', _, h'⟩

/-- What the loops of a restore read goes to both books. -/
theorem groups_tracks (hl : lm.Lawful) (ho : om.Lawful) (data : List UInt8) (position : Nat) :
    Meets strict (@Restored lm om rows) (fun w b => ∃ keys, Mirrors rows keys (genIs 1) w b)
      (Snapshot.groups CowSnapshot.putLevel CowSnapshot.putOrder rebuildIds data position)
      (Snapshot.groups Book.setLevel Snapshot.putOrder Book.rebuildIds data position) := by
  unfold Snapshot.groups
  apply Meets.bind (wrapGroup_lockstep data position)
  intro g
  apply Meets.bind (readLevels_lockstep putLevel_tracks data g.1 g.2.1 g.2.2)
  intro position
  apply Meets.bind (wrapGroup_lockstep data position)
  intro g
  apply Meets.bind (readOrders_lockstep putOrder_tracks data g.1 g.2.1 g.2.2)
  intro _
  exact lift_meets (rebuildIds_tracks hl ho)

theorem message_tracks (hl : lm.Lawful) (ho : om.Lawful) (data : List UInt8) (position : Nat) :
    Meets strict (@Restored lm om cfg.levels)
      (fun w b => ∃ keys, Mirrors cfg.levels keys (genIs 1) w b)
      (CowSnapshot.message data position cfg) (Snapshot.message data position cfg) := by
  unfold CowSnapshot.message Snapshot.message
  apply Meets.bind (read_lockstep _ data _ 4)
  intro hwm
  apply Meets.bind (read_lockstep _ data _ 4)
  intro bestBid
  apply Meets.bind (read_lockstep _ data _ 4)
  intro bestAsk
  have hset : Lockstep strict (@Restored lm om cfg.levels)
      (modify fun w => { w with hwm, bestBid, bestAsk } : Restoring (CowBook lm) Unit)
      (modify fun b => { b with hwm, bestBid, bestAsk }) := by
    apply Lockstep.modify
    intro w b h
    have hm := h.mirrors
    exact { h with mirrors := { hm with
      hwm := rfl, bestBid := rfl, bestAsk := rfl, known := hm.same rfl rfl rfl rfl rfl rfl } }
  apply Meets.bind hset
  intro _
  apply Meets.bind (read_lockstep _ data _ 4)
  intro capacity
  apply Meets.ite Iff.rfl (fun _ => Meets.throw_bind _ _ _ _)
  intro _
  apply Meets.bind (read_lockstep _ data _ 4)
  intro nLevels
  apply Meets.ite Iff.rfl (fun _ => Meets.throw_bind _ _ _ _)
  intro hlevels
  apply Meets.bind (read_lockstep _ data _ 4)
  intro freeHead
  have hnLevels : nLevels = cfg.levels := not_not.mp hlevels
  have hset' : Lockstep strict (@Restored lm om cfg.levels)
      (modify fun w => { w with freeHead } : Restoring (CowBook lm) Unit)
      (modify fun b => { b with nLevels, freeHead }) := by
    apply Lockstep.modify
    intro w b h
    have hm := h.mirrors
    have hsame : w.nLevels = nLevels := by rw [hm.nLevels, hm.levels, hnLevels]
    exact { h with mirrors := { hm with
      nLevels := hsame, levels := hnLevels, freeHead := rfl
      known := hm.same rfl rfl rfl rfl rfl rfl } }
  apply Meets.bind hset'
  intro _
  exact groups_tracks hl ho data position

theorem chunks_eq {size total : Nat} (h : total + size ≤ 2147483648) (hsize : 0 < size) :
    (i32 (i32 (total + size) - 1)).tdiv size = ((total + size - 1) / size : Nat) := by
  have hwrap : i32 (i32 (total + size) - 1) = ((total + size - 1 : Nat) : Int) := by
    unfold i32
    omega
  rw [hwrap, ← Int.ofNat_tdiv]

theorem newChunks_full {α : Type} (size total : Nat) (v : α) :
    newChunks size total ((total + size - 1) / size) v = Pages.full size total v := by
  rw [newChunks, Pages.full, Epoch.fill_size]
  rfl

theorem emptyBook_indexable (cfg : SmrConfig) (ids : om.Map) : (emptyBook cfg ids).Indexable := by
  intro slot o ho hid
  obtain ⟨n, -, hn⟩ := nth_eq_some ho
  have hzero : o = zeroOrder := Array.eq_of_mem_replicate (Array.mem_of_getElem? hn)
  subst hzero
  exact absurd rfl hid

/-- A new book of chunks and a new flat book show the same. -/
theorem newBooks_restored (hl : lm.Lawful) (ho : om.Lawful) (hchunk : 1 ≤ cfg.chunk)
    (hcap : cfg.cap ≤ 268435456) (hchunks : cfg.cap + cfg.chunk ≤ 2147483648)
    (hlevels : cfg.levels + LEVEL_CHUNK ≤ 2147483648) :
    ∃ (w : CowBook lm) (b : Book om), newCowBook lm cfg = .ok w ∧ newBook om cfg = .ok b ∧
      Restored cfg.levels w b := by
  obtain ⟨ids, e, hnone⟩ := newBook_ok ho (show cfg.cap ≤ 536870912 by omega)
  have hne : ¬ cfg.chunk = 0 := Nat.ne_of_gt hchunk
  have hlevel : 0 < LEVEL_CHUNK := by decide
  have hlane : ∀ t, (Pages.full LEVEL_CHUNK cfg.levels newLevel).get LEVEL_CHUNK t =
      (Array.replicate cfg.levels newLevel)[t]? := by
    intro t
    rw [Pages.full_get hlevel, Array.getElem?_replicate]
  have hfresh : ∀ {α : Type} (size total : Nat) (v : α), Fresh (Pages.full size total v) := by
    intro α size total v
    rw [← newChunks_full]
    exact newChunks_fresh _ _ _ _
  refine ⟨{
    priceMin := cfg.priceMin, tick := cfg.tick, nLevels := cfg.levels
    chunk := cfg.chunk, capacity := cfg.cap, gen := 1
    orders := Pages.full cfg.chunk cfg.cap zeroCell
    bids := Pages.full LEVEL_CHUNK cfg.levels newLevel
    asks := Pages.full LEVEL_CHUNK cfg.levels newLevel
    hwm := 0, bestBid := -1, bestAsk := -1, freeHead := NIL, ids := lm.new NIL },
    emptyBook cfg ids, ?_, e, ?_⟩
  · unfold newCowBook
    rw [if_neg hne]
    simp only [chunks_eq hchunks hchunk, chunks_eq hlevels hlevel, Int.toNat_natCast, newChunks_full]
    rw [if_neg (not_or.mpr ⟨Int.not_lt.mpr (Int.natCast_nonneg _),
      Int.not_lt.mpr (Int.natCast_nonneg _)⟩)]
    rfl
  constructor
  case gen => rfl
  case orders => exact hfresh _ _ _
  case bids => exact hfresh _ _ _
  case asks => exact hfresh _ _ _
  case indexable => exact emptyBook_indexable cfg ids
  case size => exact Array.size_replicate.trans_le hcap
  constructor
  case ids => exact .new hl NIL hnone
  case missing => exact hl.new_missing NIL
  case pool => exact Array.size_replicate.trans_le (by omega)
  case slot =>
    intro k i hk
    rw [show om.get (emptyBook cfg ids).ids k = none from hnone k] at hk
    cases hk
  case order =>
    intro s
    have hpool : (emptyBook cfg ids).pool[s]? = if s < cfg.cap then some zeroOrder else none :=
      Array.getElem?_replicate
    rw [hpool]
    refine (Pages.full_get hchunk cfg.cap zeroCell s).trans ?_
    split
    · rfl
    · rfl
  case level =>
    intro side t
    unfold lane Book.lane
    split
    · exact hlane t
    · exact hlane t
  case size =>
    intro side
    unfold Book.lane
    split
    · exact Array.size_replicate
    · exact Array.size_replicate
  case capacity => exact congrArg Nat.cast Array.size_replicate.symm
  case chunk => exact hchunk
  case gen => exact Int.le_refl 1
  case orders => exact Pages.full_sound _ _ _
  case bids => exact Pages.full_sound _ _ _
  case asks => exact Pages.full_sound _ _ _
  case known => trivial
  all_goals rfl

end CowBook

/-- Both writers complete the calls, and at the end every root, and the one of the end itself,
is encoded as the flat book was at that capture; or both stop. -/
def ServeAlike (calls : List CowCall) (w : CowBook lm) (b : Book om) : Prop :=
  (∃ rs w' bs b', CowBook.serve calls w = .ok rs w' ∧ Book.serve calls b = .ok bs b' ∧
    List.Forall₂ (fun r b => ∀ crc32c buf, r.encode crc32c w' buf = Book.encode crc32c b buf)
      (rs ++ [w'.root]) (bs ++ [b'])) ∨
  ∃ p w' q b', CowBook.serve calls w = .error p w' ∧ Book.serve calls b = .error q b'

namespace CowBook

variable {rows : Nat} {w : CowBook lm} {b : Book om} {cfg : SmrConfig}

theorem Mirrors.serveAlike {keys : List Int} (h : Mirrors rows keys (genIs 1) w b)
    (hl : lm.Lawful) (ho : om.Lawful) {calls : List CowCall} (hfit : IdsFit keys calls)
    (hcalls : CowCall.captures calls < 9223372036854775807) : ServeAlike calls w b := by
  have hgen : w.gen = 1 := h.known
  have hencode : ∀ {w : CowBook lm} {r : CowRoot} {b : Book om}, Captured rows w r b →
      ∀ crc32c buf, r.encode crc32c w buf = Book.encode crc32c b buf := by
    rintro w r b ⟨hshows, hrows, hlevels⟩
    apply CowRoot.encode_eq hshows
    intro side
    rw [hrows, hlevels, Int.toNat_natCast]
  obtain ⟨rs, w', bs, b', _, ew, eb, hm, hall⟩ | ⟨p, w', q, b', ew, eb⟩ :=
    serve_tracks hl ho calls hfit nothing_lasting (h.knowing trivial) (by omega)
  · refine .inl ⟨rs, w', bs, b', ew, eb, ?_⟩
    exact List.rel_append (hall.imp fun _ _ => hencode) (.cons (hencode hm.captured) .nil)
  · exact .inr ⟨p, w', q, b', ew, eb⟩

/-- Any image is restored by both stores, or refused by both. -/
theorem restore_tracks (hl : lm.Lawful) (ho : om.Lawful) (hchunk : 1 ≤ cfg.chunk)
    (hcap : cfg.cap ≤ 268435456) (hchunks : cfg.cap + cfg.chunk ≤ 2147483648)
    (hlevels : cfg.levels + LEVEL_CHUNK ≤ 2147483648) (crc32c : List UInt8 → UInt32)
    (data : List UInt8) :
    (∃ b w keys, Snapshot.restore om crc32c data cfg = .ok b ∧
      CowSnapshot.restore lm crc32c data cfg = .ok w ∧ Mirrors cfg.levels keys (genIs 1) w b) ∨
    ∃ e e', Snapshot.restore om crc32c data cfg = .error e ∧
      CowSnapshot.restore lm crc32c data cfg = .error e' := by
  obtain ⟨w₀, b₀, ew₀, eb₀, h₀⟩ := newBooks_restored hl ho hchunk hcap hchunks hlevels
  unfold Snapshot.restore CowSnapshot.restore
  cases Snapshot.decodeHeader crc32c data with
  | error e => exact .inr ⟨e, e, rfl, rfl⟩
  | ok position =>
    have hmessage := @message_tracks lm om True cfg hl ho data position
    simp only [ew₀, eb₀]
    dsimp only [bind, Except.bind]
    obtain ⟨_, w, b, ew, eb, keys, h⟩ | ⟨e', w, e, b, ew, eb⟩ :=
      Meets.cases hmessage True.intro h₀
    · left
      exact ⟨b, w, keys, by rw [eb]; rfl, by rw [ew]; rfl, h⟩
    · right
      exact ⟨e, e', by rw [eb]; rfl, by rw [ew]; rfl⟩

end CowBook

/-- The copy-on-write store of Java against its flat store, over any calls from new, and from
whatever image they restore, as long as the ids have room in the maps. -/
theorem stores_match {cfg : SmrConfig} (hl : lm.Lawful) (ho : om.Lawful) (hchunk : 1 ≤ cfg.chunk)
    (hcap : cfg.cap ≤ 268435456) (hchunks : cfg.cap + cfg.chunk ≤ 2147483648)
    (hlevels : cfg.levels + LEVEL_CHUNK ≤ 2147483648) (crc32c : List UInt8 → UInt32) :
    (∃ w b, newCowBook lm cfg = .ok w ∧ newBook om cfg = .ok b ∧
      ∀ calls, CowBook.IdsFit [] calls → CowCall.captures calls < 9223372036854775807 →
        ServeAlike calls w b) ∧
    ∀ data,
      (∃ b w, Snapshot.restore om crc32c data cfg = .ok b ∧
        CowSnapshot.restore lm crc32c data cfg = .ok w ∧
        ∀ keys calls, (∀ k, om.get b.ids k ≠ none → k ∈ keys) → CowBook.IdsFit keys calls →
          CowCall.captures calls < 9223372036854775807 → ServeAlike calls w b) ∨
      ∃ e e', Snapshot.restore om crc32c data cfg = .error e ∧
        CowSnapshot.restore lm crc32c data cfg = .error e' := by
  constructor
  · obtain ⟨w, b, ew, eb, h⟩ := CowBook.newBooks_restored hl ho hchunk hcap hchunks hlevels
    have hm : CowBook.Mirrors cfg.levels [] (CowBook.genIs 1) w b := h.mirrors.knowing h.gen
    exact ⟨w, b, ew, eb, fun calls hfit hcalls => hm.serveAlike hl ho hfit hcalls⟩
  intro data
  obtain ⟨b, w, keys, eb, ew, h⟩ | herr :=
    CowBook.restore_tracks hl ho hchunk hcap hchunks hlevels crc32c data
  · left
    refine ⟨b, w, eb, ew, fun keys calls hkeys hfit hcalls => ?_⟩
    exact (h.rename hkeys).serveAlike hl ho hfit hcalls
  · exact .inr herr

theorem stores_match_smallBook :
    (∃ w b, newCowBook referenceLongs smallBook = .ok w ∧
      newBook (referenceObjects Int) smallBook = .ok b ∧
      ∀ calls, CowBook.IdsFit [] calls → CowCall.captures calls < 9223372036854775807 →
        ServeAlike calls w b) ∧
    ∀ data,
      (∃ b w, Snapshot.restore (referenceObjects Int) Bytes.crc32c data smallBook = .ok b ∧
        CowSnapshot.restore referenceLongs Bytes.crc32c data smallBook = .ok w ∧
        ∀ keys calls, (∀ k, (referenceObjects Int).get b.ids k ≠ none → k ∈ keys) →
          CowBook.IdsFit keys calls → CowCall.captures calls < 9223372036854775807 →
          ServeAlike calls w b) ∨
      ∃ e e', Snapshot.restore (referenceObjects Int) Bytes.crc32c data smallBook = .error e ∧
        CowSnapshot.restore referenceLongs Bytes.crc32c data smallBook = .error e' :=
  stores_match referenceLongs_lawful (referenceObjects_lawful Int) (by decide) (by decide)
    (by decide) (by decide) Bytes.crc32c

end HiPerf.Java
