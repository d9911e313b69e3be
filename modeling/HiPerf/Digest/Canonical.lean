import HiPerf.Digest.Ledger
import HiPerf.Snapshot.Restart

/-!
A digest says what a caller can know of a book and nothing else: two books have
one digest exactly if they show the same bests, the same queues of order ids
with the same aggregates, and the same resting orders.
-/

namespace HiPerf

open Machine Exec Bytes Fifo

/-- What the fields of a level hold. -/
structure LevelView.Good (l : LevelView) : Prop where
  side : l.side < 256
  tick : l.tick < 4294967296
  qtyTotal : InI64 l.qtyTotal
  count : l.count < 4294967296
  length : l.ids.length = l.count
  ids : ∀ i ∈ l.ids, InI64 i

structure Resting.Good (r : Resting) : Prop where
  orderId : InI64 r.orderId
  price : InI64 r.price
  qty : InI64 r.qty
  filled : InI64 r.filled
  side : r.side < 256

namespace Digest

theorem u64_inj {x y : Int} (hx : InI64 x) (hy : InI64 y) (e : u64 x = u64 y) : x = y := by
  rw [← i64_u64 hx, ← i64_u64 hy, e]

theorem u64_fits (x : Int) : Field.Fits (8, u64 x) := u64_lt x

/-- The ids of a level, as fields. -/
theorem ids_inj {l l' : List Int} (hl : ∀ i ∈ l, InI64 i) (hl' : ∀ i ∈ l', InI64 i)
    (e : (l.map fun i => ((8, u64 i) : Field)) = l'.map fun i => (8, u64 i)) : l = l' := by
  have back : ∀ l : List Int, (∀ i ∈ l, InI64 i) →
      (l.map fun i => ((8, u64 i) : Field)).map (fun f => i64 f.2) = l := by
    intro l hl
    rw [List.map_map]
    exact (List.map_congr_left fun i hi => i64_u64 (hl i hi)).trans (List.map_id l)
  rw [← back l hl, e, back l' hl']

theorem level_readable : Readable LevelView.Good fun l => bytes l.fields := by
  intro a b x y ha hb e
  simp only [LevelView.fields, bytes_append, List.append_assoc] at e
  have hfits : ∀ l : LevelView, l.Good →
      ∀ f ∈ putLevel l.side l.tick l.qtyTotal l.count, f.Fits := by
    intro l hl f hf
    simp only [putLevel, List.mem_cons, List.not_mem_nil, or_false] at hf
    rcases hf with rfl | rfl | rfl | rfl
    · exact hl.side
    · exact hl.tick
    · exact u64_fits _
    · exact hl.count
  obtain ⟨ehead, e⟩ := @bytes_inj (putLevel a.side a.tick a.qtyTotal a.count)
    (putLevel b.side b.tick b.qtyTotal b.count) _ _ rfl (hfits a ha) (hfits b hb) e
  simp only [putLevel, List.cons.injEq, Prod.mk.injEq, true_and, and_true] at ehead
  obtain ⟨hside, htick, hqty, hcount⟩ := ehead
  have hwidths : ∀ l : List Int, ((l.map fun i => ((8, u64 i) : Field)).map Prod.fst) =
      List.replicate l.length 8 := by
    intro l
    rw [List.map_map]
    exact List.map_const
  have hids : ∀ (l : List Int), ∀ f ∈ l.map (fun i => ((8, u64 i) : Field)), Field.Fits f := by
    intro l f hf
    obtain ⟨i, -, rfl⟩ := List.mem_map.mp hf
    exact u64_fits i
  obtain ⟨eids, exy⟩ := bytes_inj
    (by rw [hwidths, hwidths, ha.length, hb.length, hcount]) (hids _) (hids _) e
  have hq := u64_inj ha.qtyTotal hb.qtyTotal hqty
  have hi := ids_inj ha.ids hb.ids eids
  refine ⟨?_, exy⟩
  obtain ⟨_, _, _, _, _⟩ := a
  obtain ⟨_, _, _, _, _⟩ := b
  subst hside htick hq hcount hi
  rfl

theorem order_readable : Readable Resting.Good fun r => bytes (putOrder r) := by
  intro a b x y ha hb e
  have hfits : ∀ r : Resting, r.Good → ∀ f ∈ putOrder r, f.Fits := by
    intro r hr f hf
    simp only [putOrder, List.mem_cons, List.not_mem_nil, or_false] at hf
    rcases hf with rfl | rfl | rfl | rfl | rfl
    · exact u64_fits _
    · exact u64_fits _
    · exact u64_fits _
    · exact u64_fits _
    · exact hr.side
  obtain ⟨efields, exy⟩ := @bytes_inj (putOrder a) (putOrder b) _ _ rfl (hfits a ha) (hfits b hb) e
  simp only [putOrder, List.cons.injEq, Prod.mk.injEq, true_and, and_true] at efields
  obtain ⟨hid, hprice, hqty, hfilled, hside⟩ := efields
  have h₁ := u64_inj ha.orderId hb.orderId hid
  have h₂ := u64_inj ha.price hb.price hprice
  have h₃ := u64_inj ha.qty hb.qty hqty
  have h₄ := u64_inj ha.filled hb.filled hfilled
  refine ⟨?_, exy⟩
  obtain ⟨_, _, _, _, _⟩ := a
  obtain ⟨_, _, _, _, _⟩ := b
  subst h₁ h₂ h₃ h₄ hside
  rfl

end Digest

namespace Ledger

variable {g : Grid} {L L' : Ledger}

theorem Valid.good (hv : L.Valid g) {r : Resting} (hr : r ∈ L) : r.Good := by
  obtain ⟨hi, hp, hq⟩ := hv.i64 r hr
  have hlo := hv.filled_nonneg r hr
  have hhi := hv.filled_le r hr
  have hside := hv.side_le r hr
  refine ⟨hi, hp, hq, ?_, by omega⟩
  unfold InI64 at hq ⊢
  omega

theorem mem_laneViews {side t n : Nat} {l : LevelView} (h : l ∈ L.laneViews g side t n) :
    ∃ u, u < t + n ∧ l = L.levelView g side u := by
  induction n generalizing t with
  | zero => cases h
  | succ n ih =>
    rw [laneViews] at h
    split at h
    · obtain ⟨u, hu, e⟩ := ih h
      exact ⟨u, by omega, e⟩
    · cases h with
      | head => exact ⟨t, by omega, rfl⟩
      | tail _ h =>
        obtain ⟨u, hu, e⟩ := ih h
        exact ⟨u, by omega, e⟩

theorem Valid.level_good (hv : L.Valid g) (hg : g.Ok) (hlen : L.length < 4294967296)
    {l : LevelView} (h : l ∈ L.levelViews g) : l.Good := by
  have hview : ∃ side u, side ≤ 1 ∧ u < g.nLevels ∧ l = L.levelView g side u := by
    rcases List.mem_append.mp h with h | h
    · obtain ⟨u, hu, e⟩ := mem_laneViews h
      exact ⟨0, u, by omega, by omega, e⟩
    · obtain ⟨u, hu, e⟩ := mem_laneViews h
      exact ⟨1, u, by omega, by omega, e⟩
  obtain ⟨side, u, hside, hu, rfl⟩ := hview
  have hle := hg.levels_le
  have hqty := hv.qty_fits (laneOf side) u
  have hnonneg := levelQty_nonneg hv (laneOf side) u
  have hcount : (L.atLevel g (laneOf side) u).length ≤ L.length := List.length_filter_le _ _
  refine ⟨by change side < 256; omega, by change u < _; omega, ?_, ?_, ?_, ?_⟩
  · change InI64 (L.levelQty g (laneOf side) u)
    unfold InI64
    omega
  · change (L.atLevel g (laneOf side) u).length < _
    omega
  · exact List.length_map _
  · intro i hi
    obtain ⟨r, hr, rfl⟩ := List.mem_map.mp hi
    exact (hv.i64 r (List.mem_of_mem_filter hr)).1

theorem bytes_flatMap {α : Type} (l : List α) (fields : α → List Field) :
    bytes (l.flatMap fields) = l.flatMap fun a => bytes (fields a) := by
  simp only [bytes, List.flatMap_assoc]

theorem orders_width (l : List Resting) :
    (bytes (l.flatMap Digest.putOrder)).length = 33 * l.length := by
  induction l with
  | nil => rfl
  | cons r l ih =>
    rw [List.flatMap_cons, bytes_append, List.length_append, ih, bytes_length, List.length_cons]
    simp only [Digest.putOrder, width_cons, width_nil]
    omega

/-- The digest of a ledger says what it shows and nothing else. -/
theorem digest_inj (hg : g.Ok) (hv : L.Valid g) (hv' : L'.Valid g) (hlen : L.length < 4294967296)
    (hlen' : L'.length < 4294967296) {bestBid bestAsk bestBid' bestAsk' : Int}
    (hbid : InI32 bestBid) (hask : InI32 bestAsk) (hbid' : InI32 bestBid') (hask' : InI32 bestAsk') :
    L.digest g bestBid bestAsk = L'.digest g bestBid' bestAsk' ↔
      (bestBid = bestBid' ∧ bestAsk = bestAsk') ∧ L.levelViews g = L'.levelViews g ∧ L.Perm L' := by
  constructor
  · intro e
    simp only [digest, bytes_append, List.append_assoc] at e
    have hfits : ∀ (bid ask : Int) (n : Nat), n < 4294967296 →
        ∀ f ∈ ([(4, u32 bid), (4, u32 ask), (4, n)] : List Field), f.Fits := by
      intro bid ask n hn f hf
      simp only [List.mem_cons, List.not_mem_nil, or_false] at hf
      rcases hf with rfl | rfl | rfl
      · exact u32_lt bid
      · exact u32_lt ask
      · exact hn
    obtain ⟨ehead, e⟩ := @bytes_inj [(4, u32 bestBid), (4, u32 bestAsk), (4, L.length)]
      [(4, u32 bestBid'), (4, u32 bestAsk'), (4, L'.length)] _ _ rfl
      (hfits bestBid bestAsk L.length hlen) (hfits bestBid' bestAsk' L'.length hlen') e
    simp only [List.cons.injEq, Prod.mk.injEq, true_and, and_true] at ehead
    obtain ⟨ebid, eask, ecount⟩ := ehead
    have hsorted : ∀ l : List Resting, (Digest.sortUnstable l).length = l.length :=
      fun l => (List.mergeSort_perm l _).length_eq
    -- the number of orders tells where they begin
    obtain ⟨elevels, eorders⟩ := List.append_inj' e (by
      rw [orders_width, orders_width, hsorted, hsorted, ecount])
    rw [bytes_flatMap, bytes_flatMap] at elevels eorders
    have hmem : ∀ l : List Resting, ∀ r ∈ Digest.sortUnstable l, r ∈ l :=
      fun l r hr => (List.mergeSort_perm l _).mem_iff.mp hr
    refine ⟨⟨?_, ?_⟩, ?_, ?_⟩
    · rw [← i32_u32 hbid, ebid, i32_u32 hbid']
    · rw [← i32_u32 hask, eask, i32_u32 hask']
    · refine Digest.level_readable.flatMap (fun l hl => ?_) (fun l hl => hv.level_good hg hlen hl)
        (fun l hl => hv'.level_good hg hlen' hl) elevels
      cases congrArg List.length hl
    · refine Digest.sortUnstable_eq_iff.mp (Digest.order_readable.flatMap (fun r hr => ?_)
        (fun r hr => hv.good (hmem L r hr)) (fun r hr => hv'.good (hmem L' r hr)) eorders)
      cases congrArg List.length hr
  · rintro ⟨⟨rfl, rfl⟩, elevels, hperm⟩
    rw [digest, digest, elevels, hperm.length_eq, Digest.sortUnstable_eq_iff.mpr hperm]

end Ledger

end HiPerf
