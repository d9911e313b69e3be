import HiPerf.Book.Rep
import HiPerf.Digest.Model
import Mathlib.Data.List.Sort

/-!
The digest of a ledger: what every store's digest shows when the store holds
that ledger, wherever its slots are.
-/

namespace HiPerf

open Machine Bytes Fifo

namespace Digest

theorem key_injective {a b : Resting} (h : key a = key b) : a = b := by
  obtain ⟨_, _, _, _, _⟩ := a
  obtain ⟨_, _, _, _, _⟩ := b
  simp only [key, List.cons.injEq, Int.natCast_inj, and_true] at h
  obtain ⟨rfl, rfl, rfl, rfl, rfl⟩ := h
  rfl

/-- Sorting forgets the order and nothing else. -/
theorem sortUnstable_eq_iff {l l' : List Resting} :
    sortUnstable l = sortUnstable l' ↔ l.Perm l' := by
  constructor
  · intro e
    have h := List.mergeSort_perm l fun a b => decide (key a ≤ key b)
    change (sortUnstable l).Perm l at h
    rw [e] at h
    exact h.symm.trans (List.mergeSort_perm l' _)
  · intro h
    have hsorted : ∀ l : List Resting, (sortUnstable l).Pairwise fun a b => key a ≤ key b := by
      intro l
      have := @List.pairwise_mergeSort _ (fun a b => decide (key a ≤ key b))
        (fun a b c hab hbc => by simp only [decide_eq_true_eq] at *; exact hab.trans hbc)
        (fun a b => by simpa using le_total (key a) (key b)) l
      simpa only [decide_eq_true_eq, sortUnstable] using this
    refine List.Perm.eq_of_pairwise (fun a b _ _ hab hba => key_injective (le_antisymm hab hba))
      (hsorted l) (hsorted l') ?_
    exact (List.mergeSort_perm l _).trans (h.trans (List.mergeSort_perm l' _).symm)

end Digest

/-- An occupied level, as a digest shows it. -/
structure LevelView where
  side : Nat
  tick : Nat
  qtyTotal : Int
  count : Nat
  ids : List Int
  deriving DecidableEq, Repr

def LevelView.fields (l : LevelView) : List Field :=
  Digest.putLevel l.side l.tick l.qtyTotal l.count ++ l.ids.map fun i => (8, u64 i)

namespace Ledger

def levelView (L : Ledger) (g : Grid) (side t : Nat) : LevelView where
  side := side
  tick := t
  qtyTotal := L.levelQty g (laneOf side) t
  count := (L.atLevel g (laneOf side) t).length
  ids := (L.atLevel g (laneOf side) t).ids

/-- The occupied levels of a lane from `t` on, of which `n` are left. -/
def laneViews (L : Ledger) (g : Grid) (side t : Nat) : Nat → List LevelView
  | 0 => []
  | n + 1 =>
    if L.atLevel g (laneOf side) t = [] then laneViews L g side (t + 1) n
    else L.levelView g side t :: laneViews L g side (t + 1) n

/-- The occupied levels, bids first. -/
def levelViews (L : Ledger) (g : Grid) : List LevelView :=
  L.laneViews g 0 0 g.nLevels ++ L.laneViews g 1 0 g.nLevels

/-- What the digest of a store shows that holds `L`, with these cached bests. -/
def digest (L : Ledger) (g : Grid) (bestBid bestAsk : Int) : List UInt8 :=
  bytes ([(4, u32 bestBid), (4, u32 bestAsk), (4, L.length)] ++
    (L.levelViews g).flatMap LevelView.fields ++ (Digest.sortUnstable L).flatMap Digest.putOrder)

end Ledger

namespace Digest

variable {order : Nat → Option Order} {f : Flat} {L : Ledger} {q : Lane → Nat → List Nat}

/-- The live slots among the `n` from `slot` on. -/
def liveSlots (f : Flat) (slot n : Nat) : List Nat :=
  (List.range' slot n).filter fun s => (f.ord s).orderId ≠ 0

theorem liveFrom_eq {slot n : Nat} (h : ∀ s, slot ≤ s → s < slot + n → order s = some (f.ord s)) :
    liveFrom order slot n = .ok ((liveSlots f slot n).map fun s => (f.ord s).resting) := by
  induction n generalizing slot with
  | zero => rfl
  | succ n ih =>
    have hrest := @ih (slot + 1) fun s hs hlt => h s (by omega) (by omega)
    have hsplit : liveSlots f slot (n + 1) =
        if (f.ord slot).orderId ≠ 0 then slot :: liveSlots f (slot + 1) n
        else liveSlots f (slot + 1) n := by
      simp only [liveSlots, List.range'_succ, List.filter_cons, decide_eq_true_eq]
    rw [liveFrom, h slot (Nat.le_refl _) (by omega), hrest, hsplit]
    change Except.ok _ = _
    split
    · rfl
    · rfl

/-- The live slots are the queued ones, whatever the layout. -/
theorem live_perm (h : Rep f L q) :
    ((liveSlots f 0 f.hwm).map fun s => (f.ord s).resting).Perm L := by
  have hlive : ∀ s, s ∈ liveSlots f 0 f.hwm ↔ Queued q s := by
    intro s
    simp [liveSlots, h.queued_iff s]
  have hids : ((liveSlots f 0 f.hwm).map fun s => (f.ord s).resting).Nodup := by
    refine List.Nodup.map_on (fun s hs s' hs' e => ?_) (List.Nodup.filter _ List.nodup_range')
    exact h.slot_unique ((hlive s).mp hs) ((hlive s').mp hs') (congrArg Resting.orderId e)
  refine (List.perm_ext_iff_of_nodup hids h.valid.nodup.of_map).mpr fun r => ?_
  simp only [List.mem_map, hlive]
  constructor
  · rintro ⟨s, hs, rfl⟩
    exact h.queued_mem hs
  · intro hr
    obtain ⟨s, hs, e⟩ := h.queues.exists_slot hr
    exact ⟨s, ⟨_, _, hs⟩, e⟩

theorem walk_eq (p : Panic) {l : List Nat} {s n : Nat} (hc : IsChain NIL f.next s l) (hn : l.length < n)
    (horder : ∀ s ∈ l, order s = some (f.ord s)) :
    walk order p n s = .ok (l.map fun s => (8, u64 (f.ord s).orderId)) := by
  induction l generalizing s n with
  | nil =>
    cases n with
    | zero => cases hn
    | succ n =>
      obtain rfl : s = NIL := hc
      rw [walk, if_pos rfl]
      rfl
  | cons s' l ih =>
    obtain ⟨rfl, hs, hl⟩ := hc
    cases n with
    | zero => cases hn
    | succ n =>
      have hrest := ih hl (by simpa using hn) fun s hs => horder s (by simp [hs])
      simp only [Flat.next] at hrest
      rw [walk, if_neg hs, horder s (by simp)]
      change walk order p n (f.ord s).next >>= _ = _
      rw [hrest]
      rfl

/-- A level shows its orders in time priority. -/
theorem level_ids (h : Rep f L q) (x : Lane) (t : Nat) :
    ((q x t).map fun s => (8, u64 (f.ord s).orderId)) =
      (L.atLevel f.grid x t).ids.map fun i => (8, u64 i) := by
  rw [← (h.queues x t).recs, Ledger.ids, List.map_map, List.map_map]
  rfl

theorem lane_eq {level : Nat → Option PriceLevel} {room side : Nat} (h : Rep f L q)
    (horder : ∀ s, Queued q s → order s = some (f.ord s)) (hroom : f.hwm ≤ room) {t n : Nat}
    (hlevel : ∀ u, t ≤ u → u < t + n → level u = some (f.lvl (laneOf side) u)) :
    lane order room side level t n =
      .ok ((L.laneViews f.grid side t n).flatMap LevelView.fields) := by
  induction n generalizing t with
  | zero => rfl
  | succ n ih =>
    have hrest := ih (t := t + 1) fun u hu hlt => hlevel u (by omega) (by omega)
    have hl := h.queues (laneOf side) t
    rw [lane, hlevel t (Nat.le_refl _) (by omega), Ledger.laneViews]
    change (if _ then _ else _) = _
    by_cases hempty : L.atLevel f.grid (laneOf side) t = []
    · have hhead : (f.lvl (laneOf side) t).head = NIL := by
        by_contra hne
        exact (h.queues.occupied_iff _ t).mp hne hempty
      rw [if_pos hhead, if_pos hempty, hrest]
    · have hhead := (h.queues.occupied_iff _ t).mpr hempty
      have hlen := h.queues.length_le h.valid.nodup (laneOf side) t
      have hwalk := walk_eq (n := room + 1) .indexOutOfBounds hl.fifo.chain (by omega) fun s hs => horder s ⟨_, _, hs⟩
      have hcount : (f.lvl (laneOf side) t).count = (L.atLevel f.grid (laneOf side) t).length := by
        rw [hl.count, ← hl.recs, List.length_map]
      rw [if_neg hhead, if_neg hempty, hwalk, hrest, level_ids h, hl.qty, hcount]
      rfl

/-- A store that shows a memory holding `L` has the digest of `L`. -/
theorem digest_eq {v : Source} {room : Nat} (h : Rep f L q) (hroom : f.hwm ≤ room)
    (horder : ∀ s < f.hwm, v.order s = some (f.ord s))
    (hwidth : ∀ side ≤ 1, v.width side = f.grid.nLevels)
    (hlevel : ∀ side ≤ 1, ∀ t < f.grid.nLevels, v.level side t = some (f.lvl (laneOf side) t))
    (hhwm : v.scalars.hwm = f.hwm) (hbid : v.scalars.bestBid = f.bestBid)
    (hask : v.scalars.bestAsk = f.bestAsk) :
    digest room v = .ok (L.digest f.grid f.bestBid f.bestAsk) := by
  have hqueued : ∀ s, Queued q s → v.order s = some (f.ord s) := fun s hs => horder s (h.queued_lt hs)
  have hlive := @liveFrom_eq v.order f 0 f.hwm fun s _ hs => horder s (by omega)
  have hlane : ∀ side ≤ 1, lane v.order room side (v.level side) 0 f.grid.nLevels =
      .ok ((L.laneViews f.grid side 0 f.grid.nLevels).flatMap LevelView.fields) :=
    fun side hside => lane_eq h hqueued hroom fun u _ hu => hlevel side hside u (by omega)
  have hperm := live_perm h
  rw [digest, hhwm, hlive, hwidth 0 (by omega), hwidth 1 (by omega), hbid, hask]
  change (lane _ _ _ _ _ _ >>= _) = _
  rw [hlane 0 (by omega)]
  change (lane _ _ _ _ _ _ >>= _) = _
  rw [hlane 1 (by omega)]
  change Except.ok _ = _
  rw [hperm.length_eq, sortUnstable_eq_iff.mpr hperm, Ledger.digest, Ledger.levelViews,
    List.flatMap_append, List.append_assoc, List.append_assoc, List.append_assoc, List.append_assoc]

end Digest

end HiPerf
