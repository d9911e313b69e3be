import HiPerf.Digest.Same
import HiPerf.Snapshot.Restart

/-!
The image of a memory: its scalars, its occupied levels and some of its slots.
A flat book writes all the slots it ever used, a book of rows the live ones.
-/

namespace HiPerf

open Machine Exec Bytes

namespace Flat

/-- The occupied levels of a lane. -/
def laneRecs (f : Flat) (side : Nat) : List LevelRec :=
  (List.range f.grid.nLevels).filterMap fun t =>
    if (f.lvl (laneOf side) t).head = NIL then none else some (side, t, f.lvl (laneOf side) t)

def levelRecs (f : Flat) : List LevelRec := f.laneRecs 0 ++ f.laneRecs 1

def orderRecs (f : Flat) (slots : List Nat) : List OrderRec := slots.map fun s => (s, f.ord s)

def image (f : Flat) (capacity : Nat) (slots : List Nat) : Image where
  scalars := ⟨f.grid.priceMin, f.grid.tick, f.grid.nLevels, capacity, f.hwm, f.bestBid, f.bestAsk,
    f.freeHead⟩
  levelCount := f.levelRecs.length
  levels := f.levelRecs
  orderCount := slots.length
  orders := f.orderRecs slots

/-- The image as an encoder writes it: its groups keep what they declare in 16 bits. -/
def keptImage (f : Flat) (capacity : Nat) (slots : List Nat) : Image where
  scalars := (f.image capacity slots).scalars
  levelCount := u16 f.levelRecs.length
  levels := kept (u16 f.levelRecs.length) f.levelRecs
  orderCount := u16 slots.length
  orders := kept (u16 slots.length) (f.orderRecs slots)

theorem keptImage_eq {f : Flat} {capacity : Nat} {slots : List Nat}
    (hlevels : f.levelRecs.length ≤ 65535) (hslots : slots.length ≤ 65535) :
    f.keptImage capacity slots = f.image capacity slots := by
  have hu : ∀ n, n ≤ 65535 → u16 n = n := fun n hn => Nat.mod_eq_of_lt (by omega)
  have horders : (f.orderRecs slots).length ≤ slots.length := Nat.le_of_eq (List.length_map _)
  rw [keptImage, hu _ hlevels, hu _ hslots, kept_of_le (Nat.le_refl _), kept_of_le horders]
  rfl

/-- The book with this memory and room for `cap` orders. -/
def book (f : Flat) (cap : Nat) : Book where
  priceMin := f.grid.priceMin
  tick := f.grid.tick
  nLevels := f.grid.nLevels
  bids := Array.ofFn fun t : Fin f.grid.nLevels => f.lvl .bid t
  asks := Array.ofFn fun t : Fin f.grid.nLevels => f.lvl .ask t
  pool := Array.ofFn fun s : Fin cap => f.ord s
  hwm := f.hwm
  bestBid := f.bestBid
  bestAsk := f.bestAsk
  idmap := f.ids
  freeHead := f.freeHead

theorem book_narrow (f : Flat) (cap : Nat) : (f.book cap).Narrow :=
  ⟨Array.size_ofFn, Array.size_ofFn⟩

theorem book_shows {f : Flat} {cap : Nat} (hlvl : ∀ x t, f.grid.nLevels ≤ t → f.lvl x t = PriceLevel.EMPTY)
    (hord : ∀ s, cap ≤ s → f.ord s = Order.zero) : (f.book cap).Shows cap f := by
  have hget : ∀ {α : Type} (n : Nat) (g : Nat → α) (z : α), (∀ i, n ≤ i → g i = z) → ∀ i,
      (Array.ofFn fun t : Fin n => g t)[i]?.getD z = g i := by
    intro α n g z hz i
    by_cases h : i < n
    · simp [h]
    · simp [h, hz i (by omega)]
  have hview : (f.book cap).view = f := by
    cases f
    simp only [Book.view, book, Flat.mk.injEq, true_and, and_true]
    refine ⟨?_, ?_⟩
    · funext s
      exact hget cap _ _ hord s
    · funext x t
      cases x with
      | bid => exact hget _ _ _ (hlvl .bid) t
      | ask => exact hget _ _ _ (hlvl .ask) t
  exact ⟨hview, Array.size_ofFn, (Nat.le_of_eq (book_narrow f cap).bids.symm),
    Nat.le_of_eq (book_narrow f cap).asks.symm⟩

end Flat

section

variable {f : Flat} {L : Ledger} {q : Lane → Nat → List Nat} {cap : Nat} {b : Book}

/-- What an encoder finds in the lanes of a book are the levels of its memory. -/
theorem Book.Shows.levelRecs_eq (hb : b.Shows cap f) (hn : b.Narrow) :
    b.source.levelRecs = f.levelRecs := by
  have hgrid : b.nLevels = f.grid.nLevels := by rw [← hb.view]; rfl
  have hlane : ∀ side, b.source.laneRecs side 0 (b.source.width side) = f.laneRecs side := by
    intro side
    have hwidth : b.source.width side = f.grid.nLevels := (hn.lane_size side).trans hgrid
    rw [Source.laneRecs, Flat.laneRecs, hwidth, List.range_eq_range']
    refine List.filterMap_congr fun t ht => ?_
    have hlt : t < f.grid.nLevels := by simpa using ht
    rw [hb.digest_level hn side hlt]
    rfl
  rw [Source.levelRecs, hlane, hlane]
  rfl

theorem Book.Shows.keptImage_eq (hb : b.Shows cap f) (hn : b.Narrow) (hcap : f.hwm ≤ cap) :
    b.source.image = f.keptImage (u32 cap) (List.range f.hwm) := by
  have hrecs := hb.levelRecs_eq hn
  have hsource : b.source.orderRecs 0 f.hwm = f.orderRecs (List.range f.hwm) := by
    rw [Source.orderRecs, Flat.orderRecs, List.range_eq_range']
    refine List.map_congr_left fun s hs => ?_
    have hlt : s < f.hwm := by simpa using hs
    rw [hb.digest_order (by omega)]
    rfl
  have hscalars : b.source.scalars = (f.image (u32 cap) (List.range f.hwm)).scalars := by
    obtain ⟨rfl, rfl, -, -⟩ := hb
    rfl
  have e : b.source.image = ⟨b.source.scalars, u16 b.source.levelRecs.length,
      kept (u16 b.source.levelRecs.length) b.source.levelRecs, u16 b.source.scalars.hwm,
      kept (u16 b.source.scalars.hwm) (b.source.orderRecs 0 b.source.scalars.hwm)⟩ := rfl
  rw [e, Book.hwm_source hb, hrecs, hsource, hscalars, Flat.keptImage, List.length_range]

/-- An image that has room for every slot in use is the image of the memory. -/
theorem Book.Shows.image_eq (hb : b.Shows cap f) (hn : b.Narrow) (h : Rep f L q)
    (hcap : f.hwm ≤ cap) (hhwm : f.hwm ≤ 65535) :
    b.source.image = f.image (u32 cap) (List.range f.hwm) := by
  have hlen := Book.levelRecs_length_le hb h
  rw [hb.levelRecs_eq hn] at hlen
  rw [hb.keptImage_eq hn hcap, Flat.keptImage_eq (by omega) (by rw [List.length_range]; exact hhwm)]

theorem Rep.levels_beyond (h : Rep f L q) (x : Lane) (t : Nat) (ht : f.grid.nLevels ≤ t) :
    f.lvl x t = PriceLevel.EMPTY := h.level_eq_empty (h.q_beyond x ht)

theorem mem_levelRecs {r : LevelRec} (hr : r ∈ f.levelRecs) :
    r.1 ≤ 1 ∧ r.2.1 < f.grid.nLevels ∧ r.2.2 = f.lvl (laneOf r.1) r.2.1 ∧ r.2.2.head ≠ NIL := by
  have hlane : ∀ side ≤ 1, r ∈ f.laneRecs side → r.1 ≤ 1 ∧ r.2.1 < f.grid.nLevels ∧
      r.2.2 = f.lvl (laneOf r.1) r.2.1 ∧ r.2.2.head ≠ NIL := by
    intro side hs hr
    obtain ⟨t, ht, e⟩ := List.mem_filterMap.mp hr
    split at e
    · cases e
    · cases e
      exact ⟨hs, List.mem_range.mp ht, rfl, ‹_›⟩
  obtain hr | hr := List.mem_append.mp hr
  · exact hlane 0 (by omega) hr
  · exact hlane 1 (by omega) hr

theorem levelRecs_mem {side t : Nat} (hs : side ≤ 1) (ht : t < f.grid.nLevels)
    (hn : (f.lvl (laneOf side) t).head ≠ NIL) : (side, t, f.lvl (laneOf side) t) ∈ f.levelRecs := by
  have hr : (side, t, f.lvl (laneOf side) t) ∈ f.laneRecs side :=
    List.mem_filterMap.mpr ⟨t, List.mem_range.mpr ht, if_neg hn⟩
  obtain rfl | rfl : side = 0 ∨ side = 1 := by omega
  · exact List.mem_append_left _ hr
  · exact List.mem_append_right _ hr

theorem Flat.image_plain (h : Rep f L q) {capacity : Nat} (hc : capacity < 4294967296)
    (hfh : f.freeHead ≤ NIL) {slots : List Nat} (hslots : ∀ s ∈ slots, s < 4294967296)
    (hlen : slots.length < 65536) (hlevels : f.levelRecs.length < 65536) :
    (f.image capacity slots).Plain := by
  obtain ⟨hbid, hask⟩ := h.bests_i32
  have hl := h.grid_ok.levels_le
  have hhwm := h.hwm_le
  refine ⟨⟨h.grid_ok.priceMin_i64, h.grid_ok.tick_i64, Nat.lt_of_le_of_lt hl (by decide), hc,
    Nat.lt_of_le_of_lt hhwm (by decide), hbid, hask, hfh⟩, rfl, hlevels, fun r hr => ?_,
    List.length_map _, hlen, fun r hr => ?_⟩
  · obtain ⟨hs, ht, e, -⟩ := mem_levelRecs hr
    exact ⟨hs, by omega, e ▸ Book.level_plain h _ _⟩
  · obtain ⟨s, hs, rfl⟩ := List.mem_map.mp hr
    exact ⟨hslots s hs, h.plain s⟩

end

end HiPerf
