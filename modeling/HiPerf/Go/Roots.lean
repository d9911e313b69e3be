import HiPerf.Go.CowSnapshot
import HiPerf.Go.Mirror

/-!
The roots of the Go copy-on-write book. What a root shows stays what it was at the capture, and
its encoding is the one the flat book had then.
-/

namespace HiPerf.Go

open Machine Exec Epoch Serial

/-- Through the chunks of `w` the root shows what `b` holds. -/
structure CowRoot.Shows (r : CowRoot) (b : Book) (w : CowBook) : Prop where
  priceMin : r.priceMin = b.priceMin
  tick : r.tick = b.tick
  nLevels : r.nLevels = b.nLevels
  capacity : r.capacity = u32 b.pool.size
  hwm : r.hwm = b.hwm
  freeHead : r.freeHead = b.freeHead
  bestBid : r.bestBid = b.bestBid
  bestAsk : r.bestAsk = b.bestAsk
  order : ∀ s, r.order w s = b.pool[s]?
  level : ∀ side ≤ 1, ∀ t, r.level w side t = (b.lane side)[t]?

/-- The book will write none of these chunks. -/
structure CowRoot.Keeps (r : CowRoot) (b : Book) (w : CowBook) : Prop extends r.Shows b w where
  orders : Pages.Frozen w.gen w.orders r.orderChunks
  bids : Pages.Frozen w.gen w.bids r.bidChunks
  asks : Pages.Frozen w.gen w.asks r.askChunks

namespace CowBook

variable {rows levels : Nat} {K : Knowledge} {r : CowRoot} {w w' : CowBook} {b : Book}

theorem keeps_grows (h : r.Keeps b w) (hg : Grows w w') : r.Keeps b w' := by
  obtain ⟨horders, ho⟩ := h.orders.grows hg.orders
  obtain ⟨hbids, hb⟩ := h.bids.grows hg.bids
  obtain ⟨hasks, ha⟩ := h.asks.grows hg.asks
  rw [← hg.gen] at horders hbids hasks
  refine { h with
    orders := horders
    bids := hbids
    asks := hasks
    order := fun s => (ho _ s).trans (h.order s)
    level := fun side hside t => ?_ }
  rw [← h.level side hside t]
  unfold CowRoot.level CowRoot.laneAt
  split
  · exact ha _ t
  · exact hb _ t

def kept (r : CowRoot) (b : Book) : Knowledge := ⟨r.Keeps b, keeps_grows⟩

def genIs (gen : Nat) : Knowledge := ⟨fun w => w.gen = gen, fun h hg => hg.gen.trans h⟩

/-- What stays known when a generation begins. -/
def Knowledge.Lasting (K : Knowledge) : Prop :=
  ∀ w, K.holds w → K.holds { w with gen := w.gen + 1 }

theorem nothing_lasting : Knowledge.nothing.Lasting := fun _ _ => trivial

theorem kept_lasting (hK : K.Lasting) (r : CowRoot) (b : Book) : (K.and (kept r b)).Lasting :=
  fun w h => ⟨hK w h.1, { h.2 with
    orders := h.2.orders.next
    bids := h.2.bids.next
    asks := h.2.asks.next }⟩

/-- What a capture hands out. -/
theorem Mirrors.root_shows (h : Mirrors rows levels K w b) : w.root.Shows b w where
  priceMin := h.priceMin
  tick := h.tick
  nLevels := h.nLevels.trans h.levels.symm
  capacity := by
    rw [← h.capacity]
    rfl
  hwm := h.hwm
  freeHead := h.freeHead
  bestBid := h.bestBid
  bestAsk := h.bestAsk
  order := h.order
  level side hside t := by
    rw [← h.level side t]
    unfold CowRoot.level CowRoot.laneAt CowBook.lane
    by_cases hs : side = 0
    · rw [if_pos hs, if_neg (by omega), if_neg (by omega)]
      rfl
    · rw [if_neg hs, if_pos (by omega), if_pos (by omega)]
      rfl

theorem Mirrors.root_keeps (h : Mirrors rows levels K w b) :
    w.root.Keeps b { w with gen := w.gen + 1 } :=
  { h.root_shows with
    orders := h.orders.frozen
    bids := h.bids.frozen
    asks := h.asks.frozen }

theorem Mirrors.next (hK : K.Lasting) (h : Mirrors rows levels K w b) :
    Mirrors rows levels (K.and (kept w.root b)) { w with gen := w.gen + 1 } b :=
  { h with
    orders := h.orders.next
    bids := h.bids.next
    asks := h.asks.next
    known := ⟨hK w h.known, h.root_keeps⟩ }

end CowBook

/-- The calls of a writer that keeps a copy of the book at each capture. -/
def Book.serve : List CowCall → Run Book (List Book)
  | [] => return []
  | .op op :: calls => do
    apply op
    serve calls
  | .capture :: calls => do
    let b ← get
    let bs ← serve calls
    return b :: bs

namespace CowBook

variable {rows levels : Nat} {K : Knowledge} {r : CowRoot} {w w' : CowBook} {b : Book}

/-- The root of a capture, and the flat book at that moment. -/
def Captured (rows levels : Nat) (w : CowBook) (r : CowRoot) (b : Book) : Prop :=
  r.Shows b w ∧ (∀ side, (b.lane side).size = rows) ∧ b.nLevels = levels

theorem Mirrors.captured (h : Mirrors rows levels K w b) : Captured rows levels w w.root b :=
  ⟨h.root_shows, h.size, h.levels⟩

/-- Over any calls: both writers complete them, and at the end each root still shows the book
of its capture; or both stop. -/
theorem serve_tracks (calls : List CowCall) (hK : K.Lasting) (h : Mirrors rows levels K w b)
    (hgen : w.gen + CowCall.captures calls < 18446744073709551616) :
    (∃ rs w' bs b', serve calls w = .ok rs w' ∧ Book.serve calls b = .ok bs b' ∧
      Mirrors rows levels K w' b' ∧ List.Forall₂ (Captured rows levels w') rs bs) ∨
    ∃ p w' q b', serve calls w = .error p w' ∧ Book.serve calls b = .error q b' := by
  induction calls generalizing K w b with
  | nil => exact .inl ⟨[], w, [], b, rfl, rfl, h, .nil⟩
  | cons call calls ih =>
    cases call with
    | op op =>
      have hm : Mirrors rows levels (K.and (genIs w.gen)) w b := h.knowing ⟨h.known, rfl⟩
      obtain ⟨_, w₁, b₁, ew, eb, hm₁⟩ | ⟨p, w₁, q, b₁, ew, eb⟩ :=
        Meets.cases (apply_tracks op) True.intro hm
      · have hgen₁ : w₁.gen = w.gen := hm₁.known.2
        have hrun : serve (.op op :: calls) w = serve calls w₁ := bind_ok ew _
        have hrun' : Book.serve (.op op :: calls) b = Book.serve calls b₁ := bind_ok eb _
        rw [hrun, hrun']
        exact ih hK hm₁.forget (by rwa [hgen₁])
      · exact .inr ⟨p, w₁, q, b₁, bind_error ew _, bind_error eb _⟩
    | capture =>
      rw [CowCall.captures] at hgen
      have hwrap : u64 ((w.gen : Int) + 1) = w.gen + 1 := by
        unfold u64
        omega
      have hcapture : capture w = .ok w.root { w with gen := w.gen + 1 } := by
        simp only [capture, get_bind, modify_bind, hwrap]
        rfl
      obtain ⟨rs, w', bs, b', ew, eb, hm, hall⟩ | ⟨p, w', q, b', ew, eb⟩ :=
        ih (kept_lasting hK w.root b) (h.next hK) (show w.gen + 1 + _ < _ by omega)
      · have hrun : serve (.capture :: calls) w = .ok (w.root :: rs) w' :=
          (bind_ok hcapture _).trans (bind_ok ew _)
        exact .inl ⟨w.root :: rs, w', b :: bs, b', hrun, bind_ok eb _, hm.forget,
          .cons ⟨hm.known.2.toShows, h.size, h.levels⟩ hall⟩
      · exact .inr ⟨p, w', q, b', (bind_ok hcapture _).trans (bind_error ew _), bind_error eb _⟩

end CowBook

namespace CowRoot

variable {r : CowRoot} {w : CowBook} {b : Book} {side t n : Nat}

theorem countLane_eq (h : r.Shows b w) (hside : side ≤ 1) (htn : t + n = (b.lane side).size)
    (k : Nat) : r.countLane w side t n k =
      .ok (Book.countLane ((b.lane side).toList.drop t) k) := by
  induction n generalizing t k with
  | zero =>
    rw [List.drop_of_length_le (by rw [Array.length_toList]; omega)]
    rfl
  | succ n ih =>
    have hlt : t < (b.lane side).size := by omega
    have hlvl := (h.level side hside t).trans (Array.getElem?_eq_getElem hlt)
    have hdrop : (b.lane side).toList.drop t =
        (b.lane side)[t] :: (b.lane side).toList.drop (t + 1) :=
      List.drop_eq_getElem_cons (by rwa [Array.length_toList])
    rw [countLane, hlvl, hdrop]
    exact ih (by omega) _

theorem writeLane_eq (h : r.Shows b w) (hside : side ≤ 1) (htn : t + n = (b.lane side).size) :
    r.writeLane w side t n = Book.writeLane side t ((b.lane side).toList.drop t) := by
  induction n generalizing t with
  | zero =>
    rw [List.drop_of_length_le (by rw [Array.length_toList]; omega)]
    rfl
  | succ n ih =>
    have hlt : t < (b.lane side).size := by omega
    have hlvl := (h.level side hside t).trans (Array.getElem?_eq_getElem hlt)
    have hdrop : (b.lane side).toList.drop t =
        (b.lane side)[t] :: (b.lane side).toList.drop (t + 1) :=
      List.drop_eq_getElem_cons (by rwa [Array.length_toList])
    rw [writeLane, hlvl, hdrop, Book.writeLane, ih (by omega)]

theorem writeOrders_eq (h : r.Shows b w) (slot n : Nat) :
    r.writeOrders w slot n = Book.writeOrders b.pool slot n := by
  induction n generalizing slot with
  | zero => rfl
  | succ n ih =>
    have horder := h.order slot
    cases ho : b.pool[slot]? with
    | none =>
      rw [ho] at horder
      simp only [writeOrders, Book.writeOrders, horder, ho, ih (slot + 1)]
    | some o =>
      rw [ho] at horder
      simp only [writeOrders, Book.writeOrders, horder, ho, ih (slot + 1)]

/-- The encoding of a root is that of the book it shows. -/
theorem encode_eq (h : r.Shows b w) (hrows : ∀ side, (b.lane side).size = b.nLevels)
    (crc32c : List UInt8 → UInt32) (buf : List UInt8) :
    r.encode crc32c w buf = Book.encode crc32c b buf := by
  have hlane : ∀ side ≤ 1, 0 + r.nLevels = (b.lane side).size := fun side _ => by
    rw [hrows, h.nLevels, Nat.zero_add]
  have hbids := countLane_eq h (Nat.zero_le 1) (hlane 0 (Nat.zero_le 1)) 0
  have hasks := countLane_eq h (Nat.le_refl 1) (hlane 1 (Nat.le_refl 1))
  have hoccupied : r.occupied w = .ok b.occupied := by
    rw [occupied, hbids]
    exact hasks _
  have hscalars : r.setScalars = Book.setScalars b := by
    rw [setScalars, Book.setScalars, h.priceMin, h.tick, h.nLevels, h.capacity, h.hwm, h.bestBid,
      h.bestAsk, h.freeHead]
  have hwrite : r.write w b.occupied = Book.write b := by
    rw [write, Book.write, hscalars, writeLane_eq h (Nat.zero_le 1) (hlane 0 (Nat.zero_le 1)),
      writeLane_eq h (Nat.le_refl 1) (hlane 1 (Nat.le_refl 1)), writeOrders_eq h, h.hwm]
    rfl
  unfold encode
  simp only [hoccupied]
  dsimp only [bind, Except.bind]
  rw [hwrite, h.hwm]
  rfl

end CowRoot

end HiPerf.Go
