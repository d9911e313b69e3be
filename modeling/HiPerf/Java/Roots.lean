import HiPerf.Java.Mirror
import HiPerf.Java.Snapshot

/-!
The roots of the Java copy-on-write book. What a root shows stays what it was at the capture,
and its encoding is the one the flat book had then.
-/

namespace HiPerf.Java

open Machine Exec Epoch Serial HashMaps

variable {lm : Long2LongHashMap} {om : Long2ObjectHashMap Int}

/-- Through the chunks of `w` the root shows what `b` holds. -/
structure CowRoot.Shows (r : CowRoot) (b : Book om) (w : CowBook lm) : Prop where
  priceMin : r.priceMin = b.priceMin
  tick : r.tick = b.tick
  nLevels : r.nLevels = b.nLevels
  capacity : r.capacity = b.pool.size
  hwm : r.hwm = b.hwm
  bestBid : r.bestBid = b.bestBid
  bestAsk : r.bestAsk = b.bestAsk
  freeHead : r.freeHead = b.freeHead
  order : ∀ s, r.order w s = b.pool[s]?.map Order.cell
  level : ∀ side t, r.level w side t = (b.lane side)[t]?

/-- The book will write none of these chunks. -/
structure CowRoot.Keeps (r : CowRoot) (b : Book om) (w : CowBook lm) : Prop extends r.Shows b w where
  orders : Pages.Frozen w.gen.toNat w.orders r.orderChunks
  bids : Pages.Frozen w.gen.toNat w.bids r.bidChunks
  asks : Pages.Frozen w.gen.toNat w.asks r.askChunks

/-- The calls of a writer that keeps a copy of the book at each capture. -/
def Book.serve : List CowCall → Run (Book om) (List (Book om))
  | [] => return []
  | .op op :: calls => do
    apply op
    serve calls
  | .capture :: calls => do
    let b ← get
    let bs ← serve calls
    return b :: bs

namespace CowBook

variable {rows : Nat} {keys : List Int} {K : Knowledge lm om} {r : CowRoot}
  {w w' : CowBook lm} {b : Book om}

theorem keeps_grows (h : r.Keeps b w) (hg : Grows w w') : r.Keeps b w' := by
  obtain ⟨horders, ho⟩ := h.orders.grows hg.orders
  obtain ⟨hbids, hb⟩ := h.bids.grows hg.bids
  obtain ⟨hasks, ha⟩ := h.asks.grows hg.asks
  rw [← hg.gen] at horders hbids hasks
  refine { h with
    orders := horders
    bids := hbids
    asks := hasks
    order := fun s => (ho _ s).trans (h.order s)
    level := fun side t => ?_ }
  rw [← h.level side t]
  unfold CowRoot.level
  split
  · exact hb _ t
  · exact ha _ t

def kept (r : CowRoot) (b : Book om) : Knowledge lm om :=
  ⟨fun w _ => r.Keeps b w, fun h hg _ => keeps_grows h hg⟩

def genIs (gen : Int) : Knowledge lm om := ⟨fun w _ => w.gen = gen, fun h hg _ => hg.gen.trans h⟩

/-- What stays known when a generation begins. -/
def Knowledge.Lasting (K : Knowledge lm om) : Prop :=
  ∀ w b, 0 ≤ w.gen → K.holds w b → K.holds { w with gen := w.gen + 1 } b

theorem nothing_lasting : (Knowledge.nothing : Knowledge lm om).Lasting := fun _ _ _ _ => trivial

theorem toNat_succ {gen : Int} (h : 0 ≤ gen) : (gen + 1).toNat = gen.toNat + 1 := by omega

theorem kept_lasting (hK : K.Lasting) (r : CowRoot) (b : Book om) :
    (K.and (kept r b)).Lasting := by
  rintro w b' hgen ⟨hk, h⟩
  refine ⟨hK w b' hgen hk, ?_⟩
  have hnext := toNat_succ hgen
  exact { h with
    orders := by rw [hnext]; exact h.orders.next
    bids := by rw [hnext]; exact h.bids.next
    asks := by rw [hnext]; exact h.asks.next }

/-- What a capture hands out. -/
theorem Mirrors.root_shows (h : Mirrors rows keys K w b) : w.root.Shows b w where
  priceMin := h.priceMin
  tick := h.tick
  nLevels := h.nLevels
  capacity := h.capacity
  hwm := h.hwm
  bestBid := h.bestBid
  bestAsk := h.bestAsk
  freeHead := h.freeHead
  order := h.order
  level side t := by
    rw [← h.level side t]
    unfold CowRoot.level CowBook.lane
    split
    · rfl
    · rfl

theorem Mirrors.root_keeps (h : Mirrors rows keys K w b) :
    w.root.Keeps b { w with gen := w.gen + 1 } := by
  have hnext := toNat_succ (Int.le_trans (by decide) h.gen)
  exact { h.root_shows with
    orders := by rw [hnext]; exact h.orders.frozen
    bids := by rw [hnext]; exact h.bids.frozen
    asks := by rw [hnext]; exact h.asks.frozen }

theorem Mirrors.next (hK : K.Lasting) (h : Mirrors rows keys K w b) :
    Mirrors rows keys (K.and (kept w.root b)) { w with gen := w.gen + 1 } b := by
  have hgen : 0 ≤ w.gen := Int.le_trans (by decide) h.gen
  have hnext := toNat_succ hgen
  exact { h with
    gen := Int.le_trans h.gen (Int.le_of_lt (Int.lt_succ w.gen))
    orders := by rw [hnext]; exact h.orders.next
    bids := by rw [hnext]; exact h.bids.next
    asks := by rw [hnext]; exact h.asks.next
    known := ⟨hK w b hgen h.known, h.root_keeps⟩ }

/-- The root of a capture, and the flat book at that moment. -/
def Captured (rows : Nat) (w : CowBook lm) (r : CowRoot) (b : Book om) : Prop :=
  r.Shows b w ∧ (∀ side, (b.lane side).size = rows) ∧ b.nLevels = rows

theorem Mirrors.captured (h : Mirrors rows keys K w b) : Captured rows w w.root b :=
  ⟨h.root_shows, h.size, h.levels⟩

/-- The ids in the maps, which are `keys` before the calls, have room in the tables at any
time. -/
def IdsFit : List Int → List CowCall → Prop
  | _, [] => True
  | keys, .op op :: calls => (idsAfter keys op).length ≤ 268435456 ∧ IdsFit (idsAfter keys op) calls
  | keys, .capture :: calls => IdsFit keys calls

/-- Over any calls: both writers complete them, and at the end each root still shows the book
of its capture; or both stop. -/
theorem serve_tracks (hl : lm.Lawful) (ho : om.Lawful) (calls : List CowCall)
    (hfit : IdsFit keys calls) (hK : K.Lasting) (h : Mirrors rows keys K w b)
    (hgen : w.gen + CowCall.captures calls ≤ 9223372036854775807) :
    (∃ rs w' bs b' keys', serve calls w = .ok rs w' ∧ Book.serve calls b = .ok bs b' ∧
      Mirrors rows keys' K w' b' ∧ List.Forall₂ (Captured rows w') rs bs) ∨
    ∃ p w' q b', serve calls w = .error p w' ∧ Book.serve calls b = .error q b' := by
  induction calls generalizing K w b keys with
  | nil => exact .inl ⟨[], w, [], b, keys, rfl, rfl, h, .nil⟩
  | cons call calls ih =>
    cases call with
    | op op =>
      have hm : Mirrors rows keys (K.and (genIs w.gen)) w b := h.knowing ⟨h.known, rfl⟩
      obtain ⟨_, w₁, b₁, ew, eb, hm₁⟩ | ⟨p, w₁, q, b₁, ew, eb⟩ :=
        Meets.cases (apply_tracks hl ho hfit.1) True.intro hm
      · have hgen₁ : w₁.gen = w.gen := hm₁.known.2
        have hrun : serve (.op op :: calls) w = serve calls w₁ := bind_ok ew _
        have hrun' : Book.serve (.op op :: calls) b = Book.serve calls b₁ := bind_ok eb _
        rw [hrun, hrun']
        exact ih hfit.2 hK hm₁.forget (by rwa [hgen₁])
      · exact .inr ⟨p, w₁, q, b₁, bind_error ew _, bind_error eb _⟩
    | capture =>
      rw [CowCall.captures] at hgen
      have hpos : 1 ≤ w.gen := h.gen
      have hnat : ((CowCall.captures calls + 1 : Nat) : Int) = CowCall.captures calls + 1 := rfl
      have hwrap : i64 (w.gen + 1) = w.gen + 1 := by
        unfold i64
        omega
      have hcapture : capture w = .ok w.root { w with gen := w.gen + 1 } := by
        simp only [capture, get_bind, modify_bind, hwrap]
        rfl
      obtain ⟨rs, w', bs, b', keys', ew, eb, hm, hall⟩ | ⟨p, w', q, b', ew, eb⟩ :=
        ih hfit (kept_lasting hK w.root b) (h.next hK) (show w.gen + 1 + _ ≤ _ by omega)
      · have hrun : serve (.capture :: calls) w = .ok (w.root :: rs) w' :=
          (bind_ok hcapture _).trans (bind_ok ew _)
        have hcaptured : Captured rows w' w.root b := ⟨hm.known.2.toShows, h.size, h.levels⟩
        exact .inl ⟨w.root :: rs, w', b :: bs, b', keys', hrun, bind_ok eb _, hm.forget,
          .cons hcaptured hall⟩
      · exact .inr ⟨p, w', q, b', (bind_ok hcapture _).trans (bind_error ew _), bind_error eb _⟩

end CowBook

namespace CowRoot

variable {r : CowRoot} {w : CowBook lm} {b : Book om} {side t n : Nat}

theorem countLane_eq (h : r.Shows b w) (htn : t + n = (b.lane side).size) (k : Nat) :
    r.countLane w side t n k = .ok (Book.countLane ((b.lane side).toList.drop t) k) := by
  induction n generalizing t k with
  | zero =>
    rw [List.drop_of_length_le (by rw [Array.length_toList]; omega)]
    rfl
  | succ n ih =>
    have hlt : t < (b.lane side).size := by omega
    have hlvl := (h.level side t).trans (Array.getElem?_eq_getElem hlt)
    have hdrop : (b.lane side).toList.drop t =
        (b.lane side)[t] :: (b.lane side).toList.drop (t + 1) :=
      List.drop_eq_getElem_cons (by rwa [Array.length_toList])
    rw [countLane, hlvl, hdrop]
    exact ih (by omega) _

theorem writeLane_eq (h : r.Shows b w) (htn : t + n = (b.lane side).size) :
    r.writeLane w side t n = Book.writeLane side t ((b.lane side).toList.drop t) := by
  induction n generalizing t with
  | zero =>
    rw [List.drop_of_length_le (by rw [Array.length_toList]; omega)]
    rfl
  | succ n ih =>
    have hlt : t < (b.lane side).size := by omega
    have hlvl := (h.level side t).trans (Array.getElem?_eq_getElem hlt)
    have hdrop : (b.lane side).toList.drop t =
        (b.lane side)[t] :: (b.lane side).toList.drop (t + 1) :=
      List.drop_eq_getElem_cons (by rwa [Array.length_toList])
    rw [writeLane, hlvl, hdrop, Book.writeLane, ih (by omega)]

theorem writeOrders_eq (h : r.Shows b w) (slot n : Nat) :
    r.writeOrders w slot n = Book.writeOrders b.pool slot n := by
  induction n generalizing slot with
  | zero => rfl
  | succ n ih =>
    have horder := h.order slot
    cases ho : b.pool[slot]? with
    | none =>
      rw [ho, Option.map_none] at horder
      simp only [writeOrders, Book.writeOrders, horder, ho, ih (slot + 1)]
    | some o =>
      rw [ho, Option.map_some] at horder
      simp only [writeOrders, Book.writeOrders, horder, ho, ih (slot + 1)]

/-- The encoding of a root is that of the book it shows. -/
theorem encode_eq (h : r.Shows b w) (hrows : ∀ side, (b.lane side).size = b.nLevels.toNat)
    (crc32c : List UInt8 → UInt32) (buf : List UInt8) :
    r.encode crc32c w buf = Book.encode crc32c b buf := by
  have hlane : ∀ side, 0 + r.nLevels.toNat = (b.lane side).size := by
    intro side
    rw [hrows, h.nLevels, Nat.zero_add]
  have hbids := countLane_eq h (hlane 0) 0
  have hasks := countLane_eq h (hlane 1)
  have hoccupied : r.occupied w = .ok b.occupied := by
    rw [occupied, hbids]
    exact hasks _
  have hwrite : r.write w = Book.write b := by
    rw [write, hoccupied, Book.write, writeLane_eq h (hlane 0), writeLane_eq h (hlane 1),
      writeOrders_eq h, h.priceMin, h.tick, h.nLevels, h.capacity, h.hwm, h.bestBid, h.bestAsk,
      h.freeHead]
    rfl
  rw [encode, hwrite]
  rfl

end CowRoot

end HiPerf.Java
