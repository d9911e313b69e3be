import HiPerf.Churn.Pool

/-!
The numbers of the churn stream: prices, and the open quantity of a level. A
ladder may be accepted that does not fit 64 bits.
-/

namespace HiPerf

open Machine Exec

namespace Churn

/-- The i-th insert out of the two numbers drawn for it. -/
def inserted (r1 r2 : UInt64) (i nLevels : Nat) (tick priceMin : Int) : Insert where
  orderId := i64 (i64 i + 1)
  price := i64 (priceMin + i64 ((r1.toNat % nLevels : Nat) * tick))
  qty := 1 + (r2.toNat % 1000 : Nat)
  side := ((r1 >>> 32) &&& 1).toNat

theorem nextInsert_eq {nLevels : Nat} (hl : nLevels ≠ 0) (i : Nat) (tick priceMin : Int)
    (c : Churn) : nextInsert i nLevels tick priceMin c =
      .ok (inserted c.rng.next.1 c.rng.next.2.next.1 i nLevels tick priceMin)
        { c with rng := c.rng.next.2.next.2 } := by
  have hdraw : ∀ s : Churn, draw s = .ok s.rng.next.1 { s with rng := s.rng.next.2 } := fun _ => rfl
  rw [nextInsert, bind_ok (hdraw c), bind_ok (hdraw _), if_neg hl]
  rfl

/-- The price of an insert is computed within 64 bits and filed at the level drawn. -/
structure PricedAt (cfg : SmrConfig) (r1 r2 : UInt64) (i : Nat) : Prop where
  offset : InI64 ((r1.toNat % cfg.levels : Nat) * cfg.tick)
  price : InI64 (cfg.priceMin + (r1.toNat % cfg.levels : Nat) * cfg.tick)
  exact : (inserted r1 r2 i cfg.levels cfg.tick cfg.priceMin).price =
    cfg.priceMin + (r1.toNat % cfg.levels : Nat) * cfg.tick
  difference : InI64 ((inserted r1 r2 i cfg.levels cfg.tick cfg.priceMin).price - cfg.priceMin)
  tick : ∀ b : Book, b.priceMin = cfg.priceMin → b.tick = cfg.tick →
    Book.tickOf (inserted r1 r2 i cfg.levels cfg.tick cfg.priceMin).price b =
      .ok (r1.toNat % cfg.levels) b
  below : r1.toNat % cfg.levels < cfg.levels

end Churn

/-- The top of the ladder, and its distance from the bottom, are 64-bit numbers. -/
def SmrConfig.LadderFits (cfg : SmrConfig) : Prop :=
  (cfg.levels - 1) * cfg.tick ≤ 9223372036854775807 ∧
    cfg.priceMin + (cfg.levels - 1) * cfg.tick ≤ 9223372036854775807

namespace Churn

variable {cfg : SmrConfig}

theorem pricesFit_iff (h : cfg.Accepted) : cfg.PricesFit ↔ cfg.LadderFits := by
  have hl := h.levels_pos
  have ht := h.tick_pos
  have hmin := h.priceMin_i64
  constructor
  · intro hp
    have htop := hp (cfg.levels - 1) (by omega)
    rw [Int.natCast_sub hl] at htop
    exact ⟨htop.1.2, htop.2.2⟩
  · rintro ⟨hoff, htop⟩ t hlt
    have hle : (t : Int) * cfg.tick ≤ (cfg.levels - 1) * cfg.tick :=
      Int.mul_le_mul_of_nonneg_right (by omega) (Int.le_of_lt ht)
    have hnn : 0 ≤ (t : Int) * cfg.tick := Int.mul_nonneg (by omega) (Int.le_of_lt ht)
    obtain ⟨hlo, -⟩ := hmin
    exact ⟨⟨by omega, by omega⟩, by omega, by omega⟩

/-- Every pair of numbers drawn is priced right exactly on a ladder that fits. -/
theorem pricedAt_iff (h : cfg.Accepted) (i : Nat) :
    (∀ r1 r2, PricedAt cfg r1 r2 i) ↔ cfg.LadderFits := by
  rw [← pricesFit_iff h]
  constructor
  · intro hall t ht
    have hle := h.levels_le
    have hr := hall (UInt64.ofNat t) 0
    have hmod : (UInt64.ofNat t).toNat % cfg.levels = t := by
      have hself : t % 2 ^ 64 = t := Nat.mod_eq_of_lt (by omega)
      rw [UInt64.toNat_ofNat', hself, Nat.mod_eq_of_lt ht]
    have hoff := hr.offset
    have hprice := hr.price
    rw [hmod] at hoff hprice
    exact ⟨hoff, hprice⟩
  · intro hp r1 r2
    have ht : r1.toNat % cfg.levels < cfg.levels := Nat.mod_lt _ h.levels_pos
    obtain ⟨hoff, hprice⟩ := hp _ ht
    have hexact : (inserted r1 r2 i cfg.levels cfg.tick cfg.priceMin).price =
        cfg.priceMin + (r1.toNat % cfg.levels : Nat) * cfg.tick := by
      rw [inserted, i64_eq_self hoff, i64_eq_self hprice]
    have hdiff : InI64 ((inserted r1 r2 i cfg.levels cfg.tick cfg.priceMin).price - cfg.priceMin) := by
      rw [hexact, add_sub_cancel_left]
      exact hoff
    refine ⟨hoff, hprice, hexact, hdiff, fun b hmin htick => ?_, ht⟩
    have hon : cfg.grid.tickOf (inserted r1 r2 i cfg.levels cfg.tick cfg.priceMin).price =
        r1.toNat % cfg.levels := Grid.tickOf_onGrid h.grid_ok ht hexact hdiff
    have htick_pos := h.tick_pos
    simp only [Book.tickOf, get_bind, gridTick, ite_run, hmin, htick]
    rw [if_neg (by omega), if_neg (by omega)]
    exact congrArg (EStateM.Result.ok · b) hon

/-- Every level of a store that went through `ops` has the open quantity of its
orders, a sum of at most 65536 numbers of at most 1000: no 64-bit sum or
difference of it was out of range, and none of the next op is. -/
def Bounded (cfg : SmrConfig) (ops : List ChurnOp) : Prop :=
  (∀ b, Book.run (ops.map ChurnOp.call) (Book.new cfg) = .ok () b → ∀ side ≤ 1, ∀ t,
    (b.levelAt side t).qtyTotal = (restingAfter ops).levelQty cfg.grid (laneOf side) t ∧
      0 ≤ (b.levelAt side t).qtyTotal ∧ (b.levelAt side t).qtyTotal ≤ 65536000) ∧
  ∀ calls w₀ w, CowCall.ops calls = ops.map ChurnOp.call → CowBook.new cfg = .ok w₀ →
    CowBook.run calls w₀ = .ok () w → ∀ side ≤ 1, ∀ t l, w.level? side t = some l →
      l.qtyTotal = (restingAfter ops).levelQty cfg.grid (laneOf side) t ∧
        0 ≤ l.qtyTotal ∧ l.qtyTotal ≤ 65536000

end Churn

namespace Book

/-- A book that completes calls as they are due has the resting orders in it. -/
theorem run_carries {cap : Nat} {g : Grid} {L : Ledger} {ops : List Op} {b b' : Book}
    (h : b.Carries cap g L) (hdue : Due L ops) (hrun : run ops b = .ok () b') :
    b'.Carries cap g (L.after ops) := by
  induction ops generalizing L b with
  | nil =>
    cases hrun
    exact h
  | cons op ops ih =>
    obtain ⟨b₁, e, hrest⟩ := runAll_cons_eq_ok.mp hrun
    obtain ⟨-, -, s, e', h'⟩ | ⟨-, -, p, s, -, e'⟩ | ⟨-, -, s, e'⟩ := apply_comesTo h hdue.1
    · rw [e] at e'
      cases e'
      exact ih h' hdue.2 hrest
    · rw [e] at e'
      cases e'
    · rw [e] at e'
      cases e'

end Book

namespace Churn

variable {cfg : SmrConfig} {rng : SplitMix} {ops : List ChurnOp} {c : Churn}

theorem Reaches.bounded (h : cfg.Accepted) (hr : Reaches cfg rng ops c) : Bounded cfg ops := by
  have hbook : ∀ b, Book.run (ops.map ChurnOp.call) (Book.new cfg) = .ok () b → ∀ side ≤ 1, ∀ t,
      (b.levelAt side t).qtyTotal = (restingAfter ops).levelQty cfg.grid (laneOf side) t ∧
        0 ≤ (b.levelAt side t).qtyTotal ∧ (b.levelAt side t).qtyTotal ≤ 65536000 := by
    intro b hrun side _ t
    obtain ⟨f, hb, -, hgrid, q, fl, hrep, -, -⟩ :=
      Book.run_carries (Book.new_carries h.grid_ok) hr.due hrun
    have hqty := (hrep.queues (laneOf side) t).qty
    have hnn := Ledger.levelQty_nonneg hrep.valid (laneOf side) t
    have hle := Ledger.levelQty_le (by omega) hr.emitted.small cfg.grid (laneOf side) t
    have hlen := hr.emitted.resting_length.trans hr.live
    have hsize := (size_le cfg.steady ops.length).2
    have hsteady := h.steady_le.2
    rw [hgrid] at hqty hnn
    change (f.lvl (laneOf side) t).qtyTotal = (restingAfter ops).levelQty _ _ _ at hqty
    change 0 ≤ (restingAfter ops).levelQty _ _ _ at hnn
    rw [hb.levelAt_eq, hqty]
    exact ⟨rfl, hnn, by omega⟩
  refine ⟨hbook, fun calls w₀ w hcalls hnew hrun side hside t l hl => ?_⟩
  obtain ⟨w₁, e₁, h₀⟩ := CowBook.new_mirrors h.chunk_pos
  rw [hnew] at e₁
  cases e₁
  obtain ⟨b, eb, hw⟩ := (CowBook.run_tracks calls).forth h₀ hrun
  rw [hcalls] at eb
  have hsame : b.levelAt side t = l := by
    rw [Book.levelAt, ← hw.level, hl]
    rfl
  exact hsame ▸ hbook b eb side hside t

/-- The numbers of the stream of an accepted configuration. Prices are right for
all draws exactly on a ladder that fits; open quantities never overflow. -/
theorem numbers_fit (h : cfg.Accepted) :
    (∀ i, (∀ r1 r2, PricedAt cfg r1 r2 i) ↔ cfg.LadderFits) ∧
    ∀ rng : SplitMix,
      (∀ k ≤ cfg.steady, ∃ ops c, prebuild k { new cfg with rng := rng } = .ok ops c ∧
        Bounded cfg ops) ∧
      ∀ n, cfg.steady + n < 18446744073709551616 →
        ∃ pre c₀ ops c, prebuild cfg.steady { new cfg with rng := rng } = .ok pre c₀ ∧
          nextOps n c₀ = .ok ops c ∧ Bounded cfg (pre ++ ops) := by
  refine ⟨pricedAt_iff h, fun rng => ⟨fun k hk => ?_, fun n hn => ?_⟩⟩
  · obtain ⟨ops, c, e, hr, -⟩ := prebuild_reaches h.levels_pos h.steady_le.2 rng hk
    exact ⟨ops, c, e, hr.bounded h⟩
  · obtain ⟨pre, c₀, e₀, h₀, hpre⟩ :=
      prebuild_reaches h.levels_pos h.steady_le.2 rng (Nat.le_refl cfg.steady)
    obtain ⟨ops, c, e, hr, -⟩ :=
      nextOps_reaches h.levels_pos ⟨h.steady_pos, h.steady_le.2⟩ h₀ hpre hn
    exact ⟨pre, c₀, ops, c, e₀, e, hr.bounded h⟩

theorem numbers_fit_smallBook :
    (∀ i, (∀ r1 r2, PricedAt smallBook r1 r2 i) ↔ smallBook.LadderFits) ∧
    ∀ rng : SplitMix,
      (∀ k ≤ smallBook.steady, ∃ ops c, prebuild k { new smallBook with rng := rng } = .ok ops c ∧
        Bounded smallBook ops) ∧
      ∀ n, smallBook.steady + n < 18446744073709551616 →
        ∃ pre c₀ ops c, prebuild smallBook.steady { new smallBook with rng := rng } = .ok pre c₀ ∧
          nextOps n c₀ = .ok ops c ∧ Bounded smallBook (pre ++ ops) :=
  numbers_fit smallBook_accepted

/-- Three levels 2^62 apart. -/
def steepLadder : SmrConfig := ⟨4, 3, 4611686018427387904, 0, 1, 1, 100⟩

/-- The offset of its top level is 2^63; what the code makes of it is filed at no level. -/
theorem steepLadder_overflows : steepLadder.Accepted ∧
    ¬ InI64 ((2 % steepLadder.levels : Nat) * steepLadder.tick) ∧
    (inserted 2 0 0 steepLadder.levels steepLadder.tick steepLadder.priceMin).price =
      -9223372036854775808 ∧
    Book.tickOf (inserted 2 0 0 steepLadder.levels steepLadder.tick steepLadder.priceMin).price
      (Book.new steepLadder) = .ok 4294967294 (Book.new steepLadder) := by
  refine ⟨?_, by decide, by decide, ?_⟩
  · constructor <;> decide
  · rfl

end Churn

end HiPerf
