import HiPerf.Churn.Prices
import HiPerf.Go.Stream
import HiPerf.Java.Churn

/-!
The Java generator beside the Rust one, as long as its op index fits 32 bits and its array has
room; and the streams of all three languages.
-/

namespace HiPerf

open Machine Exec Draw

namespace Java

theorem toInt_toInt64 {x : UInt64} (h : x.toNat < 9223372036854775808) : x.toInt64.toInt = x.toNat := by
  have hx : x.toInt64 = Int64.ofNat x.toNat := by
    rw [← UInt64.toInt64_ofNat', UInt64.ofNat_toNat]
  rw [hx, Int64.toInt_ofNat_of_lt h]

/-- An unsigned remainder by a divisor that is not negative. -/
theorem remainderUnsigned_toInt (x : UInt64) {n : Nat} (hpos : 0 < n)
    (hn : n < 9223372036854775808) :
    (remainderUnsigned x.toInt64 (Int64.ofInt n)).toInt = (x.toNat % n : Nat) := by
  have hmod : (x % UInt64.ofNat n).toNat = x.toNat % n := by
    rw [UInt64.toNat_mod, UInt64.toNat_ofNat_of_lt' (Nat.lt_trans hn (by decide))]
  have hlt : x.toNat % n < n := Nat.mod_lt _ hpos
  rw [remainderUnsigned, UInt64.toUInt64_toInt64, Int64.ofInt_eq_ofNat, Int64.toUInt64_ofNat',
    toInt_toInt64 (by omega), hmod]

theorem ushr_and_one (x : UInt64) :
    (ushr x.toInt64 32 &&& (1 : Int64)).toInt.toNat = ((x >>> 32) &&& 1).toNat := by
  have hle : ((x >>> 32) &&& 1).toNat ≤ 1 := by
    rw [UInt64.toNat_and]
    exact Nat.and_le_right
  have hand : ushr x.toInt64 32 &&& (1 : Int64) = ((x >>> 32) &&& 1).toInt64 := rfl
  rw [hand, toInt_toInt64 (by omega), Int.toNat_natCast]

/-- The two random number generators in one state give the same bits. -/
theorem SplitMix.next_eq (g : HiPerf.SplitMix) :
    SplitMix.next ⟨g.state.toInt64⟩ = (g.next.1.toInt64, ⟨g.next.2.state.toInt64⟩) := rfl

end Java

/-- An insert takes the op index for its id, and two draws for the rest. -/
theorem Churn.insertOp_draws (c : Churn) (hl : c.levels ≠ 0) :
    insertOp c = .ok (.insert (i64 (c.i + 1))
        (i64 (c.priceMin + i64 ((c.rng.next.1.toNat % c.levels : Nat) * c.tick)))
        (1 + (c.rng.next.2.next.1.toNat % 1000 : Nat)) ((c.rng.next.1 >>> 32) &&& 1).toNat)
      { c with
        rng := c.rng.next.2.next.2
        i := (c.i + 1) % 18446744073709551616
        live := c.live ++ [i64 (c.i + 1)] } := by
  have hid : i64 (i64 c.i + 1) = i64 (c.i + 1) := by
    unfold i64
    omega
  have hdrawn : ∀ c : Churn, draw c = .ok c.rng.next.1 { c with rng := c.rng.next.2 } := fun _ => rfl
  have hins : nextInsert c.i c.levels c.tick c.priceMin c = .ok
      ⟨i64 (i64 c.i + 1), i64 (c.priceMin + i64 ((c.rng.next.1.toNat % c.levels : Nat) * c.tick)),
        1 + (c.rng.next.2.next.1.toNat % 1000 : Nat), ((c.rng.next.1 >>> 32) &&& 1).toNat⟩
      { c with rng := c.rng.next.2.next.2 } := by
    rw [nextInsert, bind_ok (hdrawn c), bind_ok (hdrawn _), if_neg hl]
    rfl
  rw [insertOp, get_bind, bind_ok hins, hid]
  rfl

namespace Java.Churn

/-- The two generators in one state, the Java one over an array of `size` cells. -/
structure Same (size : Nat) (c : HiPerf.Churn) (j : Churn) : Prop where
  rng : j.rng = ⟨c.rng.state.toInt64⟩
  size : j.live.size = size
  live : ∀ k < c.live.length, j.live[k]? = c.live[k]?
  liveN : j.liveN = c.live.length
  i : j.i = c.i
  otrBps : j.otrBps = c.otrBps
  levels : j.levels = c.levels
  tick : j.tick = c.tick
  priceMin : j.priceMin = c.priceMin

variable {size : Nat} {c : HiPerf.Churn} {j : Churn}

theorem next_eq (h : Same size c j) :
    next j = .ok c.rng.next.1.toInt64 { j with rng := ⟨c.rng.next.2.state.toInt64⟩ } := by
  rw [next, h.rng, SplitMix.next_eq]

theorem liveAt_eq {id : Int} {k : Nat} (hk : j.live[k]? = some id) : liveAt k j = .ok id j := by
  obtain ⟨hlt, -⟩ := Array.getElem?_eq_some_iff.mp hk
  rw [liveAt, if_pos ⟨Int.natCast_nonneg k, by omega⟩, Int.toNat_natCast, hk]
  rfl

theorem setLive_eq {k : Nat} (hk : k < j.live.size) (id : Int) :
    setLive k id j = .ok () { j with live := j.live.setIfInBounds k id } := by
  rw [setLive, if_pos ⟨Int.natCast_nonneg k, by omega⟩, Int.toNat_natCast]

theorem insertOp_ok (h : Same size c j) (hl : c.levels ≠ 0) (hlevels : c.levels ≤ 65535)
    (hi : c.i < 2147483647) (hroom : c.live.length < size) (hsize : size ≤ 2147483647) :
    ∃ op c' j', HiPerf.Churn.insertOp c = .ok op c' ∧ insertOp j = .ok op j' ∧ Same size c' j' := by
  have hrust := HiPerf.Churn.insertOp_draws c hl
  have hjl : j.levels ≠ 0 := by
    rw [h.levels]
    omega
  have hnext : next { j with rng := ⟨c.rng.next.2.state.toInt64⟩ } =
      .ok c.rng.next.2.next.1.toInt64 { j with rng := ⟨c.rng.next.2.next.2.state.toInt64⟩ } := by
    rw [next, SplitMix.next_eq]
  have hid : i32 (j.i + 1) = i64 (c.i + 1) := by
    rw [h.i]
    unfold i32 i64
    omega
  have hins : nextInsert j.i j.levels j.tick j.priceMin j = .ok
      ⟨i64 (c.i + 1), i64 (c.priceMin + i64 ((c.rng.next.1.toNat % c.levels : Nat) * c.tick)),
        1 + (c.rng.next.2.next.1.toNat % 1000 : Nat), ((c.rng.next.1 >>> 32) &&& 1).toNat⟩
      { j with rng := ⟨c.rng.next.2.next.2.state.toInt64⟩ } := by
    have hlevel := remainderUnsigned_toInt c.rng.next.1 (Nat.pos_of_ne_zero hl) (by omega)
    have hqty := remainderUnsigned_toInt c.rng.next.2.next.1 (n := 1000) (by decide) (by decide)
    have hthousand : Int64.ofInt (1000 : Nat) = 1000 := rfl
    have hfit : i64 (1 + (c.rng.next.2.next.1.toNat % 1000 : Nat)) =
        1 + (c.rng.next.2.next.1.toNat % 1000 : Nat) := by
      unfold i64
      omega
    rw [hthousand] at hqty
    rw [nextInsert, bind_ok (next_eq h), bind_ok hnext, if_neg hjl]
    simp only [pure_run, hid, h.levels, h.priceMin, h.tick, hlevel, hqty, hfit, ushr_and_one]
  have hput : setLive j.liveN (i64 (c.i + 1))
      { j with
        rng := ⟨c.rng.next.2.next.2.state.toInt64⟩
        i := i32 (j.i + 1)
        liveN := i32 (j.liveN + 1) } = .ok ()
      { j with
        rng := ⟨c.rng.next.2.next.2.state.toInt64⟩
        i := i32 (j.i + 1)
        liveN := i32 (j.liveN + 1)
        live := j.live.setIfInBounds c.live.length (i64 (c.i + 1)) } := by
    rw [h.liveN]
    exact setLive_eq (j := { j with
        rng := ⟨c.rng.next.2.next.2.state.toInt64⟩
        i := i32 (j.i + 1)
        liveN := i32 (c.live.length + 1) }) (by rw [h.size]; exact hroom) _
  have hjava : insertOp j = .ok (.insert (i64 (c.i + 1))
      (i64 (c.priceMin + i64 ((c.rng.next.1.toNat % c.levels : Nat) * c.tick)))
      (1 + (c.rng.next.2.next.1.toNat % 1000 : Nat)) ((c.rng.next.1 >>> 32) &&& 1).toNat)
      { j with
        rng := ⟨c.rng.next.2.next.2.state.toInt64⟩
        i := i32 (j.i + 1)
        liveN := i32 (j.liveN + 1)
        live := j.live.setIfInBounds c.live.length (i64 (c.i + 1)) } := by
    rw [insertOp, get_bind, bind_ok hins, modify_bind, modify_bind, bind_ok hput]
    rfl
  refine ⟨_, _, _, hrust, hjava, ?_⟩
  constructor
  · rfl
  · exact Array.size_setIfInBounds.trans h.size
  · intro k hk
    rw [List.length_append, List.length_singleton] at hk
    rw [Array.getElem?_setIfInBounds]
    by_cases e : c.live.length = k
    · rw [if_pos e, if_pos (by rw [h.size]; omega), ← e, List.getElem?_concat_length]
    · rw [if_neg e, h.live k (by omega), List.getElem?_append_left (by omega)]
  · dsimp only
    rw [h.liveN, List.length_append, List.length_singleton]
    unfold i32
    omega
  · dsimp only
    rw [h.i]
    unfold i32
    omega
  · exact h.otrBps
  · exact h.levels
  · exact h.tick
  · exact h.priceMin

theorem depart_ok (h : Same size c j) (hodd : c.i % 2 ≠ 0) (hl : c.live ≠ [])
    (hi : c.i < 2147483647) (hroom : c.live.length ≤ size) (hsize : size ≤ 2147483647) :
    ∃ op c' j', HiPerf.Churn.nextOp c = .ok op c' ∧ nextOp j = .ok op j' ∧ Same size c' j' := by
  have hpos := List.length_pos_iff.mpr hl
  generalize hdraw : c.rng.next.1.toNat % c.live.length = v
  have hv : v < c.live.length := hdraw ▸ Nat.mod_lt _ hpos
  have hrust := HiPerf.Churn.nextOp_departs c hodd hl hdraw hv
  have hlast : c.live[c.live.length - 1] = c.live.getLast hl := (List.getLast_eq_getElem hl).symm
  have hparity : (j.i - c.i) % 2 = 0 := by
    rw [h.i]
    omega
  have hjodd : ¬ (j.i.tmod 2 = 0 ∨ j.liveN = 0) := by
    rw [Go.Churn.tmod_two hparity, h.liveN]
    omega
  have hindex : i32 (remainderUnsigned c.rng.next.1.toInt64 (Int64.ofInt j.liveN)).toInt = v := by
    rw [h.liveN, remainderUnsigned_toInt _ hpos (by omega), hdraw]
    unfold i32
    omega
  have hlastN : j.liveN - 1 = ((c.live.length - 1 : Nat) : Int) := by
    rw [h.liveN]
    omega
  have hfill : (remainderUnsigned c.rng.next.2.next.1.toInt64 10000).toInt < j.otrBps ↔
      c.rng.next.2.next.1.toNat % 10000 < c.otrBps := by
    have hrem := remainderUnsigned_toInt c.rng.next.2.next.1 (n := 10000) (by decide) (by decide)
    have hten : Int64.ofInt (10000 : Nat) = 10000 := rfl
    rw [hten] at hrem
    rw [hrem, h.otrBps]
    omega
  have hread : ∀ (rng : SplitMix) (i : Int) (k : Nat) (hk : k < c.live.length),
      liveAt k { j with rng, i } = .ok c.live[k] { j with rng, i } := by
    intro rng i k hk
    exact liveAt_eq (j := { j with rng, i }) ((h.live k hk).trans (List.getElem?_eq_getElem hk))
  have hwrite : ∀ (rng : SplitMix) (i : Int), setLive v (c.live.getLast hl) { j with rng, i } =
      .ok () { j with rng, i, live := j.live.setIfInBounds v (c.live.getLast hl) } := by
    intro rng i
    exact setLive_eq (j := { j with rng, i }) (by rw [h.size]; omega) _
  have hnext : ∀ i : Int, next { j with i } =
      .ok c.rng.next.1.toInt64 { j with i, rng := ⟨c.rng.next.2.state.toInt64⟩ } := by
    intro i
    rw [next, h.rng, SplitMix.next_eq]
  have hnext' : ∀ i : Int, next { j with i, rng := ⟨c.rng.next.2.state.toInt64⟩ } =
      .ok c.rng.next.2.next.1.toInt64 { j with i, rng := ⟨c.rng.next.2.next.2.state.toInt64⟩ } := by
    intro i
    rw [next, SplitMix.next_eq]
  have hjava : nextOp j = .ok (HiPerf.Churn.departure c.rng.next.2.next.1 c.otrBps c.live[v])
      { j with
        i := i32 (j.i + 1)
        rng := ⟨c.rng.next.2.next.2.state.toInt64⟩
        live := j.live.setIfInBounds v (c.live.getLast hl)
        liveN := (c.live.length - 1 : Nat) } := by
    rw [nextOp, get_bind, if_neg hjodd, modify_bind, bind_ok (hnext _)]
    simp only [hindex]
    rw [bind_ok (hread _ _ v hv), bind_ok (hnext' _), hlastN, bind_ok (hread _ _ _ (by omega)), hlast,
      bind_ok (hwrite _ _), modify_bind]
    simp only [hfill, hlastN]
    rfl
  refine ⟨_, _, _, hrust, hjava, ?_⟩
  have hlen : (swapRemove c.live v).length = c.live.length - 1 := by
    rw [← Go.Churn.swapRemove_eq hl, List.length_take, List.length_set]
    omega
  constructor
  · rfl
  · exact Array.size_setIfInBounds.trans h.size
  · intro k hk
    rw [hlen] at hk
    rw [← Go.Churn.swapRemove_eq hl, List.getElem?_take_of_lt hk, Array.getElem?_setIfInBounds,
      List.getElem?_set, h.size]
    by_cases e : v = k
    · rw [if_pos e, if_pos e, if_pos (by omega), if_pos (by omega)]
    · rw [if_neg e, if_neg e, h.live k (by omega)]
  · rw [hlen]
  · dsimp only
    rw [h.i]
    unfold i32
    omega
  · exact h.otrBps
  · exact h.levels
  · exact h.tick
  · exact h.priceMin

theorem nextOp_ok (h : Same size c j) (hl : c.levels ≠ 0) (hlevels : c.levels ≤ 65535)
    (hi : c.i < 2147483647) (hroom : c.live.length ≤ size)
    (hfree : c.i % 2 = 0 ∨ c.live = [] → c.live.length < size) (hsize : size ≤ 2147483647) :
    ∃ op c' j', HiPerf.Churn.nextOp c = .ok op c' ∧ nextOp j = .ok op j' ∧ Same size c' j' := by
  by_cases hins : c.i % 2 = 0 ∨ c.live = []
  · obtain ⟨op, c', j', e, e', h'⟩ := insertOp_ok h hl hlevels hi (hfree hins) hsize
    have hparity : (j.i - c.i) % 2 = 0 := by
      rw [h.i]
      omega
    have hjins : j.i.tmod 2 = 0 ∨ j.liveN = 0 := by
      rw [Go.Churn.tmod_two hparity, h.liveN]
      rw [← List.length_eq_zero_iff] at hins
      omega
    refine ⟨op, c', j', ?_, ?_, h'⟩
    · rw [HiPerf.Churn.nextOp, get_bind, if_pos hins, e]
    · rw [nextOp, get_bind, if_pos hjins, e']
  · obtain ⟨hodd, hne⟩ := not_or.mp hins
    exact depart_ok h hodd hne hi hroom hsize

theorem repeated_eq_collect (next : Run HiPerf.Churn ChurnOp) (n : Nat) :
    HiPerf.Churn.repeated next n = collect next n := by
  induction n with
  | zero => rfl
  | succ n ih => rw [HiPerf.Churn.repeated, collect, ih]

variable {cfg : SmrConfig} {pre ops : List ChurnOp} {rng : HiPerf.SplitMix}

/-- The array of the live ids has room for an insert that comes after any ops of the stream. -/
theorem room_of_reaches (h : HiPerf.Churn.Reaches cfg rng ops c) (hsteady : cfg.steady ≤ cfg.cap) :
    c.live.length ≤ cfg.cap + 1 ∧
      (ops.length < cfg.steady ∨ ops.length % 2 = 0 → c.live.length < cfg.cap + 1) := by
  have hlive := h.live
  have hle := (HiPerf.Churn.size_le cfg.steady ops.length).2
  constructor
  · omega
  · intro hins
    have hnext := HiPerf.Churn.size_insert hins
    have hle' := (HiPerf.Churn.size_le cfg.steady (ops.length + 1)).2
    omega

theorem prebuild_ok (ha : cfg.Accepted) (hcap : cfg.cap < 2147483647)
    (h₀ : Same (cfg.cap + 1) (HiPerf.Churn.new cfg) j) {k : Nat} (hk : k ≤ cfg.steady) :
    ∃ ops c j', HiPerf.Churn.prebuild k (HiPerf.Churn.new cfg) = .ok ops c ∧
      prebuild k j = .ok ops j' ∧ Same (cfg.cap + 1) c j' ∧
      HiPerf.Churn.Reaches cfg ⟨SEED⟩ ops c ∧ ops.length = k := by
  induction k with
  | zero => exact ⟨[], _, j, rfl, rfl, h₀, HiPerf.Churn.new_reaches cfg ⟨SEED⟩, rfl⟩
  | succ k ih =>
    obtain ⟨ops, c, j', e, e', hsame, hr, hlen⟩ := ih (Nat.le_of_succ_le hk)
    have hlevels := hr.emitted.levels
    have hpos := ha.levels_pos
    have hle := ha.levels_le
    have hsteady := ha.steady_le
    have hi := hr.emitted.i
    obtain ⟨op, c', eop, hr'⟩ := hr.insert hpos hsteady.2 (by omega) (.inl (by omega))
    obtain ⟨op₂, c₂, j'', eop₂, ejava, hsame'⟩ := insertOp_ok hsame (by omega) (by omega) (by omega)
      ((room_of_reaches hr hsteady.1).2 (.inl (by omega))) (by omega)
    rw [eop] at eop₂
    cases eop₂
    refine ⟨ops ++ [op], c', j'', ?_, collect_succ_eq_ok.mpr ⟨ops, op, j', e', ejava, rfl⟩, hsame', hr',
      by rw [List.length_append, hlen]; rfl⟩
    rw [HiPerf.Churn.prebuild, repeated_eq_collect] at e ⊢
    exact collect_succ_eq_ok.mpr ⟨ops, op, c, e, eop, rfl⟩

theorem nextOps_ok (ha : cfg.Accepted) (hcap : cfg.cap < 2147483647)
    (h₀ : Same (cfg.cap + 1) c j) (hr₀ : HiPerf.Churn.Reaches cfg rng pre c)
    (hpre : pre.length = cfg.steady) {n : Nat} (hn : cfg.steady + n ≤ 2147483647) :
    ∃ ops c' j', HiPerf.Churn.nextOps n c = .ok ops c' ∧ nextOps n j = .ok ops j' ∧
      Same (cfg.cap + 1) c' j' ∧ HiPerf.Churn.Reaches cfg rng (pre ++ ops) c' ∧ ops.length = n := by
  induction n with
  | zero => exact ⟨[], c, j, rfl, rfl, h₀, by rwa [List.append_nil], rfl⟩
  | succ n ih =>
    obtain ⟨ops, c', j', e, e', hsame, hr, hlen⟩ := ih (by omega)
    have hlevels := hr.emitted.levels
    have hpos := ha.levels_pos
    have hle := ha.levels_le
    have hsteady := ha.steady_le
    have hi := hr.emitted.i
    have hall : (pre ++ ops).length = cfg.steady + n := by rw [List.length_append, hpre, hlen]
    have hroom := room_of_reaches hr hsteady.1
    have hlive := hr.live
    have hstep : ∃ op c'', HiPerf.Churn.nextOp c' = .ok op c'' ∧
        HiPerf.Churn.Reaches cfg rng (pre ++ ops ++ [op]) c'' := by
      by_cases heven : (pre ++ ops).length % 2 = 0
      · rw [HiPerf.Churn.nextOp_even (by rw [hi]; exact heven)]
        exact hr.insert hpos hsteady.2 (by omega) (.inr heven)
      · exact hr.depart ha.steady_pos (by omega) (by omega) heven
    obtain ⟨op, c'', eop, hr'⟩ := hstep
    obtain ⟨op₂, c₂, j'', eop₂, ejava, hsame'⟩ := nextOp_ok hsame (by omega) (by omega) (by omega)
      hroom.1 (fun hins => by
        cases hins with
        | inl heven => exact hroom.2 (.inr (hi ▸ heven))
        | inr hnil =>
          rw [hnil]
          exact Nat.succ_pos _) (by omega)
    rw [eop] at eop₂
    cases eop₂
    refine ⟨ops ++ [op], c'', j'', ?_, collect_succ_eq_ok.mpr ⟨ops, op, j', e', ejava, rfl⟩, hsame', ?_,
      by rw [List.length_append, hlen]; rfl⟩
    · rw [HiPerf.Churn.nextOps, repeated_eq_collect] at e ⊢
      exact collect_succ_eq_ok.mpr ⟨ops, op, c', e, eop, rfl⟩
    · rwa [← List.append_assoc]

theorem newChurn_same (hcap : cfg.cap < 2147483647) :
    ∃ j, newChurn cfg = .ok j ∧ Same (cfg.cap + 1) (HiPerf.Churn.new cfg) j := by
  have hfit : ¬ i32 (cfg.cap + 1) < 0 := by
    unfold i32
    omega
  refine ⟨_, by rw [newChurn, if_neg hfit]; rfl, ?_⟩
  constructor
  · rfl
  · exact Array.size_replicate
  · exact nofun
  · rfl
  · rfl
  · rfl
  · rfl
  · rfl
  · rfl

end Java.Churn

/-- The generators of the three languages hand the same ops to their stores, as long as the op
index of the Java one fits 32 bits. -/
theorem streams_agree {cfg : SmrConfig} (h : cfg.Accepted) (hcap : cfg.cap < 2147483647) {n : Nat}
    (hn : cfg.steady + n ≤ 2147483647) :
    ∃ pre c₀ ops c g₀ g j j₀ j', Churn.prebuild cfg.steady (Churn.new cfg) = .ok pre c₀ ∧
      Churn.nextOps n c₀ = .ok ops c ∧
      Go.Churn.prebuild cfg.steady (Go.newChurn cfg) = .ok pre g₀ ∧
      Go.Churn.nextOps n g₀ = .ok ops g ∧
      Java.newChurn cfg = .ok j ∧ Java.Churn.prebuild cfg.steady j = .ok pre j₀ ∧
      Java.Churn.nextOps n j₀ = .ok ops j' := by
  obtain ⟨j, ej, hj⟩ := Java.Churn.newChurn_same hcap
  obtain ⟨pre, c₀, j₀, epre, epre', hj₀, hr₀, hpre⟩ :=
    Java.Churn.prebuild_ok h hcap hj (Nat.le_refl cfg.steady)
  obtain ⟨ops, c, j', eops, eops', -⟩ := Java.Churn.nextOps_ok h hcap hj₀ hr₀ hpre hn
  have hrust := epre
  have hrust' := eops
  rw [Churn.prebuild, Java.Churn.repeated_eq_collect] at hrust
  rw [Churn.nextOps, Java.Churn.repeated_eq_collect] at hrust'
  obtain ⟨g₀, egpre, hg₀⟩ := (Go.Churn.insertOp_lockstep.collect cfg.steady).forth
    (Go.Churn.newChurn_same cfg) hrust
  obtain ⟨g, egops, -⟩ := (Go.Churn.nextOp_lockstep.collect n).forth hg₀ hrust'
  exact ⟨pre, c₀, ops, c, g₀, g, j, j₀, j', epre, eops, egpre, egops, ej, epre', eops'⟩

theorem streams_agree_smallBook :
    ∃ pre c₀ ops c g₀ g j j₀ j',
      Churn.prebuild smallBook.steady (Churn.new smallBook) = .ok pre c₀ ∧
      Churn.nextOps 1000 c₀ = .ok ops c ∧
      Go.Churn.prebuild smallBook.steady (Go.newChurn smallBook) = .ok pre g₀ ∧
      Go.Churn.nextOps 1000 g₀ = .ok ops g ∧
      Java.newChurn smallBook = .ok j ∧ Java.Churn.prebuild smallBook.steady j = .ok pre j₀ ∧
      Java.Churn.nextOps 1000 j₀ = .ok ops j' :=
  streams_agree smallBook_accepted (by decide) (by decide)

end HiPerf
