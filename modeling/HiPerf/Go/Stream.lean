import HiPerf.Churn.Stream
import HiPerf.Go.Churn

/-!
The Go generator and the Rust one side by side.
-/

namespace HiPerf

open Machine Exec Draw

namespace Churn

/-- The op of a departure of `id`, by its second draw. -/
def departure (r : UInt64) (otrBps : Nat) (id : Int) : ChurnOp :=
  if r.toNat % 10000 < otrBps then .fill id else .cancel id

/-- A departure takes the id its first draw points at. -/
theorem nextOp_departs (c : Churn) (hodd : c.i % 2 ≠ 0) (hl : c.live ≠ []) {v : Nat}
    (hdraw : c.rng.next.1.toNat % c.live.length = v) (hv : v < c.live.length) :
    nextOp c = .ok (departure c.rng.next.2.next.1 c.otrBps c.live[v])
      { c with
        rng := c.rng.next.2.next.2
        i := (c.i + 1) % 18446744073709551616
        live := swapRemove c.live v } := by
  have hdrawn : ∀ c : Churn, draw c = .ok c.rng.next.1 { c with rng := c.rng.next.2 } := fun _ => rfl
  have hlive : ∀ (rng : SplitMix) (i : Nat), liveAt v { c with rng, i } =
      .ok c.live[v] { c with rng, i } := by
    intro rng i
    simp only [liveAt, List.getElem?_eq_getElem hv]
  rw [nextOp, get_bind, if_neg (not_or.mpr ⟨hodd, hl⟩), modify_bind, bind_ok (hdrawn _)]
  simp only [hdraw]
  rw [bind_ok (hlive _ _), bind_ok (hdrawn _), modify_bind]
  rfl

end Churn

namespace Go.Churn

/-- The two generators in one state. -/
structure Same (c : HiPerf.Churn) (g : Churn) : Prop where
  rng : g.rng = c.rng
  live : g.live = c.live
  i : g.i = i64 c.i
  otrBps : g.otrBps = c.otrBps
  levels : g.levels = c.levels
  tick : g.tick = c.tick
  priceMin : g.priceMin = c.priceMin

/-- The index of 64 bits, counted up without a sign and with one. -/
theorem i64_succ (i : Nat) : i64 (i64 i + 1) = i64 ((i + 1) % 18446744073709551616 : Nat) := by
  unfold i64
  omega

theorem newChurn_same (cfg : SmrConfig) : Same (HiPerf.Churn.new cfg) (newChurn cfg) where
  rng := rfl
  live := rfl
  i := (i64_eq_self (x := 0) ⟨by decide, by decide⟩).symm
  otrBps := rfl
  levels := rfl
  tick := rfl
  priceMin := rfl

theorem next_lockstep : Lockstep True Same HiPerf.Churn.draw next := by
  apply Lockstep.of_cases
  intro c g h
  left
  refine ⟨c.rng.next.1, { c with rng := c.rng.next.2 }, { g with rng := c.rng.next.2 }, rfl, ?_,
    { h with rng := rfl }⟩
  rw [next, h.rng]

theorem nextInsert_lockstep (i : Nat) (nLevels : Nat) (tick priceMin : Int) :
    Lockstep True Same (HiPerf.Churn.nextInsert i nLevels tick priceMin)
      (nextInsert (i64 i) nLevels tick priceMin) := by
  apply next_lockstep.bind
  intro r1
  apply next_lockstep.bind
  intro r2
  by_cases hl : nLevels = 0
  · rw [if_pos hl, if_pos hl]
    exact Lockstep.throw _ _
  · rw [if_neg hl, if_neg hl]
    exact Lockstep.pure _

theorem insertOp_lockstep : Lockstep True Same HiPerf.Churn.insertOp insertOp := by
  apply Lockstep.get_bind
  intro c g h
  rw [h.i, h.levels, h.tick, h.priceMin]
  apply (nextInsert_lockstep _ _ _ _).bind
  intro ins
  apply Lockstep.bind
  · apply Lockstep.modify
    intro c g h
    exact { h with i := (congrArg (fun x => i64 (x + 1)) h.i).trans (i64_succ c.i) }
  · intro _
    apply Lockstep.bind
    · apply Lockstep.modify
      intro c g h
      exact { h with live := congrArg (· ++ [ins.orderId]) h.live }
    · intro _
      exact Lockstep.pure _

/-- The last id moves to the place of the one that leaves. -/
theorem swapRemove_eq {l : List Int} {v : Nat} (hl : l ≠ []) :
    (l.set v (l.getLast hl)).take (l.length - 1) = swapRemove l v := by
  rw [swapRemove, List.getLast?_eq_some_getLast hl]
  dsimp only
  rw [List.dropLast_eq_take, List.length_set]

theorem tmod_two {x : Int} {i : Nat} (h : (x - i) % 2 = 0) : x.tmod 2 = 0 ↔ i % 2 = 0 := by
  have hdvd : x.tmod 2 = 0 ↔ (2 : Int) ∣ x := ⟨Int.dvd_of_tmod_eq_zero, Int.tmod_eq_zero_of_dvd⟩
  rw [hdvd]
  omega

theorem nextOp_departs (g : Churn) (hodd : g.i.tmod 2 ≠ 0) (hl : g.live ≠ []) {v : Nat}
    (hdraw : g.rng.next.1.toNat % g.live.length = v) (hv : v < g.live.length) :
    nextOp g = .ok (HiPerf.Churn.departure g.rng.next.2.next.1 g.otrBps g.live[v])
      { g with
        rng := g.rng.next.2.next.2
        i := i64 (g.i + 1)
        live := swapRemove g.live v } := by
  have hpos := List.length_pos_iff.mpr hl
  have hdrawn : ∀ g : Churn, next g = .ok g.rng.next.1 { g with rng := g.rng.next.2 } := fun _ => rfl
  have hlive : ∀ (rng : SplitMix) (i : Int) (k : Nat) (hk : k < g.live.length),
      liveAt k { g with rng, i } = .ok g.live[k] { g with rng, i } := by
    intro rng i k hk
    simp only [liveAt, List.getElem?_eq_getElem hk]
  have hlast : g.live[g.live.length - 1] = g.live.getLast hl := (List.getLast_eq_getElem hl).symm
  rw [nextOp, get_bind, if_neg (not_or.mpr ⟨hodd, by omega⟩), modify_bind, bind_ok (hdrawn _)]
  simp only [hdraw]
  rw [bind_ok (hlive _ _ v hv), bind_ok (hdrawn _), bind_ok (hlive _ _ _ (by omega)), modify_bind]
  simp only [hlast, swapRemove_eq]
  rfl

theorem nextOp_lockstep : Lockstep True Same HiPerf.Churn.nextOp nextOp := by
  intro c g h
  have hparity : (g.i - c.i) % 2 = 0 := by
    rw [h.i]
    unfold i64
    omega
  have heven := tmod_two hparity
  by_cases hins : c.i % 2 = 0 ∨ c.live = []
  · have hgo : nextOp g = insertOp g := by
      rw [nextOp, get_bind, if_pos (by rwa [heven, h.live, List.length_eq_zero_iff])]
    have hrust : HiPerf.Churn.nextOp c = HiPerf.Churn.insertOp c := by
      rw [HiPerf.Churn.nextOp, get_bind, if_pos hins]
    rw [hgo, hrust]
    exact insertOp_lockstep c g h
  · obtain ⟨hodd, hl⟩ := not_or.mp hins
    obtain ⟨rng, live, i, otrBps, levels, tick, priceMin⟩ := g
    obtain ⟨rfl, rfl, hi, rfl, rfl, rfl, rfl⟩ := h
    have hv := Nat.mod_lt c.rng.next.1.toNat (List.length_pos_iff.mpr hl)
    have hrust := HiPerf.Churn.nextOp_departs c hodd hl rfl hv
    have hgo := nextOp_departs ⟨c.rng, c.live, i, c.otrBps, c.levels, c.tick, c.priceMin⟩
      (mt heven.mp hodd) hl rfl hv
    have hsame : Same { c with
          rng := c.rng.next.2.next.2
          i := (c.i + 1) % 18446744073709551616
          live := swapRemove c.live (c.rng.next.1.toNat % c.live.length) }
        ⟨c.rng.next.2.next.2, swapRemove c.live (c.rng.next.1.toNat % c.live.length), i64 (i + 1),
          c.otrBps, c.levels, c.tick, c.priceMin⟩ := by
      constructor
      · rfl
      · rfl
      · exact (congrArg (fun x => i64 (x + 1)) hi).trans (i64_succ c.i)
      · rfl
      · rfl
      · rfl
      · rfl
    constructor
    · intro op c' e
      rw [hrust] at e
      cases e
      exact ⟨_, hgo, hsame⟩
    · intro _ op g' e
      rw [hgo] at e
      cases e
      exact ⟨_, hrust, hsame⟩

end Go.Churn

end HiPerf
