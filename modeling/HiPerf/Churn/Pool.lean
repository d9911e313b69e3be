import HiPerf.Churn.Stream
import HiPerf.Cow.Exhausted
import HiPerf.Snapshot.Mismatch

/-!
Whether a pool lasts for the churn stream. The environment loader compares the
steady size with the capacity, but an even steady size is followed by an insert.
-/

namespace HiPerf

open Machine Exec

/-- The generator after `n` draws. -/
def SplitMix.skip (g : SplitMix) : Nat → SplitMix
  | 0 => g
  | n + 1 => (g.skip n).next.2

namespace Churn

/-- How many orders rest after `k` ops, the prebuild included. -/
def size (steady k : Nat) : Nat := if k ≤ steady then k else liveSize steady (k - steady)

/-- The price of the insert that `2 * k` draws go before. -/
def drawnPrice (cfg : SmrConfig) (rng : SplitMix) (k : Nat) : Int :=
  i64 (cfg.priceMin + i64 (drawnLevel (rng.skip (2 * k)) cfg.levels * cfg.tick))

/-- A pool of `room` slots lasts for `n` ops: it has slots for the most orders
that rest at a time, or a price off the ladder stops the store before it is full. -/
def Lasts (cfg : SmrConfig) (rng : SplitMix) (n room : Nat) : Prop :=
  peak cfg.steady n ≤ room ∨ ∃ k < room, cfg.levels ≤ cfg.grid.tickOf (drawnPrice cfg rng k)

/-- The op that comes after `k` others, of which `L` rest. -/
structure Turn (cfg : SmrConfig) (rng : SplitMix) (k : Nat) (L : Ledger) (op : ChurnOp) : Prop where
  size : L.length = size cfg.steady k
  isInsert : op.isInsert = true ↔ k < cfg.steady ∨ k % 2 = 0
  drawn : k < cfg.steady → ∃ orderId qty side, op = .insert orderId (drawnPrice cfg rng k) qty side

/-- The generator after the ops of a prebuild and those that follow it. -/
structure Reaches (cfg : SmrConfig) (rng : SplitMix) (ops : List ChurnOp) (c : Churn) : Prop where
  emitted : Emitted cfg ops c
  live : c.live.length = size cfg.steady ops.length
  draws : ops.length ≤ cfg.steady → c.rng = rng.skip (2 * ops.length)
  turns : ∀ k op, ops[k]? = some op → Turn cfg rng k (restingAfter (ops.take k)) op
  due : Due [] (ops.map ChurnOp.call)

theorem due_concat {L : Ledger} {ops : List Op} {op : Op} :
    Due L (ops ++ [op]) ↔ Due L ops ∧ op.Due (L.after ops) := by
  induction ops generalizing L with
  | nil => simp [Due]
  | cons o ops ih => simp only [List.cons_append, Due, ih, Ledger.after_cons, and_assoc]

variable {cfg : SmrConfig} {rng : SplitMix} {c c' : Churn} {ops : List ChurnOp} {op : ChurnOp}

theorem size_le (steady k : Nat) : size steady k ≤ k ∧ size steady k ≤ steady + 1 := by
  unfold size liveSize
  split
  · omega
  · split <;> omega

theorem size_insert {steady k : Nat} (h : k < steady ∨ k % 2 = 0) :
    size steady (k + 1) = size steady k + 1 := by
  unfold size liveSize
  split <;> split <;> (try split) <;> omega

theorem size_depart {steady k : Nat} (hs : 1 ≤ steady) (hge : steady ≤ k) (hodd : k % 2 ≠ 0) :
    size steady (k + 1) + 1 = size steady k := by
  unfold size liveSize
  rw [if_neg (by omega)]
  split <;> split <;> omega

theorem Emitted.resting_length (h : Emitted cfg ops c) :
    (restingAfter ops).length = c.live.length := by
  rw [h.live_resting.length_eq, Ledger.ids, List.length_map]

/-- One op more. -/
theorem Reaches.concat (h : Reaches cfg rng ops c) (he : Emitted cfg (ops ++ [op]) c')
    (hlive : c'.live.length = size cfg.steady (ops.length + 1))
    (hrng : ops.length + 1 ≤ cfg.steady → c'.rng = rng.skip (2 * (ops.length + 1)))
    (hins : op.isInsert = true ↔ ops.length < cfg.steady ∨ ops.length % 2 = 0)
    (hdrawn : ops.length < cfg.steady →
      ∃ orderId qty side, op = .insert orderId (drawnPrice cfg rng ops.length) qty side)
    (hdue : op.call.Due (restingAfter ops)) : Reaches cfg rng (ops ++ [op]) c' := by
  refine ⟨he, by simpa using hlive, by simpa using hrng, fun k o hk => ?_, ?_⟩
  · rcases Nat.lt_trichotomy k ops.length with hlt | rfl | hgt
    · rw [List.getElem?_append_left hlt] at hk
      rw [List.take_append_of_le_length (Nat.le_of_lt hlt)]
      exact h.turns k o hk
    · rw [List.getElem?_concat_length] at hk
      cases hk
      rw [List.take_left]
      exact ⟨h.emitted.resting_length.trans h.live, hins, hdrawn⟩
    · have hnone : (ops ++ [op])[k]? = none :=
        List.getElem?_eq_none (by rw [List.length_append, List.length_singleton]; exact hgt)
      rw [hnone] at hk
      cases hk
  · rw [List.map_append, List.map_cons, List.map_nil, due_concat]
    exact ⟨h.due, hdue⟩

theorem Reaches.insert (h : Reaches cfg rng ops c) (hl : 1 ≤ cfg.levels) (hs : cfg.steady ≤ 65535)
    (hlen : ops.length + 1 < 18446744073709551616)
    (hturn : ops.length < cfg.steady ∨ ops.length % 2 = 0) :
    ∃ op c', insertOp c = .ok op c' ∧ Reaches cfg rng (ops ++ [op]) c' := by
  obtain ⟨qty, side, hqty, hside, hnew, op, c', rfl, e, he, hrng, hlive⟩ := h.emitted.insert hl hlen
  have hsize := h.emitted.resting_length.trans h.live
  have hle := (size_le cfg.steady ops.length).2
  refine ⟨_, c', e, h.concat he ?_ (fun hle => ?_) ⟨fun _ => hturn, fun _ => rfl⟩ (fun hlt => ?_) ?_⟩
  · rw [hlive, List.length_append, h.live, List.length_singleton, size_insert hturn]
  · rw [hrng, h.draws (by omega)]
    rfl
  · rw [h.draws (Nat.le_of_lt hlt)]
    exact ⟨_, _, _, rfl⟩
  · refine ⟨⟨inI64_i64 _, inI64_i64 _, ⟨by omega, by omega⟩⟩, fun h0 => ?_, fun hm => ?_, hside, hqty.1,
      ?_, fun g x t => ?_⟩
    · unfold i64 at h0
      omega
    · exact hnew (h.emitted.live_resting.mem_iff.mpr hm)
    · simp only [NIL]
      omega
    · have := Ledger.levelQty_le (by omega) h.emitted.small g x t
      omega

theorem Reaches.depart (h : Reaches cfg rng ops c) (hs : 1 ≤ cfg.steady)
    (hlen : ops.length + 1 < 18446744073709551616) (hge : cfg.steady ≤ ops.length)
    (hodd : ops.length % 2 ≠ 0) :
    ∃ op c', nextOp c = .ok op c' ∧ Reaches cfg rng (ops ++ [op]) c' := by
  have hne : c.live ≠ [] := by
    refine List.length_pos_iff.mp ?_
    have := size_depart hs hge hodd
    have := h.live
    omega
  obtain ⟨orderId, op, c', hop, e, he, hperm⟩ := h.emitted.depart hodd hne hlen
  have hmem : orderId ∈ (restingAfter ops).ids :=
    h.emitted.live_resting.mem_iff.mp (hperm.mem_iff.mpr List.mem_cons_self)
  refine ⟨op, c', e, h.concat he ?_ (fun hle => ?_) ⟨fun hi => ?_, fun ht => ?_⟩ (fun hlt => ?_) ?_⟩
  · have hlive := hperm.length_eq
    rw [h.live, List.length_cons, ← size_depart hs hge hodd] at hlive
    omega
  · omega
  · rcases hop with rfl | rfl <;> cases hi
  · omega
  · omega
  · rcases hop with rfl | rfl <;> exact hmem

theorem new_reaches (cfg : SmrConfig) (rng : SplitMix) :
    Reaches cfg rng [] { new cfg with rng := rng } := by
  refine ⟨⟨rfl, rfl, rfl, rfl, List.nodup_nil, List.Perm.nil, nofun, nofun⟩, ?_, fun _ => rfl, nofun,
    trivial⟩
  rw [List.length_nil, size, if_pos (Nat.zero_le _)]
  rfl

theorem prebuild_reaches (hl : 1 ≤ cfg.levels) (hs : cfg.steady ≤ 65535) (rng : SplitMix) {k : Nat}
    (hk : k ≤ cfg.steady) :
    ∃ ops c, prebuild k { new cfg with rng := rng } = .ok ops c ∧ Reaches cfg rng ops c ∧
      ops.length = k := by
  induction k with
  | zero => exact ⟨[], _, rfl, new_reaches cfg rng, rfl⟩
  | succ k ih =>
    obtain ⟨ops, c, e, h, hlen⟩ := ih (by omega)
    obtain ⟨op, c', e', h'⟩ := h.insert hl hs (by omega) (.inl (by omega))
    exact ⟨ops ++ [op], c', bind_eq_ok.mpr ⟨ops, c, e, bind_eq_ok.mpr ⟨op, c', e', rfl⟩⟩, h',
      by simp [hlen]⟩

theorem nextOps_reaches (hl : 1 ≤ cfg.levels) (hs : 1 ≤ cfg.steady ∧ cfg.steady ≤ 65535)
    {pre : List ChurnOp} {c₀ : Churn} (h₀ : Reaches cfg rng pre c₀) (hpre : pre.length = cfg.steady)
    {n : Nat} (hn : cfg.steady + n < 18446744073709551616) :
    ∃ ops c, nextOps n c₀ = .ok ops c ∧ Reaches cfg rng (pre ++ ops) c ∧ ops.length = n := by
  induction n with
  | zero => exact ⟨[], c₀, rfl, by simpa using h₀, rfl⟩
  | succ n ih =>
    obtain ⟨ops, c, e, h, hlen⟩ := ih (by omega)
    have hall : (pre ++ ops).length = cfg.steady + n := by rw [List.length_append, hpre, hlen]
    have hstep : ∃ op c', nextOp c = .ok op c' ∧ Reaches cfg rng (pre ++ ops ++ [op]) c' := by
      by_cases heven : (pre ++ ops).length % 2 = 0
      · rw [nextOp_even (by rw [h.emitted.i]; exact heven)]
        exact h.insert hl hs.2 (by omega) (.inr heven)
      · exact h.depart hs.1 (by omega) (by omega) heven
    obtain ⟨op, c', e', h'⟩ := hstep
    exact ⟨ops ++ [op], c', bind_eq_ok.mpr ⟨ops, c, e, bind_eq_ok.mpr ⟨op, c', e', rfl⟩⟩,
      by rwa [← List.append_assoc], by simp [hlen]⟩

theorem call_inserts (op : ChurnOp) : op.call.inserts = 1 ↔ op.isInsert = true := by
  cases op <;> simp [ChurnOp.call, Op.inserts, ChurnOp.isInsert]

/-- The stream exhausts a pool that does not last for it. -/
theorem Reaches.exhausts_iff (h : Reaches cfg rng ops c) {n : Nat}
    (hlen : ops.length = cfg.steady + n) (room : Nat) :
    Exhausts room cfg.grid [] (ops.map ChurnOp.call) ↔ ¬ Lasts cfg rng n room := by
  simp only [Lasts, not_or, not_le, not_exists, not_and]
  constructor
  · rintro ⟨before, o, after, e, hins, hroom, hon⟩
    obtain ⟨before, rest, rfl, rfl, erest⟩ := List.map_eq_append_iff.mp e
    obtain ⟨op, after, rfl, rfl, rfl⟩ := List.map_eq_cons_iff.mp erest
    have hturn := h.turns before.length op (by simp)
    rw [List.take_left] at hturn
    have hsize : size cfg.steady before.length = room := hturn.size.symm.trans hroom
    have hkind := hturn.isInsert.mp ((call_inserts op).mp hins)
    have hpeak : room < peak cfg.steady n := by
      rw [List.length_append, List.length_cons] at hlen
      rw [← hsize]
      unfold size liveSize peak
      split <;> split <;> (try split) <;> omega
    refine ⟨hpeak, fun k hk => ?_⟩
    have hkle := (size_le cfg.steady before.length).1
    have hsteady : room ≤ cfg.steady := by
      unfold peak at hpeak
      split at hpeak <;> omega
    have hkb : k < before.length := by omega
    have hget : (before ++ op :: after)[k]? = some before[k] := by
      rw [List.getElem?_append_left hkb, List.getElem?_eq_getElem hkb]
    obtain ⟨orderId, qty, side, eo⟩ := (h.turns k _ hget).drawn (by omega)
    have := hon _ (List.mem_map_of_mem (List.getElem_mem hkb))
    rw [eo] at this
    exact this
  · rintro ⟨hpeak, hon⟩
    have hsteady : room ≤ cfg.steady ∧ (room < cfg.steady ∨ room % 2 = 0 ∧ 0 < n) := by
      unfold peak at hpeak
      split at hpeak <;> omega
    have hlt : room < ops.length := by omega
    have hturn := h.turns room ops[room] (List.getElem?_eq_getElem hlt)
    refine ⟨(ops.take room).map ChurnOp.call, ops[room].call, (ops.drop (room + 1)).map ChurnOp.call,
      ?_, (call_inserts _).mpr (hturn.isInsert.mpr (by omega)), ?_, fun o ho => ?_⟩
    · rw [← List.map_cons, ← List.map_append, List.getElem_cons_drop, List.take_append_drop]
    · exact hturn.size.trans (if_pos hsteady.1)
    · obtain ⟨op, hop, rfl⟩ := List.mem_map.mp ho
      obtain ⟨k, hk, rfl⟩ := List.mem_iff_getElem.mp hop
      rw [List.length_take] at hk
      rw [List.getElem_take]
      have hk' : k < ops.length := by omega
      obtain ⟨orderId, qty, side, eo⟩ :=
        (h.turns k ops[k] (List.getElem?_eq_getElem hk')).drawn (by omega)
      rw [eo]
      exact hon k (by omega)

/-- The ops an accepted configuration gives, of any random numbers. -/
theorem stream_exhausts {cfg : SmrConfig} (h : cfg.Accepted) (rng : SplitMix) {n : Nat}
    (hn : cfg.steady + n < 18446744073709551616) :
    ∃ pre c₀ ops c, prebuild cfg.steady { new cfg with rng := rng } = .ok pre c₀ ∧
      nextOps n c₀ = .ok ops c ∧ Due [] ((pre ++ ops).map ChurnOp.call) ∧
      ∀ room, Exhausts room cfg.grid [] ((pre ++ ops).map ChurnOp.call) ↔
        ¬ Lasts cfg rng n room := by
  obtain ⟨pre, c₀, e₀, h₀, hpre⟩ :=
    prebuild_reaches h.levels_pos h.steady_le.2 rng (Nat.le_refl cfg.steady)
  obtain ⟨ops, c, e, hr, hlen⟩ :=
    nextOps_reaches h.levels_pos ⟨h.steady_pos, h.steady_le.2⟩ h₀ hpre hn
  exact ⟨pre, c₀, ops, c, e₀, e, hr.due,
    hr.exhausts_iff (by rw [List.length_append, hpre, hlen])⟩

/-- The pool is not exhausted by the stream exactly when it lasts for it. The
slot numbers of a copy-on-write book count up to the capacity as 32 bits have it. -/
theorem lasts_iff {cfg : SmrConfig} (h : cfg.Accepted) (rng : SplitMix) {n : Nat}
    (hn : cfg.steady + n < 18446744073709551616) :
    ∃ pre c₀ ops c w, prebuild cfg.steady { new cfg with rng := rng } = .ok pre c₀ ∧
      nextOps n c₀ = .ok ops c ∧ CowBook.new cfg = .ok w ∧
      ((∀ p b, Book.run ((pre ++ ops).map ChurnOp.call) (Book.new cfg) = .error p b →
        ¬ Exhausted p) ↔ Lasts cfg rng n cfg.cap) ∧
      ∀ calls, CowCall.ops calls = (pre ++ ops).map ChurnOp.call →
        ((∀ p w', CowBook.run calls w = .error p w' → ¬ Exhausted p) ↔
          Lasts cfg rng n (u32 cfg.cap)) := by
  obtain ⟨pre, c₀, ops, c, e₀, e, hdue, hroom⟩ := stream_exhausts h rng hn
  obtain ⟨w, ew, hw⟩ := CowBook.new_carries h.grid_ok h.chunk_pos
  refine ⟨pre, c₀, ops, c, w, e₀, e, ew, ?_, fun calls hcalls => ?_⟩
  · rw [← not_iff_not, ← hroom, ← Book.run_exhausts (Book.new_carries h.grid_ok) hdue]
    simp only [not_forall, not_not]
    exact ⟨fun ⟨p, b, e, hp⟩ => ⟨p, b, hp, e⟩, fun ⟨p, b, hp, e⟩ => ⟨p, b, e, hp⟩⟩
  · rw [← hcalls] at hdue hroom
    rw [← not_iff_not, ← hroom, ← CowBook.run_exhausts hw hdue]
    simp only [not_forall, not_not]
    exact ⟨fun ⟨p, b, e, hp⟩ => ⟨p, b, hp, e⟩, fun ⟨p, b, hp, e⟩ => ⟨p, b, e, hp⟩⟩

theorem lasts_iff_smallBook :
    ∃ pre c₀ ops c w,
      prebuild smallBook.steady { new smallBook with rng := ⟨SEED⟩ } = .ok pre c₀ ∧
      nextOps 9 c₀ = .ok ops c ∧ CowBook.new smallBook = .ok w ∧
      ((∀ p b, Book.run ((pre ++ ops).map ChurnOp.call) (Book.new smallBook) = .error p b →
        ¬ Exhausted p) ↔ Lasts smallBook ⟨SEED⟩ 9 smallBook.cap) ∧
      ∀ calls, CowCall.ops calls = (pre ++ ops).map ChurnOp.call →
        ((∀ p w', CowBook.run calls w = .error p w' → ¬ Exhausted p) ↔
          Lasts smallBook ⟨SEED⟩ 9 (u32 smallBook.cap)) :=
  lasts_iff smallBook_accepted ⟨SEED⟩ (by decide)

/-- Where the ladder fits 64 bits, no price is off it. -/
theorem lasts_of_pricesFit (hg : cfg.grid.Ok) (hp : cfg.PricesFit) (rng : SplitMix) (n room : Nat) :
    Lasts cfg rng n room ↔ peak cfg.steady n ≤ room := by
  refine ⟨fun h => ?_, .inl⟩
  rcases h with h | ⟨k, -, hoff⟩
  · exact h
  · have ht : drawnLevel (rng.skip (2 * k)) cfg.levels < cfg.levels := Nat.mod_lt _ hg.levels_pos
    have hprice : drawnPrice cfg rng k =
        cfg.priceMin + drawnLevel (rng.skip (2 * k)) cfg.levels * cfg.tick := by
      rw [drawnPrice, i64_eq_self (hp _ ht).1, i64_eq_self (hp _ ht).2]
    have hfit : InI64 (drawnPrice cfg rng k - cfg.priceMin) := by
      rw [hprice, add_sub_cancel_left]
      exact (hp _ ht).1
    have htick := Grid.tickOf_onGrid hg ht hprice hfit
    omega

/-- A pool of two slots with both orders resting. -/
def fullPool : SmrConfig := ⟨2, 8, 5, -10, 2, 2, 100⟩

theorem fullPool_accepted : fullPool.Accepted := by
  constructor <;> decide

theorem fullPool_pricesFit : fullPool.PricesFit := by
  intro t ht
  have ht' : t < 8 := ht
  simp only [fullPool, InI64]
  omega

/-- The first op after the prebuild exhausts both books. -/
theorem exhausted_fullPool : fullPool.Accepted ∧
    ∃ pre c₀ ops c w, prebuild fullPool.steady (new fullPool) = .ok pre c₀ ∧
      nextOps 1 c₀ = .ok ops c ∧ CowBook.new fullPool = .ok w ∧
      (∃ p b, Exhausted p ∧
        Book.run ((pre ++ ops).map ChurnOp.call) (Book.new fullPool) = .error p b) ∧
      ∃ p w', Exhausted p ∧
        CowBook.run (((pre ++ ops).map ChurnOp.call).map .op) w = .error p w' := by
  have hg := fullPool_accepted.grid_ok
  obtain ⟨pre, c₀, ops, c, e₀, e, hdue, hroom⟩ :=
    stream_exhausts fullPool_accepted ⟨SEED⟩ (n := 1) (by decide)
  obtain ⟨w, ew, hw⟩ := CowBook.new_carries hg fullPool_accepted.chunk_pos
  have hfull : Exhausts 2 fullPool.grid [] ((pre ++ ops).map ChurnOp.call) := by
    rw [hroom, lasts_of_pricesFit hg fullPool_pricesFit]
    decide
  have hops := CowCall.ops_map ((pre ++ ops).map ChurnOp.call)
  refine ⟨fullPool_accepted, pre, c₀, ops, c, w, e₀, e, ew,
    (Book.run_exhausts (Book.new_carries hg) hdue).mpr hfull, ?_⟩
  refine (CowBook.run_exhausts hw (by rwa [hops])).mpr ?_
  rw [hops]
  exact hfull

end Churn

end HiPerf
