import HiPerf.Book.Invariant
import HiPerf.Churn.Model

/-!
What a store may expect of the churn stream: fresh ids, prices on the ladder,
departures of resting orders only, a live set that never moves away from its
steady size, and inserts and departures that take turns.
-/

namespace HiPerf

open Machine Exec Draw

namespace ChurnOp

def isInsert : ChurnOp → Bool
  | .insert .. => true
  | _ => false

def isCancel : ChurnOp → Bool
  | .cancel _ => true
  | _ => false

def isFill : ChurnOp → Bool
  | .fill _ => true
  | _ => false

/-- The id an op brings in. -/
def enters : ChurnOp → Option Int
  | .insert orderId .. => some orderId
  | _ => none

/-- The id an op takes out. -/
def leaves : ChurnOp → Option Int
  | .insert .. => none
  | .cancel orderId => some orderId
  | .fill orderId => some orderId

/-- An op that may follow the ops `before`. -/
def WellPlaced (cfg : SmrConfig) (before : List ChurnOp) : ChurnOp → Prop
  | .insert orderId price qty side =>
    (0 < orderId ∧ orderId ≤ 9223372036854775807) ∧ orderId ∉ before.filterMap enters ∧
    (∃ t < cfg.levels, price = cfg.priceMin + t * cfg.tick) ∧ (1 ≤ qty ∧ qty ≤ 1000) ∧ side ≤ 1
  | .cancel orderId => orderId ∈ before.filterMap enters ∧ orderId ∉ before.filterMap leaves
  | .fill orderId => orderId ∈ before.filterMap enters ∧ orderId ∉ before.filterMap leaves

end ChurnOp

/-- The orders that rest after the ops were applied. -/
def restingAfter (ops : List ChurnOp) : Ledger := Ledger.after [] (ops.map ChurnOp.call)

/-- The generator after it emitted `ops`, whatever the prices came to. -/
structure Churn.Emitted (cfg : SmrConfig) (ops : List ChurnOp) (c : Churn) : Prop where
  i : c.i = ops.length
  levels : c.levels = cfg.levels
  tick : c.tick = cfg.tick
  priceMin : c.priceMin = cfg.priceMin
  live_nodup : c.live.Nodup
  live_resting : c.live.Perm (restingAfter ops).ids
  old : ∀ orderId ∈ c.live, ∃ k < ops.length, orderId = i64 (k + 1)
  small : ∀ r ∈ restingAfter ops, r.remaining ≤ 1000

/-- The generator after it emitted `ops`, prices on the ladder. -/
structure Churn.Follows (cfg : SmrConfig) (ops : List ChurnOp) (c : Churn) : Prop where
  i : c.i = ops.length
  levels : c.levels = cfg.levels
  tick : c.tick = cfg.tick
  priceMin : c.priceMin = cfg.priceMin
  live_nodup : c.live.Nodup
  live_resting : c.live.Perm (restingAfter ops).ids
  live_iff : ∀ orderId, orderId ∈ c.live ↔
    orderId ∈ ops.filterMap ChurnOp.enters ∧ orderId ∉ ops.filterMap ChurnOp.leaves
  entered : ∀ orderId ∈ ops.filterMap ChurnOp.enters, 1 ≤ orderId ∧ orderId ≤ ops.length
  left : ∀ orderId ∈ ops.filterMap ChurnOp.leaves, orderId ∈ ops.filterMap ChurnOp.enters
  small : ∀ r ∈ restingAfter ops, r.remaining ≤ 1000
  placed : ∀ before op after, ops = before ++ op :: after → op.WellPlaced cfg before

/-- Price arithmetic on the ladder stays within 64 bits. -/
def SmrConfig.PricesFit (cfg : SmrConfig) : Prop :=
  ∀ t < cfg.levels, InI64 (t * cfg.tick) ∧ InI64 (cfg.priceMin + t * cfg.tick)

theorem restingAfter_concat (ops : List ChurnOp) (op : ChurnOp) :
    restingAfter (ops ++ [op]) = (restingAfter ops).apply op.call := by
  simp [restingAfter, Ledger.after_append]

theorem wellPlaced_concat {cfg : SmrConfig} {ops : List ChurnOp} {op : ChurnOp}
    (h : ∀ before o after, ops = before ++ o :: after → o.WellPlaced cfg before)
    (hop : op.WellPlaced cfg ops) {before after : List ChurnOp} {o : ChurnOp}
    (e : ops ++ [op] = before ++ o :: after) : o.WellPlaced cfg before := by
  rcases List.eq_nil_or_concat after with rfl | ⟨after, x, rfl⟩
  · obtain ⟨rfl, e'⟩ := List.append_inj' e rfl
    obtain rfl : op = o := by simpa using e'
    exact hop
  · have e' : ops ++ [op] = (before ++ o :: after) ++ [x] := by simpa using e
    obtain ⟨rfl, -⟩ := List.append_inj' e' rfl
    exact h before o after rfl

namespace Churn

variable {cfg : SmrConfig} {c : Churn} {ops : List ChurnOp}

/-- The level an insert draws. -/
def drawnLevel (g : SplitMix) (levels : Nat) : Nat := g.next.1.toNat % levels

/-- An insert takes the op index for its id and draws the rest. -/
theorem insertOp_eq (hl : c.levels ≠ 0) : ∃ (qty : Int) (side : Nat),
    (1 ≤ qty ∧ qty ≤ 1000) ∧ side ≤ 1 ∧
    insertOp c = .ok
      (.insert (i64 (c.i + 1)) (i64 (c.priceMin + i64 (drawnLevel c.rng c.levels * c.tick))) qty
        side)
      { c with
        rng := c.rng.next.2.next.2
        i := (c.i + 1) % 18446744073709551616
        live := c.live ++ [i64 (c.i + 1)] } := by
  let r1 := c.rng.next.1
  let g := c.rng.next.2
  have hid : i64 (i64 c.i + 1) = i64 (c.i + 1) := by
    unfold i64
    omega
  refine ⟨1 + (g.next.1.toNat % 1000 : Nat), ((r1 >>> 32) &&& 1).toNat, by omega, ?_, ?_⟩
  · rw [UInt64.toNat_and]
    exact Nat.and_le_right
  · have hdraw : ∀ (s : Churn), draw s = .ok s.rng.next.1 { s with rng := s.rng.next.2 } :=
      fun _ => rfl
    have hins : nextInsert c.i c.levels c.tick c.priceMin c = .ok
        ⟨i64 (i64 c.i + 1), i64 (c.priceMin + i64 ((r1.toNat % c.levels : Nat) * c.tick)),
          1 + (g.next.1.toNat % 1000 : Nat), ((r1 >>> 32) &&& 1).toNat⟩
        { c with rng := g.next.2 } := by
      rw [nextInsert, bind_ok (hdraw c), bind_ok (hdraw _), if_neg hl]
      rfl
    rw [insertOp, get_bind, bind_ok hins, hid]
    rfl

theorem nextOp_even (h : c.i % 2 = 0) : nextOp c = insertOp c := by
  rw [nextOp, get_bind, if_pos (.inl h)]

/-- A departure draws one of the live ids and takes it out. -/
theorem nextOp_odd (h : c.i % 2 ≠ 0) (hl : c.live ≠ []) :
    ∃ (v : Nat) (orderId : Int) (rng : SplitMix) (op : ChurnOp),
      c.live[v]? = some orderId ∧ (op = .cancel orderId ∨ op = .fill orderId) ∧
      nextOp c = .ok op
        { c with
          rng := rng
          i := (c.i + 1) % 18446744073709551616
          live := swapRemove c.live v } := by
  obtain ⟨r, g, hr⟩ : ∃ r g, c.rng.next = (r, g) := ⟨_, _, rfl⟩
  obtain ⟨r', g', hr'⟩ : ∃ r g', g.next = (r, g') := ⟨_, _, rfl⟩
  have hdraw : draw { c with i := (c.i + 1) % 18446744073709551616 } =
      .ok r { c with rng := g, i := (c.i + 1) % 18446744073709551616 } := by
    simp only [draw, hr]
  have hdraw' : draw { c with rng := g, i := (c.i + 1) % 18446744073709551616 } =
      .ok r' { c with rng := g', i := (c.i + 1) % 18446744073709551616 } := by
    simp only [draw, hr']
  have hv : r.toNat % c.live.length < c.live.length :=
    Nat.mod_lt _ (List.length_pos_iff.mpr hl)
  generalize hvdef : r.toNat % c.live.length = v at hv
  have hlive : liveAt v { c with rng := g, i := (c.i + 1) % 18446744073709551616 } =
      .ok c.live[v] { c with rng := g, i := (c.i + 1) % 18446744073709551616 } := by
    simp only [liveAt, List.getElem?_eq_getElem hv]
  refine ⟨v, c.live[v], g', if r'.toNat % 10000 < c.otrBps then .fill c.live[v]
    else .cancel c.live[v], List.getElem?_eq_getElem hv, ?_, ?_⟩
  · split
    · exact .inr rfl
    · exact .inl rfl
  · rw [nextOp, get_bind, if_neg (not_or.mpr ⟨h, hl⟩), modify_bind, bind_ok hdraw]
    simp only [hvdef]
    rw [bind_ok hlive, bind_ok hdraw', modify_bind]
    rfl

theorem i64_inj {a b : Nat} (ha : a < 18446744073709551616) (hb : b < 18446744073709551616)
    (h : i64 a = i64 b) : a = b := by
  unfold i64 at h
  omega

/-- One insert: the id is new, and the order rests. -/
theorem Emitted.insert (h : Emitted cfg ops c) (hl : 1 ≤ cfg.levels)
    (hlen : ops.length + 1 < 18446744073709551616) :
    ∃ qty side, (1 ≤ qty ∧ qty ≤ 1000) ∧ side ≤ 1 ∧ i64 (ops.length + 1) ∉ c.live ∧ ∃ op c',
      op = .insert (i64 (ops.length + 1))
        (i64 (cfg.priceMin + i64 (drawnLevel c.rng cfg.levels * cfg.tick))) qty side ∧
      insertOp c = .ok op c' ∧ Emitted cfg (ops ++ [op]) c' ∧
      c'.rng = c.rng.next.2.next.2 ∧ c'.live = c.live ++ [i64 (ops.length + 1)] := by
  obtain ⟨qty, side, hqty, hside, e⟩ := insertOp_eq (c := c) (by have := h.levels; omega)
  rw [h.i, h.levels, h.tick, h.priceMin] at e
  have hnew : i64 (ops.length + 1) ∉ c.live := by
    intro hm
    obtain ⟨k, hk, e⟩ := h.old _ hm
    have : ops.length + 1 = k + 1 := i64_inj hlen (by omega) (by simpa using e)
    omega
  refine ⟨qty, side, hqty, hside, hnew, _, _, rfl, e,
    ⟨?_, rfl, rfl, rfl, ?_, ?_, fun orderId ho => ?_, fun r hr => ?_⟩, rfl, rfl⟩
  · simp only [List.length_append, List.length_singleton]
    omega
  · exact List.nodup_append.mpr ⟨h.live_nodup, by simp, fun a ha b hb e' =>
      hnew (List.mem_singleton.mp hb ▸ e' ▸ ha)⟩
  · rw [restingAfter_concat]
    simpa [ChurnOp.call, Ledger.apply, Ledger.ids] using h.live_resting.append_right _
  · simp only [List.length_append, List.length_singleton]
    rcases List.mem_append.mp ho with ho | ho
    · obtain ⟨k, hk, e⟩ := h.old _ ho
      exact ⟨k, by omega, e⟩
    · exact ⟨ops.length, by omega, List.mem_singleton.mp ho⟩
  · rw [restingAfter_concat] at hr
    rcases List.mem_append.mp hr with hr | hr
    · exact h.small r hr
    · rw [List.mem_singleton.mp hr]
      simp only [Resting.remaining]
      omega

/-- One departure: a resting order leaves. -/
theorem Emitted.depart (h : Emitted cfg ops c) (hodd : ops.length % 2 ≠ 0) (hne : c.live ≠ [])
    (hlen : ops.length + 1 < 18446744073709551616) :
    ∃ orderId op c', (op = .cancel orderId ∨ op = .fill orderId) ∧ nextOp c = .ok op c' ∧
      Emitted cfg (ops ++ [op]) c' ∧ c.live.Perm (orderId :: c'.live) := by
  obtain ⟨v, orderId, rng, op, hv, hop, e⟩ := nextOp_odd (h.i ▸ hodd) hne
  have hperm := swapRemove_perm hv
  have hnd := hperm.nodup_iff.mp h.live_nodup
  have hcall : (restingAfter ops).apply op.call = (restingAfter ops).apply (.cancel orderId) := by
    rcases hop with rfl | rfl <;> rfl
  refine ⟨orderId, op, _, hop, e, ⟨?_, h.levels, h.tick, h.priceMin, (List.nodup_cons.mp hnd).2, ?_,
    fun i hi => ?_, fun r hr => ?_⟩, hperm⟩
  · simp only [List.length_append, List.length_singleton, h.i]
    omega
  · rw [restingAfter_concat, hcall]
    have hids : ((restingAfter ops).apply (.cancel orderId)).ids =
        (restingAfter ops).ids.erase orderId := by
      have hn : (restingAfter ops).ids.Nodup := h.live_resting.nodup_iff.mp h.live_nodup
      rw [hn.erase_eq_filter, Ledger.ids, Ledger.ids, Ledger.apply, List.filter_map]
      congr 1
      refine List.filter_congr fun r _ => ?_
      simp [bne, beq_eq_decide]
    rw [hids]
    have := (hperm.symm.trans h.live_resting).erase orderId
    rwa [List.erase_cons_head] at this
  · obtain ⟨k, hk, e⟩ := h.old i (hperm.mem_iff.mpr (List.mem_cons_of_mem _ hi))
    simp only [List.length_append, List.length_singleton]
    exact ⟨k, by omega, e⟩
  · rw [restingAfter_concat, hcall] at hr
    exact h.small r (List.mem_of_mem_filter hr)

theorem Follows.emitted (h : Follows cfg ops c) (hlen : ops.length < 9223372036854775808) :
    Emitted cfg ops c := by
  refine ⟨h.i, h.levels, h.tick, h.priceMin, h.live_nodup, h.live_resting, fun orderId ho => ?_,
    h.small⟩
  obtain ⟨h1, hle⟩ := h.entered orderId ((h.live_iff orderId).mp ho).1
  refine ⟨(orderId - 1).toNat, by omega, ?_⟩
  rw [i64_eq_self ⟨by omega, by omega⟩]
  omega

theorem Follows.insert (h : Follows cfg ops c) (hl : 1 ≤ cfg.levels) (hp : cfg.PricesFit)
    (hlen : ops.length + 1 < 9223372036854775808) :
    ∃ op c', insertOp c = .ok op c' ∧ Follows cfg (ops ++ [op]) c' ∧ op.isInsert = true ∧
      c'.live.length = c.live.length + 1 := by
  obtain ⟨qty, side, hqty, hside, -, op, c', hop, e, h', -, hlive⟩ :=
    (h.emitted (by omega)).insert hl (by omega)
  have hid : i64 (ops.length + 1) = ops.length + 1 := i64_eq_self ⟨by omega, by omega⟩
  have ht : drawnLevel c.rng cfg.levels < cfg.levels := Nat.mod_lt _ hl
  rw [hid] at hop hlive
  rw [i64_eq_self (hp _ ht).1, i64_eq_self (hp _ ht).2] at hop
  generalize drawnLevel c.rng cfg.levels = t at ht hop
  subst hop
  have hnew : ((ops.length : Int) + 1) ∉ ops.filterMap ChurnOp.enters := by
    intro hm
    have := (h.entered _ hm).2
    omega
  have hplaced : (ChurnOp.insert (ops.length + 1) (cfg.priceMin + t * cfg.tick) qty side).WellPlaced
      cfg ops := ⟨⟨by omega, by omega⟩, hnew, ⟨t, ht, rfl⟩, hqty, hside⟩
  refine ⟨_, _, e, ⟨h'.i, h'.levels, h'.tick, h'.priceMin, h'.live_nodup, h'.live_resting,
    fun orderId => ?_, fun orderId ho => ?_, fun orderId ho => ?_, h'.small,
    fun before o after => wellPlaced_concat h.placed hplaced⟩, rfl, by simp [hlive]⟩
  · simp only [hlive, List.filterMap_append, List.filterMap_cons, List.filterMap_nil,
      ChurnOp.enters, ChurnOp.leaves, List.append_nil, List.mem_append, List.mem_singleton, h.live_iff]
    constructor
    · rintro (⟨h1, h2⟩ | rfl)
      · exact ⟨.inl h1, h2⟩
      · exact ⟨.inr rfl, fun hm => hnew (h.left _ hm)⟩
    · rintro ⟨h1 | rfl, h2⟩
      · exact .inl ⟨h1, h2⟩
      · exact .inr rfl
  · simp only [List.filterMap_append, List.filterMap_cons, List.filterMap_nil, ChurnOp.enters,
      List.mem_append, List.mem_singleton] at ho
    simp only [List.length_append, List.length_singleton]
    rcases ho with ho | rfl
    · have := h.entered _ ho
      omega
    · omega
  · simp only [List.filterMap_append, List.filterMap_cons, List.filterMap_nil, ChurnOp.enters,
      ChurnOp.leaves, List.append_nil, List.mem_append] at ho ⊢
    exact .inl (h.left _ ho)

theorem Follows.depart (h : Follows cfg ops c) (hodd : ops.length % 2 ≠ 0) (hl : c.live ≠ [])
    (hlen : ops.length + 1 < 9223372036854775808) :
    ∃ op c', nextOp c = .ok op c' ∧ Follows cfg (ops ++ [op]) c' ∧ op.isInsert = false ∧
      c'.live.length + 1 = c.live.length := by
  obtain ⟨orderId, op, c', hop, e, h', hperm⟩ :=
    (h.emitted (by omega)).depart hodd hl (by omega)
  have hnd := hperm.nodup_iff.mp h.live_nodup
  have hmem : orderId ∈ c.live := hperm.mem_iff.mpr List.mem_cons_self
  have hplaced : op.WellPlaced cfg ops := by
    rcases hop with rfl | rfl <;> exact (h.live_iff _).mp hmem
  have henters : op.enters = none := by rcases hop with rfl | rfl <;> rfl
  have hleaves : op.leaves = some orderId := by rcases hop with rfl | rfl <;> rfl
  have hin : (ops ++ [op]).filterMap ChurnOp.enters = ops.filterMap ChurnOp.enters := by
    simp [henters]
  have hout : (ops ++ [op]).filterMap ChurnOp.leaves =
      ops.filterMap ChurnOp.leaves ++ [orderId] := by simp [hleaves]
  refine ⟨op, _, e, ⟨h'.i, h'.levels, h'.tick, h'.priceMin, h'.live_nodup, h'.live_resting,
    fun i => ?_, fun i hi => ?_, fun i hi => ?_, h'.small,
    fun before o after => wellPlaced_concat h.placed hplaced⟩, ?_, ?_⟩
  · rw [hin, hout]
    have hi : i ∈ c.live ↔ i = orderId ∨ i ∈ c'.live := by rw [hperm.mem_iff, List.mem_cons]
    have hne : i ∈ c'.live → i ≠ orderId := by
      rintro hm rfl
      exact (List.nodup_cons.mp hnd).1 hm
    have := h.live_iff i
    simp only [List.mem_append, List.mem_singleton]
    tauto
  · rw [hin] at hi
    have := h.entered i hi
    simp only [List.length_append, List.length_singleton]
    omega
  · rw [hin]
    rw [hout] at hi
    rcases List.mem_append.mp hi with hi | hi
    · exact h.left i hi
    · rw [List.mem_singleton.mp hi]
      exact ((h.live_iff _).mp hmem).1
  · rcases hop with rfl | rfl <;> rfl
  · have := hperm.length_eq
    simpa using this.symm

/-- A book of `cfg` can take all of the ops. -/
def Taken (cfg : SmrConfig) (ops : List ChurnOp) : Prop :=
  WellFormed cfg [] (ops.map ChurnOp.call) ∧ Fits cfg [] (ops.map ChurnOp.call)

theorem Follows.taken (h : Follows cfg ops c) (hp : cfg.PricesFit) {op : ChurnOp}
    {room : Nat} (hop : op.WellPlaced cfg ops) (hroom : op.isInsert = true → c.live.length < room)
    (hcap : room ≤ cfg.cap) (hnil : room ≤ NIL) (ht : Taken cfg ops) :
    Taken cfg (ops ++ [op]) := by
  have hids : ∀ orderId, orderId ∈ (restingAfter ops).ids ↔ orderId ∈ c.live :=
    fun orderId => h.live_resting.mem_iff.symm
  have hlen : (restingAfter ops).length = c.live.length := by
    rw [h.live_resting.length_eq, Ledger.ids, List.length_map]
  have hleave : ∀ orderId, orderId ∈ ops.filterMap ChurnOp.enters →
      orderId ∉ ops.filterMap ChurnOp.leaves → orderId ∈ (restingAfter ops).ids :=
    fun orderId h1 h2 => (hids orderId).mpr ((h.live_iff orderId).mpr ⟨h1, h2⟩)
  rw [Taken, List.map_append, List.map_cons, List.map_nil, wellFormed_concat, fits_concat]
  refine ⟨⟨ht.1, ?_⟩, ht.2, ?_⟩
  · cases op with
    | insert orderId price qty side =>
      obtain ⟨hid, hnew, ⟨t, htl, rfl⟩, hqty, hside⟩ := hop
      have hle := hroom rfl
      have hsum := Ledger.levelQty_le (by omega) h.small cfg.grid (laneOf side)
        (cfg.grid.tickOf (cfg.priceMin + t * cfg.tick))
      refine ⟨⟨⟨by omega, hid.2⟩, (hp t htl).2, ⟨by omega, by omega⟩⟩, by omega, fun hm => ?_,
        ⟨t, htl, rfl⟩, hside, hqty.1, ?_, ?_⟩
      · exact hnew ((h.live_iff _).mp ((hids _).mp hm)).1
      · change (restingAfter ops).length < cfg.cap
        omega
      · change (restingAfter ops).levelQty _ _ _ + qty ≤ _
        rw [hlen] at hsum
        simp only [NIL] at hnil
        omega
    | cancel orderId => exact hleave orderId hop.1 hop.2
    | fill orderId => exact hleave orderId hop.1 hop.2
  · cases op with
    | insert orderId price qty side =>
      obtain ⟨-, -, ⟨t, htl, rfl⟩, -, -⟩ := hop
      have hle := hroom rfl
      refine ⟨?_, ?_⟩
      · rw [show cfg.priceMin + t * cfg.tick - cfg.priceMin = t * cfg.tick by omega]
        exact (hp t htl).1
      · change (restingAfter ops).length < NIL
        omega
    | cancel orderId => trivial
    | fill orderId => trivial

theorem new_follows (cfg : SmrConfig) (rng : SplitMix) :
    Follows cfg [] { new cfg with rng := rng } := by
  constructor <;> simp [new, restingAfter, Ledger.ids]

/-- The prebuild inserts as many orders as asked. -/
theorem prebuild_follows (hl : 1 ≤ cfg.levels) (hp : cfg.PricesFit) (rng : SplitMix) {k : Nat}
    (hk : k < 9223372036854775808) :
    ∃ ops c, prebuild k { new cfg with rng := rng } = .ok ops c ∧ Follows cfg ops c ∧
      ops.length = k ∧ c.live.length = k ∧ (∀ op ∈ ops, op.isInsert = true) ∧
      (k ≤ cfg.steady → cfg.steady ≤ cfg.cap → cfg.steady ≤ NIL → Taken cfg ops) := by
  induction k with
  | zero =>
    exact ⟨[], _, rfl, new_follows cfg rng, rfl, rfl, by simp, fun _ _ _ => ⟨trivial, trivial⟩⟩
  | succ k ih =>
    obtain ⟨ops, c, e, h, hlen, hlive, hins, htaken⟩ := ih (by omega)
    obtain ⟨op, c', e', h', hop, hlive'⟩ := h.insert hl hp (by omega)
    refine ⟨ops ++ [op], c', ?_, h', by simp [hlen], by omega, ?_, fun hle hcap hnil => ?_⟩
    · exact bind_eq_ok.mpr ⟨ops, c, e, bind_eq_ok.mpr ⟨op, c', e', rfl⟩⟩
    · intro o ho
      rcases List.mem_append.mp ho with ho | ho
      · exact hins o ho
      · exact List.mem_singleton.mp ho ▸ hop
    · exact h.taken hp (h'.placed ops op [] rfl) (fun _ => by omega) hcap hnil
        (htaken (by omega) hcap hnil)

/-- The live set after `n` more ops: an even prebuild goes on with an insert, an
odd one with a departure. -/
def liveSize (steady n : Nat) : Nat :=
  if steady % 2 = 0 then steady + n % 2 else steady - n % 2

/-- The most orders that rest at any time of a prebuild and `n` ops. -/
def peak (steady n : Nat) : Nat := if steady % 2 = 0 ∧ 0 < n then steady + 1 else steady

theorem steady_le_peak (steady n : Nat) : steady ≤ peak steady n := by
  unfold peak
  split <;> omega

theorem peak_le_succ (steady n : Nat) : peak steady n ≤ peak steady (n + 1) := by
  unfold peak
  split <;> split <;> omega

theorem nextOps_follows (hl : 1 ≤ cfg.levels) (hp : cfg.PricesFit) (hs : 1 ≤ cfg.steady)
    {pre : List ChurnOp} {c₀ : Churn} (h₀ : Follows cfg pre c₀) (hpre : pre.length = cfg.steady)
    (hlive₀ : c₀.live.length = cfg.steady)
    (ht₀ : cfg.steady ≤ cfg.cap → cfg.steady ≤ NIL → Taken cfg pre) {n : Nat}
    (hn : cfg.steady + n < 9223372036854775808) :
    ∃ ops c, nextOps n c₀ = .ok ops c ∧ Follows cfg (pre ++ ops) c ∧ ops.length = n ∧
      c.live.length = liveSize cfg.steady n ∧
      Alternating ChurnOp.isInsert (cfg.steady % 2 = 0) ops ∧
      (peak cfg.steady n ≤ cfg.cap → peak cfg.steady n ≤ NIL → Taken cfg (pre ++ ops)) := by
  induction n with
  | zero =>
    have hpeak := steady_le_peak cfg.steady 0
    refine ⟨[], c₀, rfl, by simpa using h₀, rfl, ?_, trivial, fun hcap hnil => ?_⟩
    · simpa [liveSize] using hlive₀
    · rw [List.append_nil]
      exact ht₀ (hpeak.trans hcap) (hpeak.trans hnil)
  | succ n ih =>
    obtain ⟨ops, c, e, h, hlen, hlive, halt, htaken⟩ := ih (by omega)
    have hall : (pre ++ ops).length = cfg.steady + n := by simp [hpre, hlen]
    have hstep : ∃ op c', nextOp c = .ok op c' ∧ Follows cfg (pre ++ ops ++ [op]) c' ∧
        op.isInsert = decide ((cfg.steady + n) % 2 = 0) ∧
        c'.live.length = liveSize cfg.steady (n + 1) := by
      by_cases heven : (cfg.steady + n) % 2 = 0
      · obtain ⟨op, c', e', h', hop, hlive'⟩ := h.insert hl hp (by omega)
        refine ⟨op, c', ?_, h', by simp [hop, heven], ?_⟩
        · rw [nextOp_even (by rw [h.i, hall]; exact heven)]
          exact e'
        · rw [hlive', hlive]
          unfold liveSize
          split <;> omega
      · have hne : c.live ≠ [] := by
          refine List.length_pos_iff.mp ?_
          rw [hlive]
          unfold liveSize
          split <;> omega
        obtain ⟨op, c', e', h', hop, hlive'⟩ := h.depart (by omega) hne (by omega)
        refine ⟨op, c', e', h', by simp [hop, heven], ?_⟩
        rw [hlive] at hlive'
        unfold liveSize at hlive' ⊢
        split at hlive' <;> split <;> omega
    obtain ⟨op, c', e', h', hop, hlive'⟩ := hstep
    refine ⟨ops ++ [op], c', bind_eq_ok.mpr ⟨ops, c, e, bind_eq_ok.mpr ⟨op, c', e', rfl⟩⟩,
      by rwa [← List.append_assoc], by simp [hlen], hlive', halt.append ?_, fun hcap hnil => ?_⟩
    · rw [hop, hlen]
      by_cases h1 : cfg.steady % 2 = 0 <;> by_cases h2 : n % 2 = 0 <;> simp [h1, h2] <;> omega
    · have hpeak := peak_le_succ cfg.steady n
      rw [← List.append_assoc]
      refine h.taken hp (h'.placed (pre ++ ops) op [] rfl) (fun hins => ?_) hcap hnil
        (htaken (hpeak.trans hcap) (hpeak.trans hnil))
      rw [hop, decide_eq_true_eq] at hins
      rw [hlive]
      unfold liveSize peak
      split <;> split <;> omega

/-- A book that takes all of the ops knows the live ids and no others. -/
theorem Follows.book_ids (h : Follows cfg ops c) (hg : cfg.grid.Ok) (ht : Taken cfg ops) :
    ∃ b, Book.run (ops.map ChurnOp.call) (Book.new cfg) = .ok () b ∧
      ∀ orderId, orderId ∈ c.live ↔ ∃ s, b.idmap orderId = some s := by
  obtain ⟨hrun, hholds, hgrid⟩ := Book.run_holds hg rfl (Book.new_holds hg) ht.1 ht.2
  obtain ⟨b, e, hb⟩ := hrun _ (Book.new_shows cfg)
  have hon : (restingAfter ops).OnGrid cfg := onGrid_after (by simp [Ledger.OnGrid]) ht.1 ht.2
  refine ⟨b, e, fun orderId => ?_⟩
  rw [h.live_resting.mem_iff]
  exact ((hb.consistent hholds hg hgrid hon).ids_dom orderId).symm

/-- The stream, whatever the state of the random numbers: every op is one a
store can take, the live set is what rests in the store and keeps its size, and
inserts and departures alternate. -/
theorem stream_wellPlaced {cfg : SmrConfig} (hl : 1 ≤ cfg.levels) (hp : cfg.PricesFit)
    (hs : 1 ≤ cfg.steady) (rng : SplitMix) {n : Nat}
    (hn : cfg.steady + n < 9223372036854775808) :
    ∃ pre c₀ ops c, prebuild cfg.steady { new cfg with rng := rng } = .ok pre c₀ ∧
      nextOps n c₀ = .ok ops c ∧
      (pre.length = cfg.steady ∧ ∀ op ∈ pre, op.isInsert = true) ∧ ops.length = n ∧
      Follows cfg (pre ++ ops) c ∧
      (cfg.steady % 2 = 0 → c.live.length = cfg.steady ∨ c.live.length = cfg.steady + 1) ∧
      (cfg.steady % 2 = 1 → c.live.length = cfg.steady - 1 ∨ c.live.length = cfg.steady) ∧
      Alternating ChurnOp.isInsert (cfg.steady % 2 = 0) ops ∧
      (∀ before window after, ops = before ++ window ++ after →
        window.countP ChurnOp.isInsert ≤ window.length / 2 + 1 ∧
        window.countP ChurnOp.isCancel ≤ window.length / 2 + 1 ∧
        window.countP ChurnOp.isFill ≤ window.length / 2 + 1) ∧
      (cfg.grid.Ok → peak cfg.steady n ≤ cfg.cap → peak cfg.steady n ≤ NIL →
        ∃ b, Book.run ((pre ++ ops).map ChurnOp.call) (Book.new cfg) = .ok () b ∧
          ∀ orderId, orderId ∈ c.live ↔ ∃ s, b.idmap orderId = some s) := by
  obtain ⟨pre, c₀, e₀, h₀, hpre, hlive₀, hins, ht₀⟩ :=
    prebuild_follows hl hp rng (show cfg.steady < 9223372036854775808 by omega)
  obtain ⟨ops, c, e, h, hlen, hlive, halt, ht⟩ :=
    nextOps_follows hl hp hs h₀ hpre hlive₀ (ht₀ (Nat.le_refl _)) hn
  refine ⟨pre, c₀, ops, c, e₀, e, ⟨hpre, hins⟩, hlen, h, fun heven => ?_, fun hodd => ?_, halt,
    fun before window after ew => ?_, fun hg hcap hnil => h.book_ids hg (ht hcap hnil)⟩
  · rw [hlive, liveSize, if_pos heven]
    omega
  · rw [hlive, liveSize, if_neg (by omega)]
    omega
  · rw [ew] at halt
    refine ⟨halt.window (.inl fun _ hk => hk), halt.window (.inr fun op hk => ?_),
      halt.window (.inr fun op hk => ?_)⟩
    · cases op with
      | cancel orderId => rfl
      | insert orderId price qty side => cases hk
      | fill orderId => cases hk
    · cases op with
      | fill orderId => rfl
      | insert orderId price qty side => cases hk
      | cancel orderId => cases hk

/-- A ladder of eight prices and a live set of one order. -/
def thinChurn : SmrConfig := ⟨4, 8, 5, -10, 1, 1, 100⟩

theorem thinChurn_pricesFit : thinChurn.PricesFit := by
  intro t ht
  have ht' : t < 8 := ht
  simp only [thinChurn, InI64]
  omega

theorem stream_wellPlaced_thinChurn :
    ∃ pre c₀ ops c, prebuild thinChurn.steady { new thinChurn with rng := ⟨SEED⟩ } = .ok pre c₀ ∧
      nextOps 9 c₀ = .ok ops c ∧
      (pre.length = thinChurn.steady ∧ ∀ op ∈ pre, op.isInsert = true) ∧ ops.length = 9 ∧
      Follows thinChurn (pre ++ ops) c ∧
      (thinChurn.steady % 2 = 0 →
        c.live.length = thinChurn.steady ∨ c.live.length = thinChurn.steady + 1) ∧
      (thinChurn.steady % 2 = 1 →
        c.live.length = thinChurn.steady - 1 ∨ c.live.length = thinChurn.steady) ∧
      Alternating ChurnOp.isInsert (thinChurn.steady % 2 = 0) ops ∧
      (∀ before window after, ops = before ++ window ++ after →
        window.countP ChurnOp.isInsert ≤ window.length / 2 + 1 ∧
        window.countP ChurnOp.isCancel ≤ window.length / 2 + 1 ∧
        window.countP ChurnOp.isFill ≤ window.length / 2 + 1) ∧
      (thinChurn.grid.Ok → peak thinChurn.steady 9 ≤ thinChurn.cap → peak thinChurn.steady 9 ≤ NIL →
        ∃ b, Book.run ((pre ++ ops).map ChurnOp.call) (Book.new thinChurn) = .ok () b ∧
          ∀ orderId, orderId ∈ c.live ↔ ∃ s, b.idmap orderId = some s) :=
  stream_wellPlaced (by decide) thinChurn_pricesFit (by decide) ⟨SEED⟩ (by decide)

theorem ids_run_out {n : Nat} (hn : n + 2 = 9223372036854775808) :
    ∃ pre c₀ ops c price qty side c', prebuild 1 (new thinChurn) = .ok pre c₀ ∧
      nextOps (n + 1) c₀ = .ok ops c ∧
      nextOp c = .ok (.insert (-9223372036854775807) price qty side) c' := by
  obtain ⟨pre, c₀, e₀, h₀, hpre, hlive₀, -, ht₀⟩ :=
    prebuild_follows (by decide : 1 ≤ thinChurn.levels) thinChurn_pricesFit ⟨SEED⟩
      (by decide : 1 < 9223372036854775808)
  have hone : thinChurn.steady = 1 := rfl
  obtain ⟨ops, c, e, h, hlen, hlive, -, -⟩ :=
    nextOps_follows (by decide) thinChurn_pricesFit (by decide) h₀ hpre hlive₀
      (ht₀ (Nat.le_refl _)) (n := n) (by omega)
  have hi : c.i = 9223372036854775807 := by
    rw [h.i, List.length_append, hpre, hlen]
    omega
  have hne : c.live ≠ [] := by
    refine List.length_pos_iff.mp ?_
    rw [hlive, liveSize, if_neg (by omega)]
    omega
  obtain ⟨v, orderId, rng, op, -, -, e₁⟩ := nextOp_odd (c := c) (by omega) hne
  have hlast : (c.i + 1) % 18446744073709551616 = 9223372036854775808 := by omega
  rw [hlast] at e₁
  have hlevels : c.levels ≠ 0 := by rw [h.levels]; decide
  have heven : nextOp { c with
      rng := rng, i := 9223372036854775808, live := swapRemove c.live v } = insertOp { c with
      rng := rng, i := 9223372036854775808, live := swapRemove c.live v } :=
    nextOp_even (by norm_num)
  obtain ⟨qty, side, -, -, e₂⟩ := insertOp_eq (c := { c with
    rng := rng, i := 9223372036854775808, live := swapRemove c.live v }) hlevels
  have hid : i64 ((9223372036854775808 : Nat) + 1) = -9223372036854775807 := by decide
  simp only [hid] at e₂
  exact ⟨pre, c₀, ops ++ [op], _, _, _, _, _, e₀,
    bind_eq_ok.mpr ⟨ops, c, e, bind_eq_ok.mpr ⟨op, _, e₁, rfl⟩⟩, heven.trans e₂⟩

/-- After enough ops the op index no longer fits the order id. -/
theorem stream_ids_wrap :
    ∃ pre c₀ ops c price qty side c', prebuild 1 (new thinChurn) = .ok pre c₀ ∧
      nextOps (9223372036854775806 + 1) c₀ = .ok ops c ∧
      nextOp c = .ok (.insert (-9223372036854775807) price qty side) c' :=
  ids_run_out (by decide)

end Churn

end HiPerf
