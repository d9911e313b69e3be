import HiPerf.Mpsc.Drain

/-!
The multi-producer ring does not lock up: the lowest sequence the consumer has
not reached is either written, or held by a call that finds room for its whole
burst once `head` is stored.
-/

namespace HiPerf.Mpsc

open Machine Exec

variable {cap : Nat} {r : Ring}

/-- Left to itself with a `drain(max)` to do, the consumer gets a token. -/
def Ring.Delivers (r : Ring) : Prop :=
  ∀ max drains, 0 < max → ∃ m r',
    run (List.replicate m .consumer)
      { r with consumer := { r.consumer with program := max :: drains } } = .ok ⟨⟩ r' ∧
    r.delivered.length < r'.delivered.length

/-- Producer `i` has more to do in its call than to load `head` in vain. -/
def Ring.Able (r : Ring) (i : Nat) : Prop :=
  ∃ p, r.producers[i]? = some p ∧
    match p.pc with
    | .idle => False
    | .waiting seq c => need r.cap seq c.n ≤ r.head
    | .storing _ _ _ => True
    | .marking _ _ _ => True

/-- Claimed sequences are left, and nobody can do anything about them. -/
def Ring.Stuck (r : Ring) : Prop :=
  r.consumer.head < r.claimed.length ∧ ¬ r.Delivers ∧ ∀ i, ¬ r.Able i

/-- A `drain` that starts at a written sequence hands it out. -/
theorem delivers_of_written {W : Nat → Prop} (h : Inv W r) (hidle : r.consumer.pc = .idle)
    (hw : W r.consumer.head) : r.Delivers := by
  intro max drains hmax
  obtain ⟨ha, hb⟩ := h.shown r.consumer.head (Nat.le_refl _) hw
  have hin := ((h.written _).mp hw).1
  rw [List.getElem?_eq_getElem hin] at hb
  have hstart : consume { r with consumer := { r.consumer with program := max :: drains } } =
      .ok ⟨⟩ { r with consumer := ⟨r.consumer.head, .checking max 0, drains⟩ } := by
    simp only [consume, get_bind, hidle, Consumer.loop, if_pos hmax]
    rfl
  have hfound := consume_found
    (r := { r with consumer := ⟨r.consumer.head, .checking max 0, drains⟩ }) rfl ha
  have hread : ∃ r',
      consume { r with consumer := ⟨r.consumer.head, .reading max 0, drains⟩ } = .ok ⟨⟩ r' ∧
        r.delivered.length < r'.delivered.length := by
    refine ⟨_, by simp only [consume, get_bind, hb, Option.map_some]; rfl, ?_⟩
    simp
  obtain ⟨r', hread, hmore⟩ := hread
  exact ⟨3, r', runAll_cons_eq_ok.mpr ⟨_, hstart, runAll_cons_eq_ok.mpr ⟨_, hfound,
    runAll_cons_eq_ok.mpr ⟨_, hread, rfl⟩⟩⟩, hmore⟩

/-- A call that holds the sequence the consumer is at, before it has written any
of its burst, has claimed it first. -/
theorem Inv.waiting_first {W : Nat → Prop} (h : Inv W r) {i seq : Nat} {p : Producer} {c : Burst}
    (hp : r.producers[i]? = some p) (hpc : p.pc = .waiting seq c)
    (hs : p.pc.Holds r.consumer.head) : seq = r.consumer.head := by
  rw [hpc] at hs
  obtain ⟨hle, hlt⟩ := hs
  rcases Nat.eq_or_lt_of_le hle with e | hbefore
  · exact e
  · have hw := (h.written seq).mp (h.drained seq hbefore)
    refine absurd ?_ (hw.2 i p hp)
    rw [hpc]
    exact ⟨Nat.le_refl _, by omega⟩

/-- A waiting call finds room once all before its range is drained and given back. -/
theorem Inv.room {W : Nat → Prop} (h : Inv W r) {i seq : Nat} {p : Producer} {c : Burst}
    (hp : r.producers[i]? = some p) (hpc : p.pc = .waiting seq c) (hle : seq ≤ r.head) :
    need r.cap seq c.n ≤ r.head := by
  have hfine := h.producing i p hp
  simp only [Producer.Fine, hpc] at hfine
  obtain ⟨hn, hin, -⟩ := hfine
  have htotal := h.total
  rw [need_eq (by omega)]
  omega

theorem Inv.moves {W : Nat → Prop} (h : Inv W r) (hidle : r.consumer.pc = .idle) : ¬ r.Stuck := by
  rintro ⟨hleft, hquiet, hable⟩
  by_cases hw : W r.consumer.head
  · exact hquiet (delivers_of_written h hidle hw)
  · have hheld : ∃ (i : Nat) (p : Producer), r.producers[i]? = some p ∧ p.pc.Holds r.consumer.head := by
      by_contra hnone
      push Not at hnone
      exact hw ((h.written _).mpr ⟨hleft, hnone⟩)
    obtain ⟨i, p, hp, hs⟩ := hheld
    refine hable i ⟨p, hp, ?_⟩
    cases hpc : p.pc with
    | idle => rw [hpc] at hs; exact hs
    | storing seq c k => trivial
    | marking seq c k => trivial
    | waiting seq c =>
      have hfirst := h.waiting_first hp hpc hs
      have hcount := h.count
      rw [hidle] at hcount
      refine h.room hp hpc ?_
      simp only [ConsumerPc.count] at hcount
      omega

/-- While fewer than `2^64` sequences are claimed, between two calls of the
consumer the ring is not stuck, every call of the consumer ends, and a producer
that waits finds room for its burst when all before it is drained and given back. -/
theorem never_stuck {programs : List (List Burst)} {drains : List Nat} {r₀ : Ring}
    (h₀ : ring cap programs drains = .ok r₀)
    (hprograms : ∀ program ∈ programs, ∀ c ∈ program, c.n ≤ cap)
    {turns : List Turn} (hturns : ∀ t ∈ turns, ∀ c ∈ t.calls, c.n ≤ cap) {r : Ring}
    (hrun : run turns r₀ = .ok ⟨⟩ r) (hlt : r.claimed.length < 18446744073709551616) :
    (r.consumer.pc = .idle → ¬ r.Stuck) ∧ r.Drains ∧
    ∀ (i seq : Nat) (p : Producer) (c : Burst), r.producers[i]? = some p → p.pc = .waiting seq c →
      seq ≤ r.head → r.Able i := by
  obtain ⟨r', e, h⟩ := run_keeps (ring_good h₀ hprograms).1 hturns
  cases hrun.symm.trans e
  obtain ⟨W, hW⟩ := h.2 hlt
  refine ⟨hW.moves, h.drains, fun i seq p c hp hpc hle => ⟨p, hp, ?_⟩⟩
  rw [hpc]
  exact hW.room hp hpc hle

/-- The smallest ring, its slot claimed and not yet written. -/
theorem never_stuck_oneSlot :
    (∀ program ∈ [[token 7]], ∀ c ∈ program, c.n ≤ 1) ∧
    (∀ t ∈ ([.producer 0] : List Turn), ∀ c ∈ t.calls, c.n ≤ 1) ∧
    ∃ r₀ r, ring 1 [[token 7]] [1] = .ok r₀ ∧ run [.producer 0] r₀ = .ok ⟨⟩ r ∧
      r.claimed.length < 18446744073709551616 ∧
      (r.consumer.pc = .idle → ¬ r.Stuck) ∧ r.Drains ∧
      ∀ (i seq : Nat) (p : Producer) (c : Burst), r.producers[i]? = some p →
        p.pc = .waiting seq c → seq ≤ r.head → r.Able i := by
  have hprograms : ∀ program ∈ [[token 7]], ∀ c ∈ program, c.n ≤ 1 := by
    simp [token]
  have hturns : ∀ t ∈ ([.producer 0] : List Turn), ∀ c ∈ t.calls, c.n ≤ 1 := by
    simp [Turn.calls]
  exact ⟨hprograms, hturns, _, _, rfl, rfl, by decide,
    @never_stuck 1 _ [1] _ rfl hprograms _ hturns _ rfl (by decide)⟩

/-- No token is at hand: the round number of the consumer's slot is another one. -/
def Ring.Quiet (r : Ring) : Prop :=
  (∀ max count, r.consumer.pc ≠ .reading max count) ∧
    ∃ a, r.avail[r.consumer.head % r.cap]? = some a ∧ a ≠ i64 (r.consumer.head / r.cap : Nat)

theorem Consumer.loop_quiet (c : Consumer) (max count max' count' : Nat) :
    (c.loop max count).pc ≠ .reading max' count' := by
  unfold Consumer.loop Consumer.leave
  split
  · exact nofun
  · dsimp only
    split <;> exact nofun

theorem consume_quiet {r' : Ring} (h : r.Quiet) (e : consume r = .ok ⟨⟩ r') :
    r'.Quiet ∧ r'.delivered = r.delivered := by
  obtain ⟨hpc, a, ha, hne⟩ := h
  cases hc : r.consumer.pc with
  | idle =>
    cases hprog : r.consumer.program with
    | nil =>
      simp only [consume, get_bind, hc, hprog] at e
      cases e
      exact ⟨⟨hpc, a, ha, hne⟩, rfl⟩
    | cons max program =>
      simp only [consume, get_bind, hc, hprog] at e
      cases e
      refine ⟨?_, rfl⟩
      simp only [Ring.Quiet, Consumer.loop_head]
      exact ⟨fun max' count' => Consumer.loop_quiet _ _ _ _ _, a, ha, hne⟩
  | checking max count =>
    simp only [consume, get_bind, hc, ha, if_pos hne] at e
    cases e
    refine ⟨⟨fun max' count' => ?_, a, ha, hne⟩, rfl⟩
    unfold Consumer.leave
    dsimp only
    intro hread
    split at hread <;> cases hread
  | reading max count => exact absurd hc (hpc max count)
  | releasing count =>
    simp only [consume, get_bind, hc] at e
    cases e
    exact ⟨⟨fun max' count' hread => (by cases hread), a, ha, hne⟩, rfl⟩

theorem run_quiet (m : Nat) {r' : Ring} (h : r.Quiet)
    (e : run (List.replicate m .consumer) r = .ok ⟨⟩ r') : r'.delivered = r.delivered := by
  induction m generalizing r with
  | zero =>
    cases e
    rfl
  | succ m ih =>
    obtain ⟨r₁, e₁, e₂⟩ := runAll_cons_eq_ok.mp e
    obtain ⟨h₁, hd⟩ := consume_quiet h e₁
    exact (ih h₁ e₂).trans hd

theorem not_delivers (h : r.Quiet) : ¬ r.Delivers := by
  intro hd
  obtain ⟨m, r', e, hlt⟩ := hd 1 [] Nat.one_pos
  have hsame := run_quiet m (r := { r with consumer := { r.consumer with program := [1] } }) h e
  rw [hsame] at hlt
  exact Nat.lt_irrefl _ hlt

/-- Inside a `drain` that has taken the only token, before it stores `head`. -/
theorem run_held : ∃ r₀, ring 1 [[token 7, token 7]] [2] = .ok r₀ ∧
    run ([.producer 0, .producer 0, .producer 0, .producer 0] ++
      [.consumer, .consumer, .consumer, .consumer]) r₀ = .ok ⟨⟩
      { buf := #[7], avail := #[0], cap := 1, claim := 2, head := 0
        producers := [⟨0, .waiting 1 (token 7), [], [token 7, token 7]⟩]
        consumer := ⟨1, .releasing 1, []⟩
        claimed := [(0, 7), (0, 7)]
        delivered := [7] } := by
  refine ⟨_, rfl, ?_⟩
  have hzero : u64 0 = 0 := rfl
  have hone : u64 1 = 1 := rfl
  have htwo : u64 2 = 2 := rfl
  have hround : i64 0 = 0 := rfl
  have hround' : i64 1 = 1 := rfl
  have hneed : need 1 0 1 = 0 := rfl
  have hneed' : need 1 1 1 = 1 := rfl
  simp [run, token, runAll, step, produce, consume, Producer.store, Consumer.loop, Consumer.leave,
    Burst.tokens, hzero, hone, htwo, hround, hround', hneed, hneed']

/-- Two limits. In the middle of a `drain` both sides can be out of work. And
after `2^64` claims they are for good. -/
theorem stuck_runs :
    (∃ cap programs drains r₀ turns r, (∀ program ∈ programs, ∀ c ∈ program, c.n ≤ cap) ∧
      ring cap programs drains = .ok r₀ ∧ (∀ t ∈ turns, t.calls = []) ∧
      run turns r₀ = .ok ⟨⟩ r ∧ r.claimed.length < 18446744073709551616 ∧ r.Stuck) ∧
    ∃ cap programs drains r₀ turns r, (∀ program ∈ programs, ∀ c ∈ program, c.n ≤ cap) ∧
      ring cap programs drains = .ok r₀ ∧ (∀ t ∈ turns, t.calls = []) ∧
      run turns r₀ = .ok ⟨⟩ r ∧ r.consumer.pc = .idle ∧ r.Stuck := by
  constructor
  · obtain ⟨r₀, e₀, hrun⟩ := run_held
    refine ⟨1, _, _, r₀, _, _, by simp [token], e₀, by simp [Turn.calls], hrun, by decide,
      Nat.one_lt_two, not_delivers ⟨fun _ _ hread => (by cases hread), 0, rfl, by decide⟩, ?_⟩
    rintro i ⟨p, hp, hable⟩
    cases i with
    | zero =>
      cases hp
      exact absurd hable (by decide)
    | succ i => cases hp
  · obtain ⟨m, program, r₀, turns, hm, hprogram, hturns, e₀, hrun⟩ := run_overrun []
    refine ⟨1, [program], _, r₀, turns, _, ?_, e₀, hturns, hrun, rfl, ?_,
      not_delivers ⟨fun _ _ hread => (by cases hread), -1, ?_, ?_⟩, ?_⟩
    · simpa using fun c hc => (hprogram c hc).le
    · exact overrun_behind _ _ _
    · rw [show (overrun (1 + m) program []).cap = 1 from rfl, Nat.mod_one]
      rfl
    · have hround : i64 ((1 + m : Nat) : Int) = -2 := by unfold i64; omega
      rw [show (overrun (1 + m) program []).cap = 1 from rfl, Nat.div_one,
        show (overrun (1 + m) program []).consumer.head = 1 + m from rfl, hround]
      decide
    · rintro i ⟨p, hp, hable⟩
      cases i with
      | zero =>
        cases hp
        exact hable
      | succ i => cases hp

end HiPerf.Mpsc
