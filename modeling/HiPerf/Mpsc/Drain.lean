import HiPerf.Mpsc.Safety

/-!
A `drain` is over after one lap at most, however many tokens it may hand out, and
the safety of the ring. Both end where the claim counter wraps.
-/

namespace HiPerf.Mpsc

open Machine Exec

variable {cap : Nat} {r : Ring}

/-- How many steps of its own the consumer is away from the end of a call. -/
def ConsumerPc.left (cap : Nat) : ConsumerPc → Nat
  | .idle => 0
  | .checking _ count => 2 * (cap - count) + 2
  | .reading _ count => 2 * (cap - count) + 1
  | .releasing _ => 1

theorem Consumer.leave_left (c : Consumer) (count cap : Nat) : (c.leave count).pc.left cap ≤ 1 := by
  unfold Consumer.leave
  dsimp only
  split
  · exact Nat.le_refl _
  · exact Nat.zero_le _

theorem Consumer.loop_left (c : Consumer) (max count cap : Nat) :
    (c.loop max count).pc.left cap ≤ 2 * (cap - count) + 2 := by
  unfold Consumer.loop
  split
  · exact Nat.le_refl _
  · have := c.leave_left count cap
    omega

/-- Inside a call every step of the consumer brings its end nearer. -/
theorem consume_nearer {W : Nat → Prop} {r' : Ring} (h : Inv W r) (hpc : r.consumer.pc ≠ .idle)
    (e : consume r = .ok ⟨⟩ r') :
    r'.consumer.pc.left r.cap < r.consumer.pc.left r.cap ∧ r'.cap = r.cap := by
  have hcount := h.count
  cases hc : r.consumer.pc with
  | idle => exact absurd hc hpc
  | checking max count =>
    cases ha : r.avail[r.consumer.head % r.cap]? with
    | none =>
      simp only [consume, get_bind, hc, ha] at e
      cases e
    | some round =>
      simp only [consume, get_bind, hc, ha] at e
      cases e
      refine ⟨?_, rfl⟩
      dsimp only
      split
      · have := r.consumer.leave_left count r.cap
        have hleft : ConsumerPc.left r.cap (.checking max count) = 2 * (r.cap - count) + 2 := rfl
        rw [hleft]
        omega
      · simp only [ConsumerPc.left]
        omega
  | reading max count =>
    have hfine := h.consuming
    simp only [Consumer.Fine, hc] at hfine
    have := h.ahead _ hfine.2.2
    cases hb : r.buf[r.consumer.head % r.cap]? with
    | none =>
      simp only [consume, get_bind, hc, hb] at e
      cases e
    | some v =>
      simp only [consume, get_bind, hc, hb] at e
      cases e
      refine ⟨?_, rfl⟩
      have := Consumer.loop_left { r.consumer with head := u64 (r.consumer.head + 1) } max
        (count + 1) r.cap
      simp only [ConsumerPc.left, hc] at this ⊢
      omega
  | releasing count =>
    simp only [consume, get_bind, hc] at e
    cases e
    exact ⟨Nat.zero_lt_one, rfl⟩

/-- A turn of the consumer. -/
def Turn.isConsumer : Turn → Bool
  | .consumer => true
  | _ => false

theorem produce_frame {i : Nat} {r' : Ring} (e : produce i r = .ok ⟨⟩ r') :
    r'.consumer = r.consumer ∧ r.claimed.length ≤ r'.claimed.length := by
  cases hp : r.producers[i]? with
  | none =>
    simp only [produce, get_bind, hp] at e
    cases e
    exact ⟨rfl, Nat.le_refl _⟩
  | some p =>
    cases hpc : p.pc with
    | idle =>
      cases hprog : p.program with
      | nil =>
        simp only [produce, get_bind, hp, hpc, hprog] at e
        cases e
        exact ⟨rfl, Nat.le_refl _⟩
      | cons c program =>
        simp only [produce, get_bind, hp, hpc, hprog] at e
        split at e
        · cases e
        · cases e
          exact ⟨rfl, by simp⟩
    | waiting seq c =>
      simp only [produce, get_bind, hp, hpc] at e
      cases e
      exact ⟨rfl, Nat.le_refl _⟩
    | storing seq c k =>
      simp only [produce, get_bind, hp, hpc] at e
      split at e
      · cases e
      · cases e
        exact ⟨rfl, Nat.le_refl _⟩
    | marking seq c k =>
      simp only [produce, get_bind, hp, hpc] at e
      split at e
      · cases e
      · cases e
        exact ⟨rfl, Nat.le_refl _⟩

theorem consume_frame {r' : Ring} (e : consume r = .ok ⟨⟩ r') : r'.claimed = r.claimed := by
  cases hpc : r.consumer.pc with
  | idle =>
    cases hprog : r.consumer.program with
    | nil =>
      simp only [consume, get_bind, hpc, hprog] at e
      cases e
      rfl
    | cons max program =>
      simp only [consume, get_bind, hpc, hprog] at e
      cases e
      rfl
  | checking max count =>
    cases ha : r.avail[r.consumer.head % r.cap]? with
    | none =>
      simp only [consume, get_bind, hpc, ha] at e
      cases e
    | some round =>
      simp only [consume, get_bind, hpc, ha] at e
      cases e
      rfl
  | reading max count =>
    cases hb : r.buf[r.consumer.head % r.cap]? with
    | none =>
      simp only [consume, get_bind, hpc, hb] at e
      cases e
    | some v =>
      simp only [consume, get_bind, hpc, hb] at e
      cases e
      rfl
  | releasing count =>
    simp only [consume, get_bind, hpc] at e
    cases e
    rfl

theorem clone_frame {i : Nat} {program : List Burst} {r' : Ring}
    (e : clone i program r = .ok ⟨⟩ r') : r'.consumer = r.consumer ∧ r'.claimed = r.claimed := by
  cases hp : r.producers[i]? with
  | none =>
    simp only [clone, get_bind, hp] at e
    cases e
    exact ⟨rfl, rfl⟩
  | some p =>
    cases hpc : p.pc <;>
    · simp only [clone, get_bind, hp, hpc] at e
      cases e
      exact ⟨rfl, rfl⟩

/-- Claims are never taken back, and only the consumer moves the consumer. -/
theorem step_frame {t : Turn} {r' : Ring} (e : step t r = .ok ⟨⟩ r') :
    r.claimed.length ≤ r'.claimed.length ∧
      (t.isConsumer = false → r'.consumer = r.consumer) := by
  cases t with
  | producer i =>
    obtain ⟨hc, hle⟩ := produce_frame e
    exact ⟨hle, fun _ => hc⟩
  | consumer => exact ⟨(congrArg List.length (consume_frame e)).ge, nofun⟩
  | clone i program =>
    obtain ⟨hc, hle⟩ := clone_frame e
    exact ⟨(congrArg List.length hle).ge, fun _ => hc⟩

theorem run_claimed {turns : List Turn} {r' : Ring} (e : run turns r = .ok ⟨⟩ r') :
    r.claimed.length ≤ r'.claimed.length :=
  runAll_induct (P := fun _ s => r.claimed.length ≤ s.claimed.length) (Nat.le_refl _)
    (fun _ _ _ _ h e' => h.trans (step_frame e').1) e

/-- A call that is under way in `r` comes to its end within one lap, whatever the
other side does meanwhile. -/
def Ring.Drains (r : Ring) : Prop :=
  ∀ turns r', (∀ t ∈ turns, ∀ c ∈ t.calls, c.n ≤ r.cap) → run turns r = .ok ⟨⟩ r' →
    r'.claimed.length < 18446744073709551616 → 2 * r.cap + 2 ≤ turns.countP Turn.isConsumer →
      ∃ first rest r₁, turns = first ++ rest ∧ run first r = .ok ⟨⟩ r₁ ∧ r₁.consumer.pc = .idle

theorem ends_of_left (h : r.Good cap) {turns : List Turn} {r' : Ring}
    (hturns : ∀ t ∈ turns, ∀ c ∈ t.calls, c.n ≤ cap) (e : run turns r = .ok ⟨⟩ r')
    (hlt : r'.claimed.length < 18446744073709551616)
    (hmany : r.consumer.pc.left cap ≤ turns.countP Turn.isConsumer) :
    ∃ first rest r₁, turns = first ++ rest ∧ run first r = .ok ⟨⟩ r₁ ∧ r₁.consumer.pc = .idle := by
  induction turns generalizing r with
  | nil =>
    refine ⟨[], [], r, rfl, rfl, ?_⟩
    cases hpc : r.consumer.pc with
    | idle => rfl
    | checking max count => simp [hpc, ConsumerPc.left] at hmany
    | reading max count => simp [hpc, ConsumerPc.left] at hmany
    | releasing count => simp [hpc, ConsumerPc.left] at hmany
  | cons t turns ih =>
    by_cases hidle : r.consumer.pc = .idle
    · exact ⟨[], t :: turns, r, rfl, rfl, hidle⟩
    · obtain ⟨r₁, e₁, e₂⟩ := runAll_cons_eq_ok.mp e
      obtain ⟨r₁', e₁', h₁⟩ := step_keeps h (hturns t List.mem_cons_self)
      cases e₁.symm.trans e₁'
      have hbound := run_claimed e₂
      have hmono := (step_frame e₁).1
      obtain ⟨W, hW⟩ := h.2 (by omega)
      have hleft : r₁.consumer.pc.left cap ≤ turns.countP Turn.isConsumer := by
        rw [List.countP_cons] at hmany
        cases hcon : t.isConsumer with
        | false =>
          rw [(step_frame e₁).2 hcon]
          simpa [hcon] using hmany
        | true =>
          cases t with
          | consumer =>
            have hnear := (consume_nearer hW hidle e₁).1
            rw [h.1.cap_eq] at hnear
            simp only [Turn.isConsumer, if_true] at hmany
            omega
          | producer i => cases hcon
          | clone i program => cases hcon
      obtain ⟨first, rest, r₂, rfl, e₃, h₃⟩ :=
        ih h₁ (fun t' ht' => hturns t' (List.mem_cons_of_mem _ ht')) e₂ hleft
      exact ⟨t :: first, rest, r₂, rfl, runAll_cons_eq_ok.mpr ⟨r₁, e₁, e₃⟩, h₃⟩

theorem ConsumerPc.left_le (pc : ConsumerPc) (cap : Nat) : pc.left cap ≤ 2 * cap + 2 := by
  cases pc <;> simp only [ConsumerPc.left] <;> omega

theorem Ring.Good.drains (h : r.Good cap) : r.Drains := by
  intro turns r' hturns e hlt hmany
  have hcap := h.1.cap_eq
  rw [hcap] at hturns hmany
  exact ends_of_left h hturns e hlt ((ConsumerPc.left_le _ _).trans hmany)

/-- While fewer than `2^64` sequences are claimed, no call fails, and in every
order of steps the tokens come in claim order, out of slots that are written once
a lap, and every `drain` ends. -/
theorem delivers_claims {programs : List (List Burst)} {drains : List Nat} {r₀ : Ring}
    (h₀ : ring cap programs drains = .ok r₀)
    (hprograms : ∀ program ∈ programs, ∀ c ∈ program, c.n ≤ cap)
    {turns : List Turn} (hturns : ∀ t ∈ turns, ∀ c ∈ t.calls, c.n ≤ cap) :
    ∃ r, run turns r₀ = .ok ⟨⟩ r ∧
      (r.claimed.length < 18446744073709551616 → r.Safe ∧ r.Drains) := by
  obtain ⟨r, e, h⟩ := run_keeps (ring_good h₀ hprograms).1 hturns
  refine ⟨r, e, fun hlt => ?_⟩
  obtain ⟨W, hW⟩ := h.2 hlt
  exact ⟨hW.safe, h.drains⟩

def token (v : Nat) : Burst := ⟨1, fun _ => v⟩

/-- Two producers fill a ring of two slots, the later claim first. -/
theorem delivers_claims_twoProducers :
    (∀ program ∈ [[token 1], [token 2]], ∀ c ∈ program, c.n ≤ 2) ∧
    (∀ t ∈ ([.producer 0, .producer 1, .producer 1, .producer 1, .consumer, .consumer] : List Turn),
      ∀ c ∈ t.calls, c.n ≤ 2) ∧
    ∃ r₀, ring 2 [[token 1], [token 2]] [18446744073709551615] = .ok r₀ ∧
      ∃ r, run [.producer 0, .producer 1, .producer 1, .producer 1, .consumer, .consumer] r₀ =
        .ok ⟨⟩ r ∧ (r.claimed.length < 18446744073709551616 → r.Safe ∧ r.Drains) := by
  have hprograms : ∀ program ∈ [[token 1], [token 2]], ∀ c ∈ program, c.n ≤ 2 := by
    simp [token]
  have hturns : ∀ t ∈ ([.producer 0, .producer 1, .producer 1, .producer 1, .consumer,
      .consumer] : List Turn), ∀ c ∈ t.calls, c.n ≤ 2 := by
    simp [Turn.calls]
  exact ⟨hprograms, hturns, _, rfl, delivers_claims rfl hprograms hturns⟩

/-- A ring of one slot after `k` tokens, each consumed before the next. -/
def lapped (k : Nat) (calls program : List Burst) (drains : List Nat) : Ring where
  buf := #[7]
  avail := #[i64 (k - 1 : Nat)]
  cap := 1
  claim := k
  head := k
  producers := [⟨k - 1, .idle, program, calls⟩]
  consumer := ⟨k, .idle, drains⟩
  claimed := List.replicate k (0, 7)
  delivered := List.replicate k 7

/-- The producer waits for the slot and fills it. -/
def fillTurns : List Turn := [.producer 0, .producer 0, .producer 0, .producer 0]

/-- A call of `drain(1)` that finds its token. -/
def drainTurns : List Turn := [.consumer, .consumer, .consumer, .consumer]

/-- The ring once the producer has filled it after `k` tokens. -/
def filled (k : Nat) (calls program : List Burst) (drains : List Nat) : Ring :=
  { lapped k calls program drains with
    avail := #[i64 (k : Nat)]
    claim := k + 1
    producers := [⟨k, .idle, program, calls⟩]
    claimed := List.replicate (k + 1) (0, 7) }

theorem run_fill {k : Nat} (hk : 1 ≤ k) (hlt : k + 1 < 18446744073709551616)
    (calls program : List Burst) (drains : List Nat) :
    run fillTurns (lapped k calls (token 7 :: program) drains) =
      .ok ⟨⟩ (filled k calls program drains) := by
  have hself : u64 (k : Int) = k := by unfold u64; omega
  have hneed : need 1 k 1 = k := by rw [need_eq hlt, Nat.add_sub_cancel]
  have hnext : u64 ((k : Int) + 1) = k + 1 := by unfold u64; omega
  have hcached : k - 1 < k := Nat.sub_lt hk Nat.one_pos
  have hlog : List.replicate k (0, 7) ++ [(0, 7)] = List.replicate (k + 1) (0, 7) :=
    List.replicate_succ'.symm
  simp [run, fillTurns, lapped, filled, token, runAll, step, produce, Producer.store, Burst.tokens,
    hself, hneed, hnext, hcached, hlog, Nat.mod_one]

/-- The consumer finds the round number it looks for. -/
theorem consume_found {max count : Nat} (hpc : r.consumer.pc = .checking max count)
    (ha : r.avail[r.consumer.head % r.cap]? = some (i64 (r.consumer.head / r.cap : Nat))) :
    consume r = .ok ⟨⟩ { r with consumer := { r.consumer with pc := .reading max count } } := by
  simp only [consume, get_bind, hpc, ha]
  rw [if_neg (not_not.mpr rfl)]
  rfl

theorem get_one (a : Int) : #[a][0]? = some a := rfl

theorem run_drain {k : Nat} (hlt : k + 1 < 18446744073709551616) (calls program : List Burst)
    (drains : List Nat) :
    run drainTurns (filled k calls program (1 :: drains)) =
      .ok ⟨⟩ (lapped (k + 1) calls program drains) := by
  have hnext : u64 ((k : Int) + 1) = k + 1 := by unfold u64; omega
  have hlog : List.replicate k 7 ++ [7] = List.replicate (k + 1) 7 := List.replicate_succ'.symm
  have hstart : consume (filled k calls program (1 :: drains)) = .ok ⟨⟩
      { filled k calls program drains with consumer := ⟨k, .checking 1 0, drains⟩ } := rfl
  have hfound : consume
      { filled k calls program drains with consumer := ⟨k, .checking 1 0, drains⟩ } = .ok ⟨⟩
      { filled k calls program drains with consumer := ⟨k, .reading 1 0, drains⟩ } := by
    refine consume_found rfl ?_
    simp only [filled, lapped, Nat.mod_one, Nat.div_one]
    exact get_one _
  refine runAll_cons_eq_ok.mpr ⟨_, hstart, runAll_cons_eq_ok.mpr ⟨_, hfound, ?_⟩⟩
  rw [filled]
  simp [lapped, runAll, step, consume, Consumer.loop, Consumer.leave, hnext, hlog, Nat.mod_one]

theorem run_lap {k : Nat} (hk : 1 ≤ k) (hlt : k + 1 < 18446744073709551616)
    (calls program : List Burst) (drains : List Nat) :
    run (fillTurns ++ drainTurns) (lapped k calls (token 7 :: program) (1 :: drains)) =
      .ok ⟨⟩ (lapped (k + 1) calls program drains) :=
  runAll_append_eq_ok.mpr
    ⟨_, run_fill hk hlt calls program (1 :: drains), run_drain hlt calls program drains⟩

theorem run_laps (m : Nat) {k : Nat} (hk : 1 ≤ k) (hlt : k + m < 18446744073709551616)
    (calls program : List Burst) (drains : List Nat) :
    run (List.replicate m (fillTurns ++ drainTurns)).flatten
      (lapped k calls (List.replicate m (token 7) ++ program) (List.replicate m 1 ++ drains)) =
        .ok ⟨⟩ (lapped (k + m) calls program drains) := by
  induction m generalizing k with
  | zero => rfl
  | succ m ih =>
    rw [List.replicate_succ, List.flatten_cons, List.replicate_succ, List.replicate_succ]
    have hlap := run_lap hk (by omega) calls (List.replicate m (token 7) ++ program)
      (List.replicate m 1 ++ drains)
    have hrest := ih (k := k + 1) (by omega) (by omega)
    rw [Nat.add_right_comm k 1 m] at hrest
    exact runAll_append_eq_ok.mpr ⟨_, hlap, hrest⟩

/-- The first token meets an empty ring. -/
theorem run_first (program : List Burst) (drains : List Nat) : ∃ r₀,
    ring 1 [token 7 :: program] (1 :: drains) = .ok r₀ ∧
      run ([.producer 0, .producer 0, .producer 0] ++ drainTurns) r₀ =
        .ok ⟨⟩ (lapped 1 (token 7 :: program) program drains) := by
  refine ⟨_, rfl, ?_⟩
  have hzero : u64 0 = 0 := rfl
  have hone : u64 1 = 1 := rfl
  have hround : i64 0 = 0 := rfl
  have hneed : need 1 0 1 = 0 := rfl
  simp [run, lapped, token, drainTurns, runAll, step, produce, consume, Producer.store,
    Consumer.loop, Consumer.leave, Burst.tokens, hzero, hone, hround, hneed]

/-- A ring of one slot that both its last sequences were written to, while the
consumer waits for the first of them. -/
def overrun (k : Nat) (calls : List Burst) (drains : List Nat) : Ring :=
  { lapped k calls [] drains with
    buf := #[8]
    avail := #[-1]
    claim := 0
    producers := [⟨k, .idle, [], calls⟩]
    claimed := List.replicate (k + 1) (0, 7) ++ [(0, 8)] }

theorem overrun_behind (k : Nat) (calls : List Burst) (drains : List Nat) :
    (overrun k calls drains).consumer.head < (overrun k calls drains).claimed.length := by
  have hlen : (overrun k calls drains).claimed.length = k + 2 := by
    rw [overrun, List.length_append, List.length_replicate, List.length_singleton]
  rw [hlen]
  exact Nat.lt_add_of_pos_right (by decide)

/-- At the last sequence `seq + n` wraps, and the producer does not wait. -/
theorem run_over {k : Nat} (hk : k + 2 = 18446744073709551616) (calls : List Burst)
    (drains : List Nat) :
    run [.producer 0, .producer 0, .producer 0] (filled k calls [token 8] drains) =
      .ok ⟨⟩ (overrun k calls drains) := by
  have hself : u64 ((k : Int) + 1) = k + 1 := by unfold u64; omega
  have hnext : u64 ((k : Int) + 1 + 1) = 0 := by unfold u64; omega
  have hneed : need 1 (k + 1) 1 = 0 := by unfold need u64; omega
  have hround : i64 ((k : Int) + 1) = -1 := by unfold i64; omega
  simp [run, lapped, filled, overrun, token, runAll, step, produce, Producer.store, Burst.tokens,
    hself, hneed, hnext, hround, Nat.mod_one]

/-- After `2^64 - 2` tokens that the consumer took one by one it stops, and the
producer publishes twice. -/
theorem run_overrun (drains : List Nat) : ∃ m program r₀ turns,
    m + 3 = 18446744073709551616 ∧ (∀ c ∈ program, c.n = 1) ∧ (∀ t ∈ turns, t.calls = []) ∧
    ring 1 [program] (1 :: (List.replicate m 1 ++ drains)) = .ok r₀ ∧
    run turns r₀ = .ok ⟨⟩ (overrun (1 + m) program drains) := by
  obtain ⟨m, hm⟩ : ∃ m, m + 3 = 18446744073709551616 := ⟨18446744073709551613, rfl⟩
  obtain ⟨r₀, e₀, hfirst⟩ := run_first (List.replicate m (token 7) ++ [token 7, token 8])
    (List.replicate m 1 ++ drains)
  refine ⟨m, _, r₀, _, hm, ?_, ?_, e₀, runAll_append_eq_ok.mpr ⟨_, hfirst, runAll_append_eq_ok.mpr
    ⟨_, run_laps m (Nat.le_refl 1) (by omega) _ _ _, runAll_append_eq_ok.mpr
      ⟨_, run_fill (by omega) (by omega) _ _ _, run_over (by omega) _ _⟩⟩⟩⟩
  · intro c hc
    simp only [List.mem_cons, List.mem_append, List.mem_replicate, List.not_mem_nil, or_false] at hc
    rcases hc with rfl | ⟨-, rfl⟩ | rfl | rfl <;> rfl
  · intro t ht
    have hlap : ∀ t ∈ fillTurns ++ drainTurns, t.calls = [] := by
      simp [fillTurns, drainTurns, Turn.calls]
    rcases List.mem_append.mp ht with h | h
    · simp only [List.mem_append, List.mem_cons, List.not_mem_nil, or_false] at h
      rcases h with (rfl | rfl | rfl) | h
      · rfl
      · rfl
      · rfl
      · exact hlap t (List.mem_append_right _ h)
    · rcases List.mem_append.mp h with h | h
      · obtain ⟨ts, hts, h⟩ := List.mem_flatten.mp h
        exact hlap t (List.eq_of_mem_replicate hts ▸ h)
      · rcases List.mem_append.mp h with h | h
        · exact hlap t (List.mem_append_left _ h)
        · simp only [List.mem_cons, List.not_mem_nil, or_false] at h
          rcases h with rfl | rfl | rfl <;> rfl

/-- The slot of a written sequence that the consumer has not reached is
overwritten. -/
theorem overwritten_wrap : ∃ cap programs drains r₀ turns r,
    (∀ program ∈ programs, ∀ c ∈ program, c.n ≤ cap) ∧ ring cap programs drains = .ok r₀ ∧
    (∀ t ∈ turns, t.calls = []) ∧ run turns r₀ = .ok ⟨⟩ r ∧
    ∃ s t, r.consumer.head ≤ s ∧ r.Written s ∧ r.claimed[s]? = some t ∧
      r.buf[s % r.cap]? ≠ some t.2 := by
  obtain ⟨m, program, r₀, turns, hm, hprogram, hturns, e₀, hrun⟩ := run_overrun []
  refine ⟨1, [program], _, r₀, turns, _, ?_, e₀, hturns, hrun, 1 + m, (0, 7), Nat.le_refl _,
    ⟨?_, ?_⟩, ?_, ?_⟩
  · simpa using fun c hc => (hprogram c hc).le
  · exact overrun_behind _ _ _
  · intro i p hp
    cases i with
    | zero => cases hp; exact id
    | succ i => cases hp
  · change (List.replicate (1 + m + 1) (0, 7) ++ [(0, 8)])[1 + m]? = some (0, 7)
    rw [List.getElem?_append_left (by rw [List.length_replicate]; exact Nat.lt_succ_self _),
      List.getElem?_replicate, if_pos (Nat.lt_succ_self _)]
  · simp [overrun, lapped, Nat.mod_one]

end HiPerf.Mpsc
