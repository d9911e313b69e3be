import HiPerf.Mpsc.Model

/-!
Every interleaving of the multi-producer ring hands the consumer the claimed
tokens in claim order. The invariant splits the claimed sequences into those
that are written and those that the calls under way still hold.
-/

namespace HiPerf.Mpsc

open Machine Exec

/-- The sequences a call has claimed and not yet written. -/
def ProducerPc.Holds : ProducerPc → Nat → Prop
  | .idle, _ => False
  | .waiting seq c, s => seq ≤ s ∧ s < seq + c.n
  | .storing seq c k, s => seq + k ≤ s ∧ s < seq + c.n
  | .marking seq c k, s => seq + k ≤ s ∧ s < seq + c.n

/-- The tokens of a program, in order. -/
def tokensOf (calls : List Burst) : List Nat := calls.flatMap Burst.tokens

namespace Ring

/-- The claims have the tokens of `c` from `seq` on, for producer `i`. -/
def Owns (r : Ring) (i seq : Nat) (c : Burst) : Prop :=
  seq + c.n ≤ r.claimed.length ∧ ∀ k < c.n, r.claimed[seq + k]? = some (i, c.fill k)

/-- The tokens producer `i` has claimed sequences for. -/
def tokensBy (claimed : List (Nat × Nat)) (i : Nat) : List Nat :=
  (claimed.filter fun t => t.1 = i).map Prod.snd

end Ring

/-- What producer `i` knows about the call under way. -/
def Producer.Fine (r : Ring) (i : Nat) (p : Producer) : Prop :=
  match p.pc with
  | .idle => True
  | .waiting seq c => c.n ≤ r.cap ∧ r.Owns i seq c
  | .storing seq c k => k < c.n ∧ seq + c.n ≤ p.cachedHead + r.cap ∧ r.Owns i seq c
  | .marking seq c k => k < c.n ∧ seq + c.n ≤ p.cachedHead + r.cap ∧ r.Owns i seq c ∧
      r.buf[(seq + k) % r.cap]? = some (c.fill k)

/-- What the consumer knows, when `W` are the written sequences. -/
def Consumer.Fine (W : Nat → Prop) (head : Nat) (c : Consumer) : Prop :=
  match c.pc with
  | .idle => head = c.head
  | .checking max count => count < max ∧ head + count = c.head
  | .reading max count => count < max ∧ head + count = c.head ∧ W c.head
  | .releasing count => head + count = c.head

/-- What holds between two steps, when `W` are the written sequences. -/
structure Inv (W : Nat → Prop) (r : Ring) : Prop where
  cap_pos : 0 < r.cap
  buf_size : r.buf.size = r.cap
  avail_size : r.avail.size = r.cap
  claim : r.claim = r.claimed.length
  total : r.claimed.length < 18446744073709551616
  head_le : r.head ≤ r.consumer.head
  consumed : r.consumer.head ≤ r.claimed.length
  owners : ∀ s i v : Nat, r.claimed[s]? = some (i, v) → i < r.producers.length
  cached : ∀ (i : Nat) (p : Producer), r.producers[i]? = some p → p.cachedHead ≤ r.head
  producing : ∀ (i : Nat) (p : Producer), r.producers[i]? = some p → p.Fine r i
  own : ∀ (i : Nat) (p : Producer), r.producers[i]? = some p →
    Ring.tokensBy r.claimed i ++ tokensOf p.program = tokensOf p.calls
  calls : ∀ (i : Nat) (p : Producer), r.producers[i]? = some p → ∀ c ∈ p.program, c.n ≤ r.cap
  written : ∀ s, W s ↔
    s < r.claimed.length ∧ ∀ (i : Nat) (p : Producer), r.producers[i]? = some p → ¬ p.pc.Holds s
  drained : ∀ s < r.consumer.head, W s
  ahead : ∀ s, W s → s < r.head + r.cap
  shown : ∀ s, r.consumer.head ≤ s → W s → r.avail[s % r.cap]? = some (i64 (s / r.cap : Nat)) ∧
    r.buf[s % r.cap]? = r.claimed[s]?.map Prod.snd
  marks : ∀ (j : Nat) (a : Int), r.avail[j]? = some a →
    (a = -1 ∧ ∀ s, W s → s % r.cap ≠ j) ∨
      ∃ s, W s ∧ s % r.cap = j ∧ a = i64 (s / r.cap : Nat)
  delivered : r.delivered = (r.claimed.take r.consumer.head).map Prod.snd
  consuming : r.consumer.Fine W r.head

/-- What all producers satisfy they still do when producer `i` is replaced. -/
theorem forall_set {ps : List Producer} {P : Nat → Producer → Prop} {i : Nat} {p' : Producer}
    (h : ∀ j q, j ≠ i → ps[j]? = some q → P j q) (h' : P i p') :
    ∀ j q, (ps.set i p')[j]? = some q → P j q := by
  intro j q hq
  rw [List.getElem?_set] at hq
  split at hq
  · rename_i e
    split at hq
    · cases hq
      exact e ▸ h'
    · cases hq
  · rename_i e
    exact h j q (Ne.symm e) hq

theorem get_set {ps : List Producer} {i : Nat} {p p' : Producer} (hp : ps[i]? = some p) :
    (ps.set i p')[i]? = some p' := by
  have hlt := (List.getElem?_eq_some_iff.mp hp).1
  rw [List.getElem?_set_self hlt]

/-- What a producer knows outlasts new claims, and writes to other slots. -/
theorem Producer.Fine.mono {r r' : Ring} {i : Nat} {p : Producer} (h : p.Fine r i)
    (hcap : r'.cap = r.cap) (hclaimed : r.claimed <+: r'.claimed)
    (hbuf : ∀ seq c k, p.pc = .marking seq c k →
      r'.buf[(seq + k) % r.cap]? = r.buf[(seq + k) % r.cap]?) : p.Fine r' i := by
  have howns : ∀ {seq c}, r.Owns i seq c → r'.Owns i seq c := by
    intro seq c ho
    obtain ⟨ts, e⟩ := hclaimed
    rw [Ring.Owns, ← e]
    refine ⟨ho.1.trans (by simp), fun k hk => ?_⟩
    have hlt : seq + k < r.claimed.length := by
      have := ho.1
      omega
    rw [List.getElem?_append_left hlt]
    exact ho.2 k hk
  unfold Producer.Fine at h ⊢
  rw [hcap]
  cases hpc : p.pc with
  | idle => trivial
  | waiting seq c =>
    rw [hpc] at h
    exact ⟨h.1, howns h.2⟩
  | storing seq c k =>
    rw [hpc] at h
    exact ⟨h.1, h.2.1, howns h.2.2⟩
  | marking seq c k =>
    rw [hpc] at h
    exact ⟨h.1, h.2.1, howns h.2.2.1, (hbuf seq c k hpc).trans h.2.2.2⟩

/-- What the consumer knows outlasts new writes. -/
theorem Consumer.Fine.mono {W W' : Nat → Prop} {head : Nat} {c : Consumer} (h : c.Fine W head)
    (hW : ∀ s, W s → W' s) : c.Fine W' head := by
  unfold Consumer.Fine at h ⊢
  cases hc : c.pc with
  | idle => rw [hc] at h; exact h
  | checking max count => rw [hc] at h; exact h
  | reading max count => rw [hc] at h; exact ⟨h.1, h.2.1, hW _ h.2.2⟩
  | releasing count => rw [hc] at h; exact h

/-- After slot `k` a call holds what is behind it. -/
theorem store_holds (p : Producer) (seq : Nat) (c : Burst) (k s : Nat) :
    (p.store seq c (k + 1)).pc.Holds s ↔ seq + k + 1 ≤ s ∧ s < seq + c.n := by
  by_cases hlast : k + 1 < c.n
  · simp only [Producer.store, if_pos hlast, ProducerPc.Holds]
    omega
  · simp only [Producer.store, if_neg hlast, ProducerPc.Holds, false_iff]
    omega

theorem tokensBy_append (claimed ts : List (Nat × Nat)) (i : Nat) :
    Ring.tokensBy (claimed ++ ts) i = Ring.tokensBy claimed i ++ Ring.tokensBy ts i := by
  simp [Ring.tokensBy]

theorem tokensBy_burst (c : Burst) (i j : Nat) :
    Ring.tokensBy (c.tokens.map fun v => (i, v)) j = if j = i then c.tokens else [] := by
  rw [Ring.tokensBy, List.filter_map, List.map_map]
  split
  · rename_i e
    rw [e, List.filter_eq_self.mpr (by simp)]
    exact List.map_id _
  · rename_i e
    rw [List.filter_eq_nil_iff.mpr (by simpa using fun _ _ => Ne.symm e), List.map_nil]

namespace Inv

variable {W : Nat → Prop} {r : Ring} {i : Nat} {p p' : Producer} {seq k s : Nat} {c : Burst}

/-- A sequence still held belongs to the producer that holds it. -/
theorem owner (h : Inv W r) (hp : r.producers[i]? = some p) (hs : p.pc.Holds s) :
    ∃ v, r.claimed[s]? = some (i, v) := by
  have hfine := h.producing i p hp
  have howns : ∀ {seq c}, r.Owns i seq c → seq ≤ s → s < seq + c.n →
      ∃ v, r.claimed[s]? = some (i, v) := by
    intro seq c howns hle hlt
    have := howns.2 (s - seq) (by omega)
    rw [Nat.add_sub_cancel' hle] at this
    exact ⟨_, this⟩
  unfold Producer.Fine at hfine
  cases hpc : p.pc with
  | idle => rw [hpc] at hs; exact absurd hs id
  | waiting seq c =>
    rw [hpc] at hs hfine
    exact howns hfine.2 hs.1 hs.2
  | storing seq c k =>
    rw [hpc] at hs hfine
    exact howns hfine.2.2 (by have := hs.1; omega) hs.2
  | marking seq c k =>
    rw [hpc] at hs hfine
    exact howns hfine.2.2.1 (by have := hs.1; omega) hs.2

/-- No two producers hold the same sequence. -/
theorem holder_unique (h : Inv W r) (hp : r.producers[i]? = some p) (hs : p.pc.Holds s) {j : Nat}
    {q : Producer} (hq : r.producers[j]? = some q) (hs' : q.pc.Holds s) : j = i := by
  obtain ⟨v, e⟩ := h.owner hp hs
  obtain ⟨v', e'⟩ := h.owner hq hs'
  rw [e] at e'
  cases e'
  rfl

/-- What is still held is neither written nor drained. -/
theorem held (h : Inv W r) (hp : r.producers[i]? = some p) (hs : p.pc.Holds s) :
    ¬ W s ∧ r.consumer.head ≤ s := by
  have hw : ¬ W s := fun hw => ((h.written s).mp hw).2 i p hp hs
  exact ⟨hw, Nat.not_lt.mp fun hlt => hw (h.drained s hlt)⟩

/-- A producer goes on by itself. -/
theorem producer (h : Inv W r) (hp : r.producers[i]? = some p) (hcached : p'.cachedHead ≤ r.head)
    (hprog : p'.program = p.program) (hcalls : p'.calls = p.calls)
    (hfine : p'.Fine { r with producers := r.producers.set i p' } i)
    (hholds : ∀ s, p'.pc.Holds s ↔ p.pc.Holds s) :
    Inv W { r with producers := r.producers.set i p' } :=
  { h with
    owners := fun s j v e => by
      rw [List.length_set]
      exact h.owners s j v e
    cached := forall_set (fun j q _ => h.cached j q) hcached
    producing := forall_set (fun j q _ => h.producing j q) hfine
    own := forall_set (fun j q _ => h.own j q) (by rw [hprog, hcalls]; exact h.own i p hp)
    calls := forall_set (fun j q _ => h.calls j q) (by rw [hprog]; exact h.calls i p hp)
    written := fun s => by
      rw [h.written s]
      refine and_congr_right fun _ => ⟨fun hno => ?_, fun hno j q hq hs => ?_⟩
      · exact forall_set (fun j q _ => hno j q) fun hs => hno i p hp ((hholds s).mp hs)
      · by_cases e : j = i
        · subst e
          rw [hp] at hq
          cases hq
          exact hno j p' (get_set hp) ((hholds s).mpr hs)
        · exact hno j q (by rwa [List.getElem?_set_ne (Ne.symm e)]) hs }

/-- A producer claims a range. -/
theorem start (h : Inv W r) (hp : r.producers[i]? = some p) (hpc : p.pc = .idle)
    {program : List Burst} (hprog : p.program = c :: program)
    (hlt : r.claimed.length + c.n < 18446744073709551616) (hcached : p'.cachedHead = p.cachedHead)
    (hprog' : p'.program = program) (hcalls : p'.calls = p.calls)
    (hholds : ∀ s, p'.pc.Holds s ↔ r.claimed.length ≤ s ∧ s < r.claimed.length + c.n)
    (hfine : ∀ r', r'.cap = r.cap → r'.claimed = r.claimed ++ c.tokens.map (fun v => (i, v)) →
      p'.Fine r' i) :
    Inv W { r with
      claim := r.claimed.length + c.n
      claimed := r.claimed ++ c.tokens.map fun v => (i, v)
      producers := r.producers.set i p' } := by
  have hi : i < r.producers.length := (List.getElem?_eq_some_iff.mp hp).1
  have hlen : (r.claimed ++ c.tokens.map fun v => (i, v)).length = r.claimed.length + c.n := by
    simp [Burst.tokens]
  have hcap := h.calls i p hp c (by simp [hprog])
  refine { h with
    claim := hlen.symm
    total := by rw [hlen]; exact hlt
    consumed := by dsimp only; rw [hlen]; exact h.consumed.trans (Nat.le_add_right _ _)
    owners := fun s j v e => ?_
    cached := forall_set (fun j q _ => h.cached j q) (by rw [hcached]; exact h.cached i p hp)
    producing := forall_set (fun j q _ hq => (h.producing j q hq).mono rfl (List.prefix_append _ _)
      fun _ _ _ _ => rfl) (hfine _ rfl rfl)
    own := forall_set (fun j q hne hq => ?_) ?_
    calls := forall_set (fun j q _ => h.calls j q) fun d hd => h.calls i p hp d (by
      rw [hprog, ← hprog']; exact List.mem_cons_of_mem _ hd)
    written := fun s => ?_
    shown := fun s hs hw => ?_
    delivered := by
      dsimp only
      rw [List.take_append_of_le_length h.consumed]
      exact h.delivered }
  · dsimp only at e ⊢
    rw [List.length_set]
    rw [List.getElem?_append] at e
    split at e
    · exact h.owners s j v e
    · obtain ⟨v', -, e'⟩ := List.mem_map.mp (List.mem_of_getElem? e)
      cases e'
      exact hi
  · dsimp only
    rw [tokensBy_append, tokensBy_burst, if_neg hne, List.append_nil]
    exact h.own j q hq
  · dsimp only
    rw [tokensBy_append, tokensBy_burst, if_pos rfl, hcalls, ← h.own i p hp, hprog, hprog',
      List.append_assoc]
    rfl
  · rw [h.written s]
    dsimp only
    rw [hlen]
    constructor
    · rintro ⟨hs, hno⟩
      refine ⟨by omega, forall_set (fun j q _ => hno j q) fun hh => ?_⟩
      have := ((hholds s).mp hh).1
      omega
    · rintro ⟨hs, hno⟩
      have hmine := hno i p' (get_set hp)
      rw [hholds] at hmine
      refine ⟨by omega, fun j q hq hh => ?_⟩
      by_cases e : j = i
      · subst e
        rw [hp] at hq
        cases hq
        rw [hpc] at hh
        exact hh
      · exact hno j q (by rwa [List.getElem?_set_ne (Ne.symm e)]) hh
  · have hlt := ((h.written s).mp hw).1
    dsimp only
    rw [List.getElem?_append_left hlt]
    exact h.shown s hs hw

/-- Sequences within a lap of the consumer have slots of their own. -/
theorem slots_apart (h : Inv W r) {s t : Nat} (hs : r.consumer.head ≤ s) (hs' : s < r.head + r.cap)
    (ht : r.consumer.head ≤ t) (ht' : t < r.head + r.cap) (hne : s ≠ t) :
    t % r.cap ≠ s % r.cap := by
  intro e
  have hle := h.head_le
  obtain hlt | hgt := Nat.lt_or_gt_of_ne hne
  · exact slot_ne hlt (by omega) e.symm
  · exact slot_ne hgt (by omega) e

/-- A slot is filled: it is nobody else's. -/
theorem fill (h : Inv W r) (hp : r.producers[i]? = some p) (hpc : p.pc = .storing seq c k) :
    Inv W { r with
      buf := r.buf.setIfInBounds ((seq + k) % r.cap) (c.fill k)
      producers := r.producers.set i { p with pc := .marking seq c k } } := by
  have hfine := h.producing i p hp
  simp only [Producer.Fine, hpc] at hfine
  obtain ⟨hk, hroom, howns⟩ := hfine
  have hmine : p.pc.Holds (seq + k) := by rw [hpc]; exact ⟨Nat.le_refl _, by omega⟩
  obtain ⟨hw, hhead⟩ := h.held hp hmine
  have hcached := h.cached i p hp
  have hlt := Nat.mod_lt (seq + k) h.cap_pos
  have hne : ∀ s, r.consumer.head ≤ s → s < r.head + r.cap → s ≠ seq + k →
      (r.buf.setIfInBounds ((seq + k) % r.cap) (c.fill k))[s % r.cap]? = r.buf[s % r.cap]? :=
    fun s hs hs' hne => Array.getElem?_setIfInBounds_ne
      (h.slots_apart hs hs' hhead (by omega) hne)
  have hwrite : Inv W { r with buf := r.buf.setIfInBounds ((seq + k) % r.cap) (c.fill k) } := by
    refine { h with
      buf_size := by rw [Array.size_setIfInBounds]; exact h.buf_size
      producing := fun j q hq => (h.producing j q hq).mono rfl (List.prefix_refl _)
        fun seq' c' k' hpc' => ?_
      shown := fun s hs hws => ?_ }
    · have hq' : q.pc.Holds (seq' + k') := by
        have := h.producing j q hq
        simp only [Producer.Fine, hpc'] at this
        rw [hpc']
        exact ⟨Nat.le_refl _, by omega⟩
      have hfine' := h.producing j q hq
      simp only [Producer.Fine, hpc'] at hfine'
      have := h.cached j q hq
      refine hne _ (h.held hq hq').2 (by omega) fun e => ?_
      obtain rfl := h.holder_unique hp hmine hq (e ▸ hq')
      rw [hp] at hq
      cases hq
      rw [hpc] at hpc'
      cases hpc'
    · obtain ⟨ha, hb⟩ := h.shown s hs hws
      exact ⟨ha, (hne s hs (h.ahead s hws) fun e => hw (e ▸ hws)).trans hb⟩
  refine hwrite.producer hp hcached rfl rfl ⟨hk, hroom, howns, ?_⟩ fun s => ?_
  · exact Array.getElem?_setIfInBounds_self_of_lt (by rw [h.buf_size]; exact hlt)
  · rw [hpc]
    rfl

/-- The round number of a slot that was marked is that of its sequence. -/
theorem mark_marks (h : Inv W r) {j : Nat} {a : Int}
    (ha : (r.avail.setIfInBounds ((seq + k) % r.cap) (i64 ((seq + k) / r.cap : Nat)))[j]? =
      some a) :
    (a = -1 ∧ ∀ s, W s ∨ s = seq + k → s % r.cap ≠ j) ∨
      ∃ s, (W s ∨ s = seq + k) ∧ s % r.cap = j ∧ a = i64 (s / r.cap : Nat) := by
  by_cases e : (seq + k) % r.cap = j
  · subst e
    have hlt : (seq + k) % r.cap < r.avail.size := by
      rw [h.avail_size]
      exact Nat.mod_lt _ h.cap_pos
    rw [Array.getElem?_setIfInBounds_self_of_lt hlt] at ha
    exact .inr ⟨seq + k, .inr rfl, rfl, (Option.some.inj ha).symm⟩
  · rw [Array.getElem?_setIfInBounds_ne e] at ha
    obtain ⟨hm, hnone⟩ | ⟨s, hs, e₁, e₂⟩ := h.marks j a ha
    · refine .inl ⟨hm, fun s hs => ?_⟩
      obtain hs | rfl := hs
      · exact hnone s hs
      · exact e
    · exact .inr ⟨s, .inl hs, e₁, e₂⟩

section Mark

variable (h : Inv W r) (hp : r.producers[i]? = some p) (hpc : p.pc = .marking seq c k)

include h hp hpc

/-- The sequence whose slot is to be marked is claimed, within a lap, and its token is in its
slot. -/
theorem marking : p.pc.Holds (seq + k) ∧ seq + k < r.claimed.length ∧ seq + k < r.head + r.cap ∧
    r.buf[(seq + k) % r.cap]? = r.claimed[seq + k]?.map Prod.snd := by
  have hfine := h.producing i p hp
  simp only [Producer.Fine, hpc] at hfine
  obtain ⟨hk, hroom, howns, hbuf⟩ := hfine
  have hcached := h.cached i p hp
  have hin := howns.1
  refine ⟨by rw [hpc]; exact ⟨Nat.le_refl _, by omega⟩, by omega, by omega, ?_⟩
  rw [howns.2 k hk]
  exact hbuf

/-- Nobody holds the sequence any more, and nothing else is let go. -/
theorem mark_written (s : Nat) : W s ∨ s = seq + k ↔ s < r.claimed.length ∧
    ∀ (j : Nat) (q : Producer), (r.producers.set i (p.store seq c (k + 1)))[j]? = some q →
      ¬ q.pc.Holds s := by
  obtain ⟨hmine, hin, -, -⟩ := h.marking hp hpc
  constructor
  · rintro (hs | rfl)
    · have hs' := (h.written s).mp hs
      refine ⟨hs'.1, forall_set (fun j q _ => hs'.2 j q) fun hh => hs'.2 i p hp ?_⟩
      have := (store_holds p seq c k s).mp hh
      rw [hpc]
      exact ⟨by omega, this.2⟩
    · refine ⟨hin, forall_set (fun j q hne hq hh => hne (h.holder_unique hp hmine hq hh))
        fun hh => ?_⟩
      have := ((store_holds p seq c k _).mp hh).1
      omega
  · rintro ⟨hs, hno⟩
    by_cases e : s = seq + k
    · exact .inr e
    · refine .inl ((h.written s).mpr ⟨hs, fun j q hq hh => ?_⟩)
      by_cases ej : j = i
      · subst ej
        rw [hp] at hq
        cases hq
        rw [hpc] at hh
        have := hno j _ (get_set hp)
        rw [store_holds] at this
        have := hh.1
        have := hh.2
        omega
      · exact hno j q (by rwa [List.getElem?_set_ne (Ne.symm ej)]) hh

theorem mark_shown {s : Nat} (hs : r.consumer.head ≤ s) (hws : W s ∨ s = seq + k) :
    (r.avail.setIfInBounds ((seq + k) % r.cap) (i64 ((seq + k) / r.cap : Nat)))[s % r.cap]? =
        some (i64 (s / r.cap : Nat)) ∧
      r.buf[s % r.cap]? = r.claimed[s]?.map Prod.snd := by
  obtain ⟨hmine, -, hroom, hbuf⟩ := h.marking hp hpc
  obtain ⟨hw, hhead⟩ := h.held hp hmine
  obtain hws | rfl := hws
  · have hne : s ≠ seq + k := fun e => hw (e ▸ hws)
    obtain ⟨ha, hb⟩ := h.shown s hs hws
    rw [Array.getElem?_setIfInBounds_ne (h.slots_apart hs (h.ahead s hws) hhead hroom hne)]
    exact ⟨ha, hb⟩
  · refine ⟨Array.getElem?_setIfInBounds_self_of_lt ?_, hbuf⟩
    rw [h.avail_size]
    exact Nat.mod_lt _ h.cap_pos

/-- A slot gets its round number: its sequence is written. -/
theorem mark : Inv (fun s => W s ∨ s = seq + k) { r with
    avail := r.avail.setIfInBounds ((seq + k) % r.cap) (i64 ((seq + k) / r.cap : Nat))
    producers := r.producers.set i (p.store seq c (k + 1)) } := by
  obtain ⟨-, -, hroom, -⟩ := h.marking hp hpc
  refine { h with
    avail_size := by rw [Array.size_setIfInBounds]; exact h.avail_size
    owners := fun s j v e => by
      rw [List.length_set]
      exact h.owners s j v e
    cached := forall_set (fun j q _ => h.cached j q) (h.cached i p hp)
    producing := forall_set (fun j q _ => h.producing j q) ?_
    own := forall_set (fun j q _ => h.own j q) (h.own i p hp)
    calls := forall_set (fun j q _ => h.calls j q) (h.calls i p hp)
    written := h.mark_written hp hpc
    drained := fun s hs => .inl (h.drained s hs)
    ahead := fun s hs => ?_
    shown := fun s => h.mark_shown hp hpc
    marks := fun j a => h.mark_marks
    consuming := h.consuming.mono fun _ => .inl }
  · have hfine := h.producing i p hp
    simp only [Producer.Fine, hpc] at hfine
    by_cases hlast : k + 1 < c.n
    · simp only [Producer.Fine, Producer.store, if_pos hlast]
      exact ⟨hlast, hfine.2.1, hfine.2.2.1⟩
    · simp only [Producer.Fine, Producer.store, if_neg hlast]
  · obtain hs | rfl := hs
    · exact h.ahead s hs
    · exact hroom

end Mark

/-- A handle is cloned. -/
theorem clone (h : Inv W r) (hp : r.producers[i]? = some p) (hpc : p.pc = .idle)
    {program : List Burst} (hcalls : ∀ c ∈ program, c.n ≤ r.cap) :
    Inv W { r with producers := r.producers ++ [{ p with program, calls := program }] } := by
  have hall : ∀ {P : Nat → Producer → Prop}, (∀ j q, r.producers[j]? = some q → P j q) →
      P r.producers.length { p with program, calls := program } → ∀ j q,
        (r.producers ++ [{ p with program, calls := program }])[j]? = some q → P j q := by
    intro P hold hnew j q hq
    rcases Nat.lt_trichotomy j r.producers.length with hlt | rfl | hgt
    · exact hold j q (by rwa [List.getElem?_append_left hlt] at hq)
    · rw [List.getElem?_concat_length] at hq
      cases hq
      exact hnew
    · rw [List.getElem?_eq_none (by rw [List.length_append]; exact hgt)] at hq
      cases hq
  refine { h with
    owners := fun s j v e => by
      have := h.owners s j v e
      dsimp only
      rw [List.length_append]
      omega
    cached := hall h.cached (h.cached i p hp)
    producing := hall h.producing (by simp only [Producer.Fine, hpc])
    own := hall h.own ?_
    calls := hall h.calls hcalls
    written := fun s => ?_ }
  · have hnone : Ring.tokensBy r.claimed r.producers.length = [] := by
      rw [Ring.tokensBy, List.map_eq_nil_iff, List.filter_eq_nil_iff]
      rintro ⟨j, v⟩ ht
      obtain ⟨s, hs, e⟩ := List.mem_iff_getElem.mp ht
      have := h.owners s j v (by rw [List.getElem?_eq_getElem hs, e])
      simp only [decide_eq_true_eq]
      omega
    dsimp only
    rw [hnone]
    rfl
  · rw [h.written s]
    refine and_congr_right fun _ => ⟨fun hno => hall hno (by rw [hpc]; exact id), fun hno j q hq => ?_⟩
    exact hno j q (by rw [List.getElem?_append_left (List.getElem?_eq_some_iff.mp hq).1]; exact hq)

/-- The consumer goes on by itself. -/
theorem consumer (h : Inv W r) {c : Consumer} (hhead : c.head = r.consumer.head)
    (hfine : c.Fine W r.head) : Inv W { r with consumer := c } :=
  { h with
    head_le := hhead ▸ h.head_le
    consumed := hhead ▸ h.consumed
    drained := hhead ▸ h.drained
    shown := hhead ▸ h.shown
    delivered := by dsimp only; rw [hhead]; exact h.delivered
    consuming := hfine }

end Inv

theorem Consumer.leave_fine {W : Nat → Prop} {c : Consumer} {head count : Nat}
    (h : head + count = c.head) : (c.leave count).Fine W head := by
  unfold Consumer.leave
  split
  · exact h
  · change head = c.head
    omega

theorem Consumer.loop_fine {W : Nat → Prop} {c : Consumer} {head max count : Nat}
    (h : head + count = c.head) : (c.loop max count).Fine W head := by
  unfold Consumer.loop
  split
  · exact ⟨‹_›, h⟩
  · exact Consumer.leave_fine h

@[simp] theorem Consumer.leave_head (c : Consumer) (count : Nat) : (c.leave count).head = c.head := rfl

@[simp] theorem Consumer.loop_head (c : Consumer) (max count : Nat) :
    (c.loop max count).head = c.head := by
  unfold Consumer.loop
  split <;> rfl

namespace Inv

variable {W : Nat → Prop} {r : Ring}

/-- The consumer is handed a token. -/
theorem deliver (h : Inv W r) {max count : Nat} (hpc : r.consumer.pc = .reading max count) :
    ∃ v, r.buf[r.consumer.head % r.cap]? = some v ∧ r.consumer.head < r.claimed.length ∧
      Inv W { r with
        consumer := { r.consumer with head := r.consumer.head + 1 }.loop max (count + 1)
        delivered := r.delivered ++ [v] } := by
  have hfine := h.consuming
  simp only [Consumer.Fine, hpc] at hfine
  obtain ⟨-, hcount, hw⟩ := hfine
  have hlt := ((h.written _).mp hw).1
  obtain ⟨-, hb⟩ := h.shown _ (Nat.le_refl _) hw
  rw [List.getElem?_eq_getElem hlt] at hb
  refine ⟨_, hb, hlt, { h with
    head_le := ?_
    consumed := ?_
    drained := fun s hs => ?_
    shown := fun s hs hws => ?_
    delivered := ?_
    consuming := Consumer.loop_fine (by dsimp only; omega) }⟩
  · have := h.head_le
    rw [Consumer.loop_head]
    dsimp only
    omega
  · rw [Consumer.loop_head]
    exact hlt
  · rw [Consumer.loop_head] at hs
    rcases Nat.lt_succ_iff_lt_or_eq.mp hs with hs | rfl
    · exact h.drained s hs
    · exact hw
  · rw [Consumer.loop_head] at hs
    dsimp only at hs
    exact h.shown s (by omega) hws
  · rw [Consumer.loop_head]
    dsimp only
    rw [h.delivered, List.take_succ_eq_append_getElem hlt, List.map_append]
    rfl

/-- A slot has the round number of a sequence only when the sequence is written. -/
theorem round_written (h : Inv W r) {s : Nat} (hs : s < 18446744073709551616)
    (hlap : r.cap ≤ s → s < 18446744073709551615 ∨ W (s - r.cap))
    (ha : r.avail[s % r.cap]? = some (i64 (s / r.cap : Nat))) : W s := by
  have hdiv := Nat.div_le_self s r.cap
  rcases h.marks _ _ ha with ⟨hm, hnone⟩ | ⟨s', hs', hmod, hround⟩
  · have hlast : s / r.cap = 18446744073709551615 := by
      generalize s / r.cap = q at hdiv hm ⊢
      unfold i64 at hm
      omega
    have hle : r.cap ≤ s := (Nat.div_pos_iff.mp (by omega)).2
    rcases hlap hle with hlt | hw
    · omega
    · refine absurd ?_ (hnone _ hw)
      exact (Nat.mod_eq_sub_mod hle).symm
  · have htotal := h.total
    have hlt := ((h.written s').mp hs').1
    have hdiv' := Nat.div_le_self s' r.cap
    have hsame : s / r.cap = s' / r.cap := by
      generalize s / r.cap = q at hdiv hround ⊢
      generalize s' / r.cap = q' at hdiv' hround ⊢
      unfold i64 at hround
      omega
    have e : s = s' := by rw [← Nat.div_add_mod s r.cap, ← Nat.div_add_mod s' r.cap, hsame, hmod]
    exact e ▸ hs'

/-- The consumer gives its slots back. -/
theorem release (h : Inv W r) :
    Inv W { r with head := r.consumer.head, consumer := { r.consumer with pc := .idle } } := by
  have hle := h.head_le
  exact { h with
    head_le := Nat.le_refl _
    cached := fun i p hp => (h.cached i p hp).trans hle
    ahead := fun s hs => by
      have := h.ahead s hs
      dsimp only
      omega
    consuming := rfl }

end Inv

/-- What keeps every index in bounds, and every burst within the ring. -/
structure Ring.Sized (cap : Nat) (r : Ring) : Prop where
  cap_eq : r.cap = cap
  cap_pos : 0 < r.cap
  buf_size : r.buf.size = r.cap
  avail_size : r.avail.size = r.cap
  calls : ∀ (i : Nat) (p : Producer), r.producers[i]? = some p → ∀ c ∈ p.program, c.n ≤ r.cap

/-- The invariant, as long as the counters have not wrapped. -/
def Ring.Good (cap : Nat) (r : Ring) : Prop :=
  r.Sized cap ∧ (r.claimed.length < 18446744073709551616 → ∃ W, Inv W r)

variable {cap : Nat} {r : Ring}

theorem Ring.Sized.set (h : r.Sized cap) {i : Nat} {p p' : Producer} (hp : r.producers[i]? = some p)
    (hprog : ∀ c ∈ p'.program, c ∈ p.program) : ∀ (j : Nat) (q : Producer),
      (r.producers.set i p')[j]? = some q → ∀ c ∈ q.program, c.n ≤ r.cap :=
  forall_set (fun j q _ => h.calls j q) fun c hc => h.calls i p hp c (hprog c hc)

theorem Producer.store_fine {i seq k : Nat} {p : Producer} {c : Burst}
    (hroom : seq + c.n ≤ p.cachedHead + r.cap) (howns : r.Owns i seq c) :
    (p.store seq c k).Fine r i := by
  by_cases hk : k < c.n
  · simp only [Producer.Fine, Producer.store, if_pos hk]
    exact ⟨hk, hroom, howns⟩
  · simp only [Producer.Fine, Producer.store, if_neg hk]

theorem Producer.store_holds (p : Producer) (seq : Nat) (c : Burst) (k s : Nat) :
    (p.store seq c k).pc.Holds s ↔ seq + k ≤ s ∧ s < seq + c.n := by
  by_cases hk : k < c.n
  · simp only [Producer.store, if_pos hk, ProducerPc.Holds]
  · simp only [Producer.store, if_neg hk, ProducerPc.Holds, false_iff]
    omega

theorem claims_own {i : Nat} {c : Burst} {claimed : List (Nat × Nat)} {r' : Ring}
    (e : r'.claimed = claimed ++ c.tokens.map fun v => (i, v)) : r'.Owns i claimed.length c := by
  rw [Ring.Owns, e]
  refine ⟨by simp [Burst.tokens], fun k hk => ?_⟩
  rw [List.getElem?_append_right (Nat.le_add_right _ _), Nat.add_sub_cancel_left]
  simp [Burst.tokens, hk]

theorem need_eq {cap seq n : Nat} (h : seq + n < 18446744073709551616) :
    need cap seq n = seq + n - cap := by
  rw [need, u64_add h]

/-- A producer takes a step. -/
theorem produce_keeps (h : r.Good cap) (i : Nat) :
    ∃ r', produce i r = .ok ⟨⟩ r' ∧ r'.Good cap := by
  obtain ⟨hsized, hinv⟩ := h
  cases hp : r.producers[i]? with
  | none => exact ⟨r, by simp only [produce, get_bind, hp]; rfl, hsized, hinv⟩
  | some p =>
    cases hpc : p.pc with
    | idle =>
      cases hprog : p.program with
      | nil => exact ⟨r, by simp only [produce, get_bind, hp, hpc, hprog]; rfl, hsized, hinv⟩
      | cons c program =>
        have hc : ¬ r.cap < c.n := Nat.not_lt.mpr (hsized.calls i p hp c (by simp [hprog]))
        refine ⟨_, by simp only [produce, get_bind, hp, hpc, hprog, if_neg hc]; rfl, ?_⟩
        refine ⟨{ hsized with calls := hsized.set hp fun d hd => ?_ }, fun hlt => ?_⟩
        · rw [hprog]
          split at hd <;> exact List.mem_cons_of_mem _ hd
        · have hlen : r.claimed.length + c.n < 18446744073709551616 := by
            simpa [Burst.tokens] using hlt
          obtain ⟨W, hW⟩ := hinv (by omega)
          have hclaim := hW.claim
          have hadd : u64 ((r.claim : Int) + c.n) = r.claimed.length + c.n := by
            rw [u64_add (by omega), hclaim]
          have hneed : need r.cap r.claim c.n = r.claimed.length + c.n - r.cap := by
            rw [need_eq (by omega), hclaim]
          simp only [hadd, hneed]
          simp only [hclaim]
          refine ⟨W, hW.start hp hpc hprog hlen ?_ ?_ ?_ (fun s => ?_) fun r' hcap e => ?_⟩
          · split <;> rfl
          · split <;> rfl
          · split <;> rfl
          · split
            · rfl
            · rw [Producer.store_holds, Nat.add_zero]
          · split
            · exact ⟨by rw [hcap]; omega, claims_own e⟩
            · exact Producer.store_fine (by rw [hcap]; dsimp only; omega) (claims_own e)
    | waiting seq c =>
      refine ⟨_, by simp only [produce, get_bind, hp, hpc]; rfl, ?_⟩
      refine ⟨{ hsized with calls := hsized.set hp fun d hd => ?_ }, fun hlt => ?_⟩
      · split at hd <;> exact hd
      · obtain ⟨W, hW⟩ := hinv hlt
        have hfine := hW.producing i p hp
        simp only [Producer.Fine, hpc] at hfine
        obtain ⟨hcn, howns⟩ := hfine
        have hin := howns.1
        have htotal := hW.total
        simp only [need_eq (show seq + c.n < 18446744073709551616 by omega)]
        refine ⟨W, hW.producer hp ?_ ?_ ?_ ?_ fun s => ?_⟩
        · split <;> exact Nat.le_refl _
        · split <;> rfl
        · split <;> rfl
        · split
          · exact Producer.store_fine (by dsimp only; omega) howns
          · exact ⟨hcn, howns⟩
        · split
          · rw [Producer.store_holds, hpc, Nat.add_zero]
            rfl
          · rw [hpc]
    | storing seq c k =>
      have hlt : ¬ r.buf.size ≤ u64 ((seq : Int) + k) % r.cap := by
        rw [hsized.buf_size]
        exact Nat.not_le.mpr (Nat.mod_lt _ hsized.cap_pos)
      refine ⟨_, by simp only [produce, get_bind, hp, hpc, if_neg hlt]; rfl, ?_⟩
      refine ⟨{ hsized with
        buf_size := by rw [Array.size_setIfInBounds]; exact hsized.buf_size
        calls := hsized.set hp fun d hd => hd }, fun hlt => ?_⟩
      obtain ⟨W, hW⟩ := hinv hlt
      have hfine := hW.producing i p hp
      simp only [Producer.Fine, hpc] at hfine
      obtain ⟨hk, -, howns⟩ := hfine
      have hin := howns.1
      have htotal := hW.total
      rw [u64_add (by omega)]
      exact ⟨W, hW.fill hp hpc⟩
    | marking seq c k =>
      have hlt : ¬ r.avail.size ≤ u64 ((seq : Int) + k) % r.cap := by
        rw [hsized.avail_size]
        exact Nat.not_le.mpr (Nat.mod_lt _ hsized.cap_pos)
      refine ⟨_, by simp only [produce, get_bind, hp, hpc, if_neg hlt]; rfl, ?_⟩
      refine ⟨{ hsized with
        avail_size := by rw [Array.size_setIfInBounds]; exact hsized.avail_size
        calls := hsized.set hp fun d hd => hd }, fun hlt => ?_⟩
      obtain ⟨W, hW⟩ := hinv hlt
      have hfine := hW.producing i p hp
      simp only [Producer.Fine, hpc] at hfine
      obtain ⟨hk, -, howns, -⟩ := hfine
      have hin := howns.1
      have htotal := hW.total
      rw [u64_add (by omega)]
      exact ⟨_, hW.mark hp hpc⟩

/-- The consumer takes a step. -/
theorem consume_keeps (h : r.Good cap) : ∃ r', consume r = .ok ⟨⟩ r' ∧ r'.Good cap := by
  obtain ⟨hsized, hinv⟩ := h
  have hmod := Nat.mod_lt r.consumer.head hsized.cap_pos
  cases hpc : r.consumer.pc with
  | idle =>
    cases hprog : r.consumer.program with
    | nil => exact ⟨r, by simp only [consume, get_bind, hpc, hprog]; rfl, hsized, hinv⟩
    | cons max program =>
      refine ⟨_, by simp only [consume, get_bind, hpc, hprog]; rfl, ?_⟩
      refine ⟨⟨hsized.cap_eq, hsized.cap_pos, hsized.buf_size, hsized.avail_size, hsized.calls⟩, fun hlt => ?_⟩
      obtain ⟨W, hW⟩ := hinv hlt
      have hfine := hW.consuming
      simp only [Consumer.Fine, hpc] at hfine
      exact ⟨W, hW.consumer (Consumer.loop_head _ _ _) (Consumer.loop_fine hfine)⟩
  | checking max count =>
    have hlt : r.consumer.head % r.cap < r.avail.size := hsized.avail_size ▸ hmod
    have hget := Array.getElem?_eq_getElem hlt
    refine ⟨_, by simp only [consume, get_bind, hpc, hget]; rfl, ?_⟩
    refine ⟨⟨hsized.cap_eq, hsized.cap_pos, hsized.buf_size, hsized.avail_size, hsized.calls⟩, fun hlt => ?_⟩
    obtain ⟨W, hW⟩ := hinv hlt
    have hfine := hW.consuming
    simp only [Consumer.Fine, hpc] at hfine
    obtain ⟨hmax, hcount⟩ := hfine
    split
    · exact ⟨W, hW.consumer rfl (Consumer.leave_fine hcount)⟩
    · rename_i hround
      refine ⟨W, hW.consumer rfl ⟨hmax, hcount, ?_⟩⟩
      have htotal := hW.total
      have hle := hW.consumed
      refine hW.round_written (by dsimp only; omega) (fun hcap => .inr (hW.drained _ ?_))
        (hget.trans (congrArg some (not_not.mp hround)))
      have := hW.cap_pos
      dsimp only at hcap ⊢
      omega
  | reading max count =>
    have hlt : r.consumer.head % r.cap < r.buf.size := hsized.buf_size ▸ hmod
    have hget := Array.getElem?_eq_getElem hlt
    refine ⟨_, by simp only [consume, get_bind, hpc, hget]; rfl, ?_⟩
    refine ⟨⟨hsized.cap_eq, hsized.cap_pos, hsized.buf_size, hsized.avail_size, hsized.calls⟩, fun hlt => ?_⟩
    obtain ⟨W, hW⟩ := hinv hlt
    obtain ⟨v, hv, hin, hW'⟩ := hW.deliver hpc
    rw [hget] at hv
    have htotal := hW.total
    rw [show u64 ((r.consumer.head : Int) + 1) = r.consumer.head + 1 from u64_add (b := 1) (by omega),
      Option.some.inj hv]
    exact ⟨W, hW'⟩
  | releasing count =>
    refine ⟨_, by simp only [consume, get_bind, hpc]; rfl, ?_⟩
    refine ⟨⟨hsized.cap_eq, hsized.cap_pos, hsized.buf_size, hsized.avail_size, hsized.calls⟩, fun hlt => ?_⟩
    obtain ⟨W, hW⟩ := hinv hlt
    exact ⟨W, hW.release⟩

/-- A handle is cloned, or not. -/
theorem clone_keeps (h : r.Good cap) (i : Nat) {program : List Burst}
    (hcalls : ∀ c ∈ program, c.n ≤ cap) : ∃ r', clone i program r = .ok ⟨⟩ r' ∧ r'.Good cap := by
  cases hp : r.producers[i]? with
  | none => exact ⟨r, by simp only [clone, get_bind, hp]; rfl, h⟩
  | some p =>
    obtain ⟨hsized, hinv⟩ := h
    cases hpc : p.pc with
    | idle =>
      refine ⟨_, by simp only [clone, get_bind, hp, hpc]; rfl, ?_⟩
      rw [← hsized.cap_eq] at hcalls
      refine ⟨{ hsized with calls := fun j q hq => ?_ }, fun hlt => ?_⟩
      · rcases List.mem_append.mp (List.mem_of_getElem? hq) with hm | hm
        · obtain ⟨j', hj', e⟩ := List.mem_iff_getElem.mp hm
          exact hsized.calls j' q (by rw [List.getElem?_eq_getElem hj', e])
        · rw [List.mem_singleton.mp hm]
          exact hcalls
      · obtain ⟨W, hW⟩ := hinv hlt
        have h' := hW.clone hp hpc hcalls
        rw [hpc] at h'
        exact ⟨W, h'⟩
    | waiting seq c => exact ⟨r, by simp only [clone, get_bind, hp, hpc]; rfl, hsized, hinv⟩
    | storing seq c k => exact ⟨r, by simp only [clone, get_bind, hp, hpc]; rfl, hsized, hinv⟩
    | marking seq c k => exact ⟨r, by simp only [clone, get_bind, hp, hpc]; rfl, hsized, hinv⟩

theorem step_keeps (h : r.Good cap) {t : Turn} (ht : ∀ c ∈ t.calls, c.n ≤ cap) :
    ∃ r', step t r = .ok ⟨⟩ r' ∧ r'.Good cap := by
  cases t with
  | producer i => exact produce_keeps h i
  | consumer => exact consume_keeps h
  | clone i program => exact clone_keeps h i ht

theorem run_keeps (h : r.Good cap) {turns : List Turn}
    (hturns : ∀ t ∈ turns, ∀ c ∈ t.calls, c.n ≤ cap) :
    ∃ r', run turns r = .ok ⟨⟩ r' ∧ r'.Good cap := by
  induction turns generalizing r with
  | nil => exact ⟨r, rfl, h⟩
  | cons t turns ih =>
    obtain ⟨r₁, e₁, h₁⟩ := step_keeps h (hturns t List.mem_cons_self)
    obtain ⟨r₂, e₂, h₂⟩ := ih h₁ fun t' ht' => hturns t' (List.mem_cons_of_mem _ ht')
    exact ⟨r₂, runAll_cons_eq_ok.mpr ⟨r₁, e₁, e₂⟩, h₂⟩

/-- A new ring. -/
theorem ring_good {programs : List (List Burst)} {drains : List Nat} {r₀ : Ring}
    (h : ring cap programs drains = .ok r₀)
    (hcalls : ∀ program ∈ programs, ∀ c ∈ program, c.n ≤ cap) : r₀.Good cap ∧ r₀.claimed = [] := by
  unfold ring at h
  split at h
  · cases h
  · rename_i hcap
    split at h
    · cases h
    · cases h
      have hpos : 0 < cap := Nat.pos_of_ne_zero fun e => hcap (.inl e)
      have hp : ∀ {i : Nat} {p : Producer},
          (programs.map fun program => (⟨0, .idle, program, program⟩ : Producer))[i]? = some p →
          p.cachedHead = 0 ∧ p.pc = .idle ∧ p.calls = p.program ∧ ∀ c ∈ p.program, c.n ≤ cap := by
        intro i p hp
        obtain ⟨program, hm, rfl⟩ := List.mem_map.mp (List.mem_of_getElem? hp)
        exact ⟨rfl, rfl, rfl, hcalls program hm⟩
      refine ⟨⟨⟨rfl, hpos, Array.size_replicate, Array.size_replicate,
        fun i p h => (hp h).2.2.2⟩, fun _ => ⟨fun _ => False, ?_⟩⟩, rfl⟩
      exact {
        cap_pos := hpos
        buf_size := Array.size_replicate
        avail_size := Array.size_replicate
        claim := rfl
        total := by simp
        head_le := Nat.le_refl _
        consumed := Nat.le_refl _
        owners := nofun
        cached := fun i p h => (hp h).1.le
        producing := fun i p h => by simp only [Producer.Fine, (hp h).2.1]
        own := fun i p h => by rw [(hp h).2.2.1]; rfl
        calls := fun i p h => (hp h).2.2.2
        written := fun s => ⟨False.elim, fun h => absurd h.1 (Nat.not_lt_zero s)⟩
        drained := fun s hs => absurd hs (Nat.not_lt_zero s)
        ahead := fun s hs => hs.elim
        shown := fun s _ hs => hs.elim
        marks := fun j a ha => .inl ⟨by
          rw [Array.getElem?_replicate] at ha
          split at ha <;> cases ha
          rfl, fun s hs => hs.elim⟩
        delivered := rfl
        consuming := rfl }

/-- Sequence `s` is claimed, and its call is past it. -/
def Ring.Written (r : Ring) (s : Nat) : Prop :=
  s < r.claimed.length ∧ ∀ (i : Nat) (p : Producer), r.producers[i]? = some p → ¬ p.pc.Holds s

/-- The tokens of the `drain` under way. -/
def ConsumerPc.count : ConsumerPc → Nat
  | .idle => 0
  | .checking _ count => count
  | .reading _ count => count
  | .releasing count => count

/-- What the ring owes both sides: tokens come in claim order, and those of a
producer in program order; a written sequence is in its slot until it is
consumed, and no store goes to its slot; a round number stands for a written
sequence; a `drain` hands out one lap at most. -/
structure Ring.Safe (r : Ring) : Prop where
  delivered : r.delivered = (r.claimed.take r.consumer.head).map Prod.snd
  own : ∀ (i : Nat) (p : Producer), r.producers[i]? = some p →
    Ring.tokensBy r.claimed i ++ tokensOf p.program = tokensOf p.calls ∧
    Ring.tokensBy (r.claimed.take r.consumer.head) i <+: tokensOf p.calls
  kept : ∀ s, r.consumer.head ≤ s → r.Written s →
    ∃ t, r.claimed[s]? = some t ∧ r.buf[s % r.cap]? = some t.2
  apart : ∀ (i : Nat) (p : Producer) (seq : Nat) (c : Burst) (k : Nat),
    r.producers[i]? = some p → p.pc = .storing seq c k →
    ∀ s, r.consumer.head ≤ s → r.Written s → s % r.cap ≠ (seq + k) % r.cap
  marked : ∀ s < 18446744073709551615,
    r.avail[s % r.cap]? = some (i64 (s / r.cap : Nat)) → r.Written s
  lap : r.consumer.pc.count ≤ r.cap

namespace Inv

variable {W : Nat → Prop} {i : Nat} {p : Producer}

theorem count (h : Inv W r) : r.head + r.consumer.pc.count = r.consumer.head := by
  have hfine := h.consuming
  unfold Consumer.Fine at hfine
  cases hpc : r.consumer.pc with
  | idle => rw [hpc] at hfine; exact hfine
  | checking max count => rw [hpc] at hfine; exact hfine.2
  | reading max count => rw [hpc] at hfine; exact hfine.2.1
  | releasing count => rw [hpc] at hfine; exact hfine

/-- The consumer is within a lap of the head it last stored. -/
theorem lap (h : Inv W r) : r.consumer.pc.count ≤ r.cap := by
  have hcount := h.count
  rcases Nat.eq_zero_or_pos r.consumer.pc.count with e | hpos
  · omega
  · have := h.ahead _ (h.drained (r.consumer.head - 1) (by omega))
    omega

theorem safe (h : Inv W r) : r.Safe where
  delivered := h.delivered
  own i p hp := by
    have hown := h.own i p hp
    refine ⟨hown, ?_⟩
    have hsplit : Ring.tokensBy r.claimed i = Ring.tokensBy (r.claimed.take r.consumer.head) i ++
        Ring.tokensBy (r.claimed.drop r.consumer.head) i := by
      rw [← tokensBy_append, List.take_append_drop]
    rw [← hown, hsplit, List.append_assoc]
    exact List.prefix_append _ _
  kept s hs hw := by
    have hb := (h.shown s hs ((h.written s).mpr hw)).2
    rw [List.getElem?_eq_getElem hw.1] at hb ⊢
    exact ⟨_, rfl, hb⟩
  apart i p seq c k hp hpc s hs hw e := by
    have hfine := h.producing i p hp
    simp only [Producer.Fine, hpc] at hfine
    have hmine : p.pc.Holds (seq + k) := by rw [hpc]; exact ⟨Nat.le_refl _, by omega⟩
    have hhead := (h.held hp hmine).2
    have hcached := h.cached i p hp
    have hle := h.head_le
    have hsa := h.ahead s ((h.written s).mpr hw)
    rcases Nat.lt_trichotomy s (seq + k) with hlt | rfl | hgt
    · exact slot_ne hlt (by omega) e
    · exact hw.2 i p hp hmine
    · exact slot_ne hgt (by omega) e.symm
  marked s hs ha := (h.written s).mp (h.round_written (by omega) (fun _ => .inl hs) ha)
  lap := h.lap

end Inv

end HiPerf.Mpsc
