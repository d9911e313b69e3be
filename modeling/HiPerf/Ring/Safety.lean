import HiPerf.Ring.Model

/-!
Every interleaving of the ring delivers what was published, in order. The
invariant counts positions from the start of the producer's program: slot
`i % cap` holds the token at position `i`, from the consumer's head on.
-/

namespace HiPerf.Spsc

open Machine Exec

/-- The number of slots the producer has filled and not published. -/
def ProducerPc.filled : ProducerPc → Nat
  | .storing _ k => k
  | .releasing c => c.count
  | _ => 0

/-- The tokens of the call under way. -/
def ProducerPc.tokens : ProducerPc → List Nat
  | .idle => []
  | .waiting c | .storing c _ | .releasing c => c.tokens

/-- The number of slots the consumer has read and not given back. -/
def ConsumerPc.seen : ConsumerPc → Nat
  | .reading _ k => k
  | .releasing take => take
  | _ => 0

/-- What the producer knows about the call under way. -/
def ProducerPc.Fine (p : Producer) (cap : Nat) : ProducerPc → Prop
  | .idle => True
  | .waiting c => c.count ≤ cap ∧ p.cachedHead + cap < p.tail + c.count
  | .storing c k => k < c.count ∧ p.tail + c.count ≤ p.cachedHead + cap
  | .releasing c => p.tail + c.count ≤ p.cachedHead + cap

def ConsumerPc.Fine (c : Consumer) : ConsumerPc → Prop
  | .idle => True
  | .waiting => c.head = c.cachedTail
  | .refreshing _ => True
  | .reading take k => k < take ∧ c.head + take ≤ c.cachedTail
  | .releasing take => c.head + take ≤ c.cachedTail

/-- The tokens of a program, in order. -/
def tokensOf (puts : List Put) : List Nat := puts.flatMap Put.tokens

/-- What holds between two steps, when the producer's program is `tokens`. -/
structure Inv (tokens : List Nat) (r : Ring) : Prop where
  cap_pos : 0 < r.cap
  cap_lt : r.cap < 2305843009213693952
  size : r.buf.size = r.cap
  total : tokens.length < 18446744073709551616
  tail : r.tail = r.producer.tail
  head : r.head = r.consumer.head
  room : r.producer.tail ≤ r.producer.cachedHead + r.cap
  cachedHead_le : r.producer.cachedHead ≤ r.consumer.head
  head_le : r.consumer.head ≤ r.consumer.cachedTail
  cachedTail_le : r.consumer.cachedTail ≤ r.producer.tail
  tail_le : r.producer.tail ≤ tokens.length
  published : r.published = tokens.take r.producer.tail
  delivered : r.delivered = tokens.take (r.consumer.head + r.consumer.pc.seen)
  rest : tokens.drop r.producer.tail = r.producer.pc.tokens ++ tokensOf r.producer.program
  calls : ∀ c ∈ r.producer.program, c.count ≤ r.cap
  producing : r.producer.pc.Fine r.producer r.cap
  consuming : r.consumer.pc.Fine r.consumer
  slots : ∀ i, r.consumer.head ≤ i → i < r.producer.tail + r.producer.pc.filled →
    r.buf[i % r.cap]? = tokens[i]?

theorem u64_sub {a b : Nat} (hle : b ≤ a) (h : a - b < 18446744073709551616) :
    u64 ((a : Int) - b) = a - b := by
  unfold u64; omega

@[simp] theorem Put.tokens_length (c : Put) : c.tokens.length = c.count := by
  simp [Put.tokens]

theorem Put.tokens_get {c : Put} {k : Nat} (hk : k < c.count) : c.tokens[k]? = some (c.token k) := by
  simp [Put.tokens, hk]

namespace Producer

variable {p : Producer} {cap : Nat} {c : Put}

theorem full_iff (hcap : cap < 2305843009213693952) (hc : c.count ≤ cap)
    (ht : p.tail + c.count < 18446744073709551616) (hle : p.cachedHead ≤ p.tail)
    (hroom : p.tail ≤ p.cachedHead + cap) :
    p.full cap c = true ↔ p.cachedHead + cap < p.tail + c.count := by
  cases c with
  | push v =>
    simp only [full, u64_sub hle (by omega), decide_eq_true_eq, Put.count]
    omega
  | batchPublish n f =>
    simp only [Put.count] at hc ht ⊢
    simp only [full, u64_add ht]
    rw [u64_sub (by omega) (by omega)]
    simp only [decide_eq_true_eq]
    omega

theorem fits_iff (hcap : cap < 2305843009213693952) (hc : c.count ≤ cap)
    (ht : p.tail + c.count < 18446744073709551616) (hle : p.cachedHead ≤ p.tail)
    (hroom : p.tail ≤ p.cachedHead + cap) :
    p.fits cap c = true ↔ p.tail + c.count ≤ p.cachedHead + cap := by
  cases c with
  | push v =>
    simp only [fits, u64_sub hle (by omega), decide_eq_true_eq, Put.count]
    omega
  | batchPublish n f =>
    simp only [Put.count] at hc ht ⊢
    simp only [fits, u64_add ht]
    rw [u64_sub (by omega) (by omega)]
    simp only [decide_eq_true_eq]
    omega

@[simp] theorem fill_tail (k : Nat) : (p.fill c k).tail = p.tail := rfl

@[simp] theorem fill_cachedHead (k : Nat) : (p.fill c k).cachedHead = p.cachedHead := rfl

@[simp] theorem fill_program (k : Nat) : (p.fill c k).program = p.program := rfl

@[simp] theorem fill_tokens (k : Nat) : (p.fill c k).pc.tokens = c.tokens := by
  simp only [fill]
  split <;> rfl

theorem fill_filled {k : Nat} (hk : k ≤ c.count) : (p.fill c k).pc.filled = k := by
  simp only [fill]
  split
  · rfl
  · change c.count = k
    omega

/-- A call that has room goes on to its slots. -/
theorem fill_fine {k : Nat} (h : p.tail + c.count ≤ p.cachedHead + cap) :
    (p.fill c k).pc.Fine (p.fill c k) cap := by
  by_cases hk : k < c.count
  · simpa only [fill, if_pos hk, ProducerPc.Fine] using ⟨hk, h⟩
  · simpa only [fill, if_neg hk, ProducerPc.Fine] using h

end Producer

namespace Consumer

variable {c : Consumer}

@[simp] theorem read_head (take k : Nat) : (c.read take k).head = c.head := rfl

@[simp] theorem read_cachedTail (take k : Nat) : (c.read take k).cachedTail = c.cachedTail := rfl

theorem read_seen {take k : Nat} (hk : k ≤ take) : (c.read take k).pc.seen = k := by
  simp only [read]
  split
  · rfl
  · change take = k
    omega

theorem read_fine {take k : Nat} (h : c.head + take ≤ c.cachedTail) :
    (c.read take k).pc.Fine (c.read take k) := by
  by_cases hk : k < take
  · simpa only [read, if_pos hk, ConsumerPc.Fine] using ⟨hk, h⟩
  · simpa only [read, if_neg hk, ConsumerPc.Fine] using h

@[simp] theorem drain_head (max : Nat) : (c.drain max).head = c.head := by
  simp only [drain]
  split <;> rfl

@[simp] theorem drain_cachedTail (max : Nat) : (c.drain max).cachedTail = c.cachedTail := by
  simp only [drain]
  split <;> rfl

theorem drain_seen (max : Nat) : (c.drain max).pc.seen = 0 := by
  simp only [drain]
  split
  · rfl
  · exact read_seen (Nat.zero_le _)

theorem drain_fine {max : Nat} (hle : c.head ≤ c.cachedTail)
    (hlt : c.cachedTail < 18446744073709551616) : (c.drain max).pc.Fine (c.drain max) := by
  simp only [drain, u64_sub hle (by omega)]
  split
  · trivial
  · refine read_fine ?_
    have := Nat.min_le_left (c.cachedTail - c.head) max
    omega

end Consumer

variable {tokens : List Nat} {r : Ring}

namespace Inv

theorem ends (h : Inv tokens r) : r.producer.tail + r.producer.pc.tokens.length +
    (tokensOf r.producer.program).length = tokens.length := by
  have hlen := congrArg List.length h.rest
  rw [List.length_drop, List.length_append] at hlen
  have := h.tail_le
  omega

/-- Token `k` of the call under way. -/
theorem token (h : Inv tokens r) {c : Put} (hc : r.producer.pc.tokens = c.tokens) {k : Nat}
    (hk : k < c.count) : tokens[r.producer.tail + k]? = some (c.token k) := by
  rw [← List.getElem?_drop, h.rest, hc, List.getElem?_append_left (by simpa using hk)]
  exact Put.tokens_get hk

theorem cachedHead_le_tail (h : Inv tokens r) : r.producer.cachedHead ≤ r.producer.tail :=
  h.cachedHead_le.trans (h.head_le.trans h.cachedTail_le)

/-- The producer goes on by itself. -/
theorem producer (h : Inv tokens r) {p : Producer} (htail : p.tail = r.producer.tail)
    (hroom : p.tail ≤ p.cachedHead + r.cap) (hhead : p.cachedHead ≤ r.consumer.head)
    (hrest : p.pc.tokens ++ tokensOf p.program =
      r.producer.pc.tokens ++ tokensOf r.producer.program)
    (hcalls : ∀ c ∈ p.program, c ∈ r.producer.program) (hfine : p.pc.Fine p r.cap)
    (hfilled : p.pc.filled = r.producer.pc.filled) : Inv tokens { r with producer := p } :=
  { h with
    tail := h.tail.trans htail.symm
    room := hroom
    cachedHead_le := hhead
    cachedTail_le := h.cachedTail_le.trans_eq htail.symm
    tail_le := htail.trans_le h.tail_le
    published := by dsimp only; rw [htail]; exact h.published
    rest := by dsimp only; rw [htail, hrest]; exact h.rest
    calls := fun c hc => h.calls c (hcalls c hc)
    producing := hfine
    slots := by dsimp only; rw [htail, hfilled]; exact h.slots }

/-- The consumer goes on by itself. -/
theorem consumer (h : Inv tokens r) {c : Consumer} (hhead : c.head = r.consumer.head)
    (hle : c.head ≤ c.cachedTail) (htail : c.cachedTail ≤ r.producer.tail)
    (hseen : c.pc.seen = r.consumer.pc.seen) (hfine : c.pc.Fine c) :
    Inv tokens { r with consumer := c } :=
  { h with
    head := h.head.trans hhead.symm
    cachedHead_le := h.cachedHead_le.trans_eq hhead.symm
    head_le := hle
    cachedTail_le := htail
    delivered := by dsimp only; rw [hhead, hseen]; exact h.delivered
    consuming := hfine
    slots := by dsimp only; rw [hhead]; exact h.slots }

end Inv

/-- A call of the producer starts. -/
theorem Inv.start (h : Inv tokens r) {c : Put} {program : List Put}
    (hpc : r.producer.pc = .idle) (hprog : r.producer.program = c :: program) :
    Inv tokens { r with producer :=
      if ({ r.producer with program } : Producer).full r.cap c then
        { r.producer with program, pc := .waiting c }
      else ({ r.producer with program } : Producer).fill c 0 } := by
  have hc : c.count ≤ r.cap := h.calls c (by simp [hprog])
  have hends := h.ends
  have htotal := h.total
  simp only [hpc, hprog, tokensOf, List.flatMap_cons, List.length_append, Put.tokens_length,
    ProducerPc.tokens, List.length_nil] at hends
  have hfull := @Producer.full_iff { r.producer with program } r.cap c h.cap_lt hc
    (by dsimp only; omega) h.cachedHead_le_tail h.room
  have hcalls : ∀ d ∈ program, d ∈ r.producer.program :=
    fun d hd => by rw [hprog]; exact List.mem_cons_of_mem _ hd
  by_cases hf : ({ r.producer with program } : Producer).full r.cap c = true
  · rw [if_pos hf]
    exact h.producer rfl h.room h.cachedHead_le (by rw [hpc, hprog]; rfl) hcalls ⟨hc, hfull.mp hf⟩
      (by rw [hpc]; rfl)
  · rw [if_neg hf]
    have hroom : r.producer.tail + c.count ≤ r.producer.cachedHead + r.cap :=
      Nat.not_lt.mp (mt hfull.mpr hf)
    exact h.producer rfl h.room h.cachedHead_le (by rw [Producer.fill_tokens, hpc, hprog]; rfl)
      hcalls (Producer.fill_fine hroom) (by rw [Producer.fill_filled (Nat.zero_le _), hpc]; rfl)

/-- The producer looks at the head again. -/
theorem Inv.look (h : Inv tokens r) {c : Put} (hpc : r.producer.pc = .waiting c) :
    Inv tokens { r with producer :=
      if ({ r.producer with cachedHead := r.head } : Producer).fits r.cap c then
        ({ r.producer with cachedHead := r.head } : Producer).fill c 0
      else { r.producer with cachedHead := r.head } } := by
  have hfine := h.producing
  rw [hpc] at hfine
  obtain ⟨hc, -⟩ := hfine
  have hends := h.ends
  have htotal := h.total
  simp only [hpc, ProducerPc.tokens, Put.tokens_length] at hends
  have hhead := h.head
  have hle := h.cachedHead_le
  have hbelow := h.head_le.trans h.cachedTail_le
  have hroom := h.room
  have hfits := @Producer.fits_iff { r.producer with cachedHead := r.head } r.cap c h.cap_lt hc
    (by dsimp only; omega) (by dsimp only; omega) (by dsimp only; omega)
  by_cases hf : ({ r.producer with cachedHead := r.head } : Producer).fits r.cap c = true
  · rw [if_pos hf]
    exact h.producer rfl (by dsimp only [Producer.fill]; omega) h.head.le
      (by rw [Producer.fill_tokens, hpc]; rfl) (fun _ hd => hd) (Producer.fill_fine (hfits.mp hf))
      (by rw [Producer.fill_filled (Nat.zero_le _), hpc]; rfl)
  · rw [if_neg hf]
    exact h.producer rfl (by dsimp only; omega) h.head.le rfl (fun _ hd => hd)
      (by dsimp only; rw [hpc]; exact ⟨hc, Nat.not_le.mp (mt hfits.mpr hf)⟩) rfl

/-- The producer fills a slot. -/
theorem Inv.store (h : Inv tokens r) {c : Put} {k : Nat} (hpc : r.producer.pc = .storing c k) :
    Inv tokens { r with
      buf := r.buf.setIfInBounds ((r.producer.tail + k) % r.cap) (c.token k)
      producer := r.producer.fill c (k + 1) } := by
  have hfine := h.producing
  rw [hpc] at hfine
  obtain ⟨hk, hroom⟩ := hfine
  have hle := h.cachedHead_le
  have hlt := Nat.mod_lt (r.producer.tail + k) h.cap_pos
  have htoken := h.token (by rw [hpc]; rfl) hk
  have hrest := h.rest
  have hslots := h.slots
  rw [hpc] at hrest hslots
  refine { h with
    size := by rw [Array.size_setIfInBounds]; exact h.size
    rest := by rw [Producer.fill_tokens]; exact hrest
    producing := Producer.fill_fine hroom
    slots := fun i hi hik => ?_ }
  rw [Producer.fill_filled (by omega), Producer.fill_tail] at hik
  dsimp only at hi hik ⊢
  by_cases hlast : i = r.producer.tail + k
  · rw [hlast, Array.getElem?_setIfInBounds_self_of_lt (by rw [h.size]; exact hlt), htoken]
  · -- the slot just filled is none of the unread ones
    have hne : i % r.cap ≠ (r.producer.tail + k) % r.cap := slot_ne (by omega) (by omega)
    rw [Array.getElem?_setIfInBounds_ne hne.symm]
    exact hslots i hi (by change i < r.producer.tail + k; omega)

/-- The producer publishes its slots. -/
theorem Inv.publish (h : Inv tokens r) {c : Put} (hpc : r.producer.pc = .releasing c) :
    Inv tokens { r with
      tail := r.producer.tail + c.count
      producer := { r.producer with tail := r.producer.tail + c.count, pc := .idle }
      published := r.published ++ c.tokens } := by
  have hfine := h.producing
  have hends := h.ends
  have hrest := h.rest
  have hslots := h.slots
  simp only [hpc, ProducerPc.tokens, Put.tokens_length] at hfine hrest hends
  rw [hpc] at hslots
  have hdrop : tokens.drop (r.producer.tail + c.count) = tokensOf r.producer.program := by
    have := congrArg (List.drop c.count) hrest
    rwa [List.drop_drop, List.drop_left' (Put.tokens_length c)] at this
  exact { h with
    tail := rfl
    room := hfine
    cachedTail_le := Nat.le_add_right_of_le h.cachedTail_le
    tail_le := by dsimp only; omega
    published := by
      dsimp only
      rw [h.published, List.take_add, hrest, List.take_left' (Put.tokens_length c)]
    rest := by dsimp only; rw [hdrop]; rfl
    producing := trivial
    slots := hslots }

/-- The producer takes a step. -/
theorem produce_keeps (h : Inv tokens r) : ∃ r', produce r = .ok ⟨⟩ r' ∧ Inv tokens r' := by
  have hfine := h.producing
  have hends := h.ends
  have htotal := h.total
  cases hpc : r.producer.pc with
  | idle =>
    cases hprog : r.producer.program with
    | nil =>
      refine ⟨r, ?_, h⟩
      simp only [produce, get_bind, hpc, hprog]
      rfl
    | cons c program =>
      refine ⟨_, ?_, h.start hpc hprog⟩
      have hc : c.count ≤ r.cap := h.calls c (by simp [hprog])
      simp only [produce, get_bind, hpc, hprog]
      cases c with
      | push v => rfl
      | batchPublish n f =>
        have hn : ¬ r.cap < n := Nat.not_lt.mpr hc
        simp only [if_neg hn]
        rfl
  | waiting c =>
    refine ⟨_, ?_, h.look hpc⟩
    simp only [produce, get_bind, hpc]
    rfl
  | storing c k =>
    refine ⟨_, ?_, h.store hpc⟩
    simp only [hpc, ProducerPc.tokens, Put.tokens_length] at hfine hends
    have hpos : u64 ((r.producer.tail : Int) + k) = r.producer.tail + k :=
      u64_add (by obtain ⟨hk, -⟩ := hfine; omega)
    have hlt := Nat.mod_lt (r.producer.tail + k) h.cap_pos
    simp only [produce, get_bind, hpc, hpos, h.size, if_neg (Nat.not_le.mpr hlt)]
    rfl
  | releasing c =>
    refine ⟨_, ?_, h.publish hpc⟩
    simp only [hpc, ProducerPc.tokens, Put.tokens_length] at hends
    have htail : u64 ((r.producer.tail : Int) + c.count) = r.producer.tail + c.count :=
      u64_add (by omega)
    simp only [produce, get_bind, hpc, htail]
    rfl

/-- `drain` knows a tail. -/
theorem Inv.drain (h : Inv tokens r) {c : Consumer} (hhead : c.head = r.consumer.head)
    (hle : c.head ≤ c.cachedTail) (htail : c.cachedTail ≤ r.producer.tail)
    (hseen : r.consumer.pc.seen = 0) (max : Nat) :
    Inv tokens { r with consumer := c.drain max } := by
  have htotal := h.total
  have hends := h.tail_le
  refine h.consumer ?_ ?_ ?_ ?_ (Consumer.drain_fine hle (by omega))
  · rw [Consumer.drain_head, hhead]
  · rwa [Consumer.drain_head, Consumer.drain_cachedTail]
  · rwa [Consumer.drain_cachedTail]
  · rw [Consumer.drain_seen, hseen]

/-- The consumer reads a slot. -/
theorem Inv.load (h : Inv tokens r) {take k : Nat} (hpc : r.consumer.pc = .reading take k) :
    ∃ v, r.buf[(r.consumer.head + k) % r.cap]? = some v ∧
      Inv tokens { r with
        consumer := r.consumer.read take (k + 1)
        delivered := r.delivered ++ [v] } := by
  have hfine := h.consuming
  have hdelivered := h.delivered
  rw [hpc] at hfine hdelivered
  obtain ⟨hk, hle⟩ := hfine
  have htail := h.cachedTail_le
  have hends := h.tail_le
  have hget : tokens[r.consumer.head + k]? = some tokens[r.consumer.head + k] :=
    List.getElem?_eq_getElem (by omega)
  refine ⟨tokens[r.consumer.head + k], ?_, ?_⟩
  · rw [h.slots _ (Nat.le_add_right _ _) (by omega), hget]
  · exact { h with
      delivered := by
        dsimp only
        rw [Consumer.read_seen (k := k + 1) hk, Consumer.read_head, ← Nat.add_assoc, List.take_add_one, hget,
          hdelivered]
        rfl
      consuming := Consumer.read_fine hle }

/-- The consumer gives its slots back. -/
theorem Inv.release (h : Inv tokens r) {take : Nat} (hpc : r.consumer.pc = .releasing take) :
    Inv tokens { r with
      head := r.consumer.head + take
      consumer := { r.consumer with head := r.consumer.head + take, pc := .idle } } := by
  have hfine := h.consuming
  have hdelivered := h.delivered
  rw [hpc] at hfine hdelivered
  exact { h with
    head := rfl
    cachedHead_le := Nat.le_add_right_of_le h.cachedHead_le
    head_le := hfine
    delivered := hdelivered
    consuming := trivial
    slots := fun i hi => h.slots i (by dsimp only at hi; omega) }

/-- The consumer takes a step. -/
theorem consume_keeps (h : Inv tokens r) : ∃ r', consume r = .ok ⟨⟩ r' ∧ Inv tokens r' := by
  have htotal := h.total
  have hends := h.tail_le
  have hfine := h.consuming
  have hhead := h.head_le
  have htail := h.cachedTail_le
  cases hpc : r.consumer.pc with
  | idle =>
    cases hprog : r.consumer.program with
    | nil =>
      refine ⟨r, ?_, h⟩
      simp only [consume, get_bind, hpc, hprog]
      rfl
    | cons call program =>
      cases call with
      | pop =>
        refine ⟨{ r with consumer :=
          if r.consumer.head = r.consumer.cachedTail then { r.consumer with program, pc := .waiting }
          else ({ r.consumer with program } : Consumer).read 1 0 }, ?_, ?_⟩
        · simp only [consume, get_bind, hpc, hprog]
          rfl
        split
        · exact h.consumer rfl hhead htail (by rw [hpc]; rfl) ‹_›
        · exact h.consumer rfl hhead htail (by rw [hpc]; rfl)
            (Consumer.read_fine (by dsimp only; omega))
      | drain max =>
        refine ⟨{ r with consumer :=
          if r.consumer.head = r.consumer.cachedTail then
            { r.consumer with program, pc := .refreshing max }
          else ({ r.consumer with program } : Consumer).drain max }, ?_, ?_⟩
        · simp only [consume, get_bind, hpc, hprog]
          rfl
        split
        · exact h.consumer rfl hhead htail (by rw [hpc]; rfl) trivial
        · exact h.drain (c := { r.consumer with program }) rfl hhead htail (by rw [hpc]; rfl) max
  | waiting =>
    refine ⟨{ r with consumer :=
      if r.consumer.head ≠ r.tail then ({ r.consumer with cachedTail := r.tail } : Consumer).read 1 0
      else { r.consumer with cachedTail := r.tail } }, ?_, ?_⟩
    · simp only [consume, get_bind, hpc]
      rfl
    have hnew : r.consumer.head ≤ r.tail := by rw [h.tail]; exact hhead.trans htail
    split
    · exact h.consumer rfl hnew h.tail.le (by rw [hpc]; rfl)
        (Consumer.read_fine (by dsimp only; omega))
    · exact h.consumer rfl hnew h.tail.le rfl
        (by dsimp only; rw [hpc]; exact not_not.mp ‹_›)
  | refreshing max =>
    refine ⟨{ r with consumer := ({ r.consumer with cachedTail := r.tail } : Consumer).drain max },
      ?_, ?_⟩
    · simp only [consume, get_bind, hpc]
      rfl
    have hnew : r.consumer.head ≤ r.tail := by rw [h.tail]; exact hhead.trans htail
    exact h.drain (c := { r.consumer with cachedTail := r.tail }) rfl hnew h.tail.le
      (by rw [hpc]; rfl) max
  | reading take k =>
    obtain ⟨v, hv, hinv⟩ := h.load hpc
    refine ⟨_, ?_, hinv⟩
    rw [hpc] at hfine
    obtain ⟨hk, hle⟩ := hfine
    have hpos : u64 ((r.consumer.head : Int) + k) = r.consumer.head + k := u64_add (by omega)
    simp only [consume, get_bind, hpc, hpos, hv]
    rfl
  | releasing take =>
    refine ⟨_, ?_, h.release hpc⟩
    rw [hpc] at hfine
    have hle : r.consumer.head + take ≤ r.consumer.cachedTail := hfine
    have hnew : u64 ((r.consumer.head : Int) + take) = r.consumer.head + take :=
      u64_add (by omega)
    simp only [consume, get_bind, hpc, hnew]
    rfl

/-- In its wait loop, about to find no room again. -/
def Ring.ProducerSpins (r : Ring) : Prop :=
  ∃ c, r.producer.pc = .waiting c ∧ ({ r.producer with cachedHead := r.head }).fits r.cap c = false

/-- In its wait loop, about to find no token again. -/
def Ring.ConsumerSpins (r : Ring) : Prop := r.consumer.pc = .waiting ∧ r.tail = r.consumer.head

/-- What a user of the ring relies on, when the producer's program is `tokens`. -/
structure Ring.Safe (tokens : List Nat) (r : Ring) : Prop where
  published : r.published <+: tokens
  delivered : r.delivered <+: r.published
  kept : ∀ i, r.delivered.length ≤ i → i < r.published.length →
    r.buf[i % r.cap]? = r.published[i]?
  unread : ∀ c k, r.producer.pc = .storing c k → ∀ i, r.delivered.length ≤ i →
    i < r.published.length + k → u64 (r.producer.tail + k) % r.cap ≠ i % r.cap
  room : r.producer.cachedHead ≤ r.producer.tail ∧ r.producer.tail - r.producer.cachedHead ≤ r.cap
  available : r.consumer.head ≤ r.consumer.cachedTail ∧
    r.consumer.cachedTail - r.consumer.head ≤ r.cap
  awake : ¬ (r.ProducerSpins ∧ r.ConsumerSpins)

theorem Inv.safe (h : Inv tokens r) : r.Safe tokens := by
  have hends := h.tail_le
  have htotal := h.total
  have hroom := h.room
  have hcached := h.cachedHead_le
  have hhead := h.head_le
  have htail := h.cachedTail_le
  have hfine := h.consuming
  have hlen : r.published.length = r.producer.tail := by
    rw [h.published, List.length_take, Nat.min_eq_left hends]
  have hseen : r.consumer.head + r.consumer.pc.seen ≤ r.consumer.cachedTail := by
    cases hpc : r.consumer.pc with
    | idle | waiting | refreshing => exact hhead
    | reading take k => rw [hpc] at hfine; obtain ⟨hk, hle⟩ := hfine; change _ + k ≤ _; omega
    | releasing take => rw [hpc] at hfine; exact hfine
  have hlen' : r.delivered.length = r.consumer.head + r.consumer.pc.seen := by
    rw [h.delivered, List.length_take, Nat.min_eq_left (by omega)]
  refine ⟨?_, ?_, ?_, ?_, ⟨by omega, by omega⟩, ⟨hhead, by omega⟩, ?_⟩
  · rw [h.published]
    exact List.take_prefix _ _
  · rw [h.published, h.delivered]
    exact List.take_prefix_take_left (by omega)
  · intro i hi hlt
    rw [h.slots i (by omega) (by omega), h.published, List.getElem?_take_of_lt (by omega)]
  · intro c k hpc i hi hlt
    have hproducing := h.producing
    have hpending := h.ends
    rw [hpc] at hproducing hpending
    obtain ⟨hk, hle⟩ := hproducing
    simp only [ProducerPc.tokens, Put.tokens_length] at hpending
    rw [u64_add (by omega)]
    exact (slot_ne (by omega) (by omega)).symm
  · rintro ⟨⟨c, hpc, hfits⟩, -, hempty⟩
    have hproducing := h.producing
    have hpending := h.ends
    rw [hpc] at hproducing hpending
    obtain ⟨hc, -⟩ := hproducing
    simp only [ProducerPc.tokens, Put.tokens_length] at hpending
    have hrt := h.tail
    have hrh := h.head
    -- an empty ring has room for every call
    have hroom : ({ r.producer with cachedHead := r.head } : Producer).fits r.cap c = true :=
      (Producer.fits_iff h.cap_lt hc (by dsimp only; omega) (by dsimp only; omega)
        (by dsimp only; omega)).mpr (by dsimp only; omega)
    rw [hroom] at hfits
    cases hfits

theorem run_keeps (turns : List Side) (h : Inv tokens r) :
    ∃ r', run turns r = .ok ⟨⟩ r' ∧ Inv tokens r' := by
  induction turns generalizing r with
  | nil => exact ⟨r, rfl, h⟩
  | cons side turns ih =>
    have hstep : ∃ r', step side r = .ok ⟨⟩ r' ∧ Inv tokens r' := by
      cases side with
      | producer => exact produce_keeps h
      | consumer => exact consume_keeps h
    obtain ⟨r₁, e₁, h₁⟩ := hstep
    obtain ⟨r', e', h'⟩ := ih h₁
    exact ⟨r', runAll_cons_eq_ok.mpr ⟨r₁, e₁, e'⟩, h'⟩

theorem channel_inv {cap : Nat} {puts : List Put} {takes : List Take}
    (h : channel cap puts takes = .ok r) (hputs : ∀ c ∈ puts, c.count ≤ cap)
    (htotal : (tokensOf puts).length < 18446744073709551616) : Inv (tokensOf puts) r := by
  unfold channel at h
  split at h
  · cases h
  split at h
  · cases h
  cases h
  exact {
    cap_pos := by dsimp only; omega
    cap_lt := by dsimp only; omega
    size := Array.size_replicate
    total := htotal
    tail := rfl
    head := rfl
    room := Nat.zero_le _
    cachedHead_le := Nat.le_refl _
    head_le := Nat.le_refl _
    cachedTail_le := Nat.le_refl _
    tail_le := Nat.zero_le _
    published := rfl
    delivered := rfl
    rest := rfl
    calls := hputs
    producing := trivial
    consuming := trivial
    slots := fun i _ hi => absurd hi (Nat.not_lt_zero i) }

/-- Whatever the interleaving, as long as the producer publishes fewer than
`2^64` tokens: the consumer is handed a prefix of what was published, no token
is lost in the ring, and the two sides never wait for each other. -/
theorem ring_safe {cap : Nat} {puts : List Put} {takes : List Take} {r₀ : Ring}
    (h : channel cap puts takes = .ok r₀) (hputs : ∀ c ∈ puts, c.count ≤ cap)
    (htotal : (tokensOf puts).length < 18446744073709551616) (turns : List Side) :
    ∃ r, run turns r₀ = .ok ⟨⟩ r ∧ r.Safe (tokensOf puts) := by
  obtain ⟨r, e, hr⟩ := run_keeps turns (channel_inv h hputs htotal)
  exact ⟨r, e, hr.safe⟩

/-- A burst that wraps in a ring of three slots. -/
theorem ring_safe_burst : ∃ r₀,
    channel 3 [.push 5, .batchPublish 3 id, .batchPublish 0 id] [.pop, .drain 9, .drain 9] = .ok r₀ ∧
      ∀ turns, ∃ r, run turns r₀ = .ok ⟨⟩ r ∧ r.Safe [5, 0, 1, 2] :=
  by
  refine ⟨_, rfl, @ring_safe 3 [.push 5, .batchPublish 3 id, .batchPublish 0 id]
    [.pop, .drain 9, .drain 9] _ rfl ?_ ?_⟩
  · simp [Put.count]
  · decide

/-- A ring of one slot after `k` tokens, with `n` calls left on both sides. -/
def lapped (k n : Nat) : Ring where
  buf := #[7]
  cap := 1
  head := u64 k
  tail := u64 k
  producer := ⟨u64 k, k - 1, .idle, List.replicate n (.push 7)⟩
  consumer := ⟨u64 k, u64 k, .idle, List.replicate n .pop⟩
  published := List.replicate k 7
  delivered := List.replicate k 7

/-- The producer waits for the slot and fills it, the consumer waits for the
token and takes it. -/
def lap : List Side :=
  [.producer, .producer, .producer, .producer, .consumer, .consumer, .consumer, .consumer]

theorem run_lap {k : Nat} (n : Nat) (hk : 1 ≤ k) (hlt : k < 18446744073709551616) :
    run lap (lapped k (n + 1)) = .ok ⟨⟩ (lapped (k + 1) n) := by
  have hself : u64 (k : Int) = k := u64_add (b := 0) hlt
  have hfull : u64 ((k : Int) - (k - 1 : Nat)) = 1 := by unfold u64; omega
  have hnext : u64 ((k : Int) + 1) = u64 ((k + 1 : Nat) : Int) := by rw [Nat.cast_add]; rfl
  have hne : k ≠ u64 ((k + 1 : Nat) : Int) := by unfold u64; omega
  have hzero : u64 0 = 0 := rfl
  have hlog : List.replicate k 7 ++ [7] = 7 :: List.replicate k 7 := List.replicate_succ'.symm
  have hpush : run [.producer, .producer, .producer, .producer] (lapped k (n + 1)) = .ok ⟨⟩
      { lapped k (n + 1) with
        tail := u64 (k + 1 : Nat)
        producer := (lapped (k + 1) n).producer
        published := List.replicate (k + 1) 7 } := by
    simp [run, lapped, List.replicate_succ, runAll, step, produce, Producer.full, Producer.fits,
      Producer.fill, Put.count, Put.token, Put.tokens, hself, hfull, hnext, hzero, hlog,
      Nat.mod_one]
  have hpop : run [.consumer, .consumer, .consumer, .consumer]
      { lapped k (n + 1) with
        tail := u64 (k + 1 : Nat)
        producer := (lapped (k + 1) n).producer
        published := List.replicate (k + 1) 7 } = .ok ⟨⟩ (lapped (k + 1) n) := by
    simp [run, lapped, List.replicate_succ, runAll, step, consume, Consumer.read, hself, hnext,
      hne, hlog, Nat.mod_one]
  exact runAll_append_eq_ok.mpr ⟨_, hpush, hpop⟩

theorem run_laps (m : Nat) {k : Nat} (n : Nat) (hk : 1 ≤ k) (hle : k + m ≤ 18446744073709551616) :
    run (List.replicate m lap).flatten (lapped k (n + m)) = .ok ⟨⟩ (lapped (k + m) n) := by
  induction m generalizing k with
  | zero => rfl
  | succ m ih =>
    rw [List.replicate_succ, List.flatten_cons]
    have hlap := run_lap (n + m) hk (by omega)
    have hrest := ih (k := k + 1) (by omega) (by omega)
    rw [Nat.add_right_comm k 1 m] at hrest
    exact runAll_append_eq_ok.mpr ⟨_, hlap, hrest⟩

/-- The first token meets an empty ring. -/
theorem run_first (n : Nat) : ∃ r₀,
    channel 1 (List.replicate (n + 1) (.push 7)) (List.replicate (n + 1) .pop) = .ok r₀ ∧
      run [.producer, .producer, .producer, .consumer, .consumer, .consumer, .consumer] r₀ =
        .ok ⟨⟩ (lapped 1 n) := by
  refine ⟨_, rfl, ?_⟩
  have hzero : u64 0 = 0 := rfl
  have hone : u64 1 = 1 := rfl
  simp [run, lapped, List.replicate_succ, runAll, step, produce, consume, Producer.full,
    Producer.fill, Consumer.read, Put.count, Put.token, Put.tokens, hzero, hone]

/-- The producer finds the ring full, the consumer empties it and then waits. -/
theorem run_meet : ∃ r₀, channel 1 [.push 1, .push 2] [.pop, .pop] = .ok r₀ ∧
    run [.producer, .producer, .producer, .producer, .producer, .consumer, .consumer, .consumer,
      .consumer, .consumer, .consumer] r₀ = .ok ⟨⟩
        { buf := #[1], cap := 1, head := 1, tail := 1
          producer := ⟨1, 0, .waiting (.push 2), []⟩
          consumer := ⟨1, 1, .waiting, []⟩
          published := [1]
          delivered := [1] } := by
  refine ⟨_, rfl, ?_⟩
  have hzero : u64 0 = 0 := rfl
  have hone : u64 1 = 1 := rfl
  simp [run, runAll, step, produce, consume, Producer.full, Producer.fits, Producer.fill,
    Consumer.read, Put.count, Put.token, Put.tokens, hzero, hone]

/-- Two limits. Both sides can be in their wait loops at once, each after a load
that was of no use. And after `2^64` tokens the producer's tail is behind the
head it has cached. -/
theorem ring_limits :
    (∃ r₀ turns r, channel 1 [.push 1, .push 2] [.pop, .pop] = .ok r₀ ∧ run turns r₀ = .ok ⟨⟩ r ∧
      (∃ c, r.producer.pc = .waiting c) ∧ r.consumer.pc = .waiting) ∧
    ∃ r₀ turns r,
      channel 1 (List.replicate 18446744073709551617 (.push 7))
        (List.replicate 18446744073709551617 .pop) = .ok r₀ ∧
      run turns r₀ = .ok ⟨⟩ r ∧ r.producer.tail < r.producer.cachedHead := by
  obtain ⟨r, e, hmeet⟩ := run_meet
  refine ⟨⟨r, _, _, e, hmeet, ⟨_, rfl⟩, rfl⟩, ?_⟩
  obtain ⟨m, hm⟩ : ∃ m, 18446744073709551617 = 1 + m + 1 := ⟨18446744073709551615, rfl⟩
  rw [hm]
  obtain ⟨r₀, e₀, hfirst⟩ := run_first (1 + m)
  have hlaps := run_laps m 1 (Nat.le_refl 1) (by omega)
  refine ⟨r₀, _, _, e₀, runAll_append_eq_ok.mpr ⟨_, hfirst, hlaps⟩, ?_⟩
  simp only [lapped, u64]
  omega

end HiPerf.Spsc
