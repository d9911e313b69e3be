import HiPerf.Book.Model

/-!
The bounded ring of `handoff-compare/src/spsc.rs`, whose `push` and `pop` are
those of `thread-handoff/ring`. One producer and one consumer run their
programs side by side; every atomic load and store is a step of its own, and
between two of them a side only works on what it owns.
-/

namespace HiPerf.Spsc

open Machine

/-- A call of the producer. -/
inductive Put where
  | push (v : Nat)
  | batchPublish (n : Nat) (fill : Nat → Nat)

/-- A call of the consumer. -/
inductive Take where
  | pop
  | drain (max : Nat)

namespace Put

def count : Put → Nat
  | push _ => 1
  | batchPublish n _ => n

def token : Put → Nat → Nat
  | push v, _ => v
  | batchPublish _ fill, k => fill k

def tokens (c : Put) : List Nat := (List.range c.count).map c.token

end Put

/-- Where the producer is: between two calls, before a load of `head` in its
wait loop, before the store of a slot, or before the store of `tail`. -/
inductive ProducerPc where
  | idle
  | waiting (c : Put)
  | storing (c : Put) (k : Nat)
  | releasing (c : Put)

/-- Where the consumer is: between two calls, before a load of `tail` in the
wait loop of `pop` or in `drain`, before the load of a slot, or before the
store of `head`. -/
inductive ConsumerPc where
  | idle
  | waiting
  | refreshing (max : Nat)
  | reading (take k : Nat)
  | releasing (take : Nat)

structure Producer where
  tail : Nat
  cachedHead : Nat
  pc : ProducerPc
  program : List Put

structure Consumer where
  head : Nat
  cachedTail : Nat
  pc : ConsumerPc
  program : List Take

/-- The shared memory and both sides. `published` lists the tokens whose `tail`
has been stored, `delivered` those the consumer has loaded. -/
structure Ring where
  buf : Array Nat
  cap : Nat
  head : Nat
  tail : Nat
  producer : Producer
  consumer : Consumer
  published : List Nat
  delivered : List Nat

/-- `channel(cap)`, with the programs of both sides. -/
def channel (cap : Nat) (puts : List Put) (takes : List Take) : Except Panic Ring :=
  if cap = 0 then throw (.message "ring capacity must be positive")
  else if cap * 8 > 9223372036854775807 then throw (.message "capacity overflow")
  else pure
    { buf := Array.replicate cap 0
      cap
      head := 0
      tail := 0
      producer := ⟨0, 0, .idle, puts⟩
      consumer := ⟨0, 0, .idle, takes⟩
      published := []
      delivered := [] }

namespace Producer

/-- The test before the wait loop: there is no room by the cached head. -/
def full (p : Producer) (cap : Nat) : Put → Bool
  | .push _ => u64 ((p.tail : Int) - p.cachedHead) = cap
  | .batchPublish n _ => u64 (u64 (p.tail + n) - (p.cachedHead : Int)) > cap

/-- The test that ends the wait loop. -/
def fits (p : Producer) (cap : Nat) : Put → Bool
  | .push _ => u64 ((p.tail : Int) - p.cachedHead) < cap
  | .batchPublish n _ => u64 (u64 (p.tail + n) - (p.cachedHead : Int)) ≤ cap

/-- On to slot `k` of the call, if it has one. -/
def fill (p : Producer) (c : Put) (k : Nat) : Producer :=
  { p with pc := if k < c.count then .storing c k else .releasing c }

end Producer

namespace Consumer

/-- On to slot `k` of `take`, if there is one. -/
def read (c : Consumer) (take k : Nat) : Consumer :=
  { c with pc := if k < take then .reading take k else .releasing take }

/-- `drain` once it knows a tail. It does not store `head` for nothing. -/
def drain (c : Consumer) (max : Nat) : Consumer :=
  let take := min (u64 ((c.cachedTail : Int) - c.head)) max
  if take = 0 then { c with pc := .idle } else c.read take 0

end Consumer

/-- One step of the producer: the start of a call, or an atomic operation and
the local work behind it. -/
def produce : Run Ring Unit := do
  let r ← get
  let p := r.producer
  match p.pc with
  | .idle =>
    match p.program with
    | [] => return
    | c :: program =>
      if let .batchPublish n _ := c then
        if r.cap < n then throw (.message s!"burst {n} exceeds ring capacity {r.cap}")
      let p := { p with program }
      set { r with producer := if p.full r.cap c then { p with pc := .waiting c } else p.fill c 0 }
  | .waiting c =>
    let p := { p with cachedHead := r.head }
    set { r with producer := if p.fits r.cap c then p.fill c 0 else p }
  | .storing c k =>
    let i := u64 (p.tail + k) % r.cap
    if r.buf.size ≤ i then throw .indexOutOfBounds
    set { r with buf := r.buf.setIfInBounds i (c.token k), producer := p.fill c (k + 1) }
  | .releasing c =>
    let tail := u64 (p.tail + c.count)
    set { r with
      tail
      producer := { p with tail, pc := .idle }
      published := r.published ++ c.tokens }

/-- One step of the consumer. -/
def consume : Run Ring Unit := do
  let r ← get
  let c := r.consumer
  match c.pc with
  | .idle =>
    match c.program with
    | [] => return
    | .pop :: program =>
      let c := { c with program }
      set { r with consumer := if c.head = c.cachedTail then { c with pc := .waiting } else c.read 1 0 }
    | .drain max :: program =>
      let c := { c with program }
      set { r with consumer :=
        if c.head = c.cachedTail then { c with pc := .refreshing max } else c.drain max }
  | .waiting =>
    let c := { c with cachedTail := r.tail }
    set { r with consumer := if c.head ≠ c.cachedTail then c.read 1 0 else c }
  | .refreshing max =>
    let c := { c with cachedTail := r.tail }
    set { r with consumer := c.drain max }
  | .reading take k =>
    match r.buf[u64 (c.head + k) % r.cap]? with
    | none => throw .indexOutOfBounds
    | some v => set { r with consumer := c.read take (k + 1), delivered := r.delivered ++ [v] }
  | .releasing take =>
    let head := u64 (c.head + take)
    set { r with head, consumer := { c with head, pc := .idle } }

inductive Side where
  | producer
  | consumer
  deriving DecidableEq, Repr

def step : Side → Run Ring Unit
  | .producer => produce
  | .consumer => consume

/-- The two sides step in the order `turns` gives. -/
def run (turns : List Side) : Run Ring Unit := Exec.runAll step turns

end HiPerf.Spsc
