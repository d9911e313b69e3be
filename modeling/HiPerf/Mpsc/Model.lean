import HiPerf.Book.Model

/-!
The multi-producer ring of `handoff-compare/src/mpsc.rs`. Any number of
producers and one consumer run their programs side by side; every atomic load,
store and addition is a step of its own.
-/

namespace HiPerf.Mpsc

open Machine

/-- A call `batch_publish(n, fill)`. -/
structure Burst where
  n : Nat
  fill : Nat → Nat

def Burst.tokens (c : Burst) : List Nat := (List.range c.n).map c.fill

/-- Where a producer is: between two calls, before a load of `head` in the wait
loop of the range it claimed at `seq`, before the store of slot `k` of the range,
or before the store of that slot's round number. -/
inductive ProducerPc where
  | idle
  | waiting (seq : Nat) (c : Burst)
  | storing (seq : Nat) (c : Burst) (k : Nat)
  | marking (seq : Nat) (c : Burst) (k : Nat)

/-- Where the consumer is: between two calls, before the load of the next round
number in a `drain(max)` that has `count` tokens, before the load of the slot, or
before the store of `head`. -/
inductive ConsumerPc where
  | idle
  | checking (max count : Nat)
  | reading (max count : Nat)
  | releasing (count : Nat)

/-- A producer handle; `calls` is the program it was given, `program` what is left. -/
structure Producer where
  cachedHead : Nat
  pc : ProducerPc
  program : List Burst
  calls : List Burst

structure Consumer where
  head : Nat
  pc : ConsumerPc
  program : List Nat

/-- The shared memory and all sides. `claimed` lists for every sequence the
producer that claimed it and its token, `delivered` the tokens the consumer has
been handed. -/
structure Ring where
  buf : Array Nat
  avail : Array Int
  cap : Nat
  claim : Nat
  head : Nat
  producers : List Producer
  consumer : Consumer
  claimed : List (Nat × Nat)
  delivered : List Nat

/-- `ring(cap)`, its producer handle cloned once for every program. -/
def ring (cap : Nat) (programs : List (List Burst)) (drains : List Nat) : Except Panic Ring :=
  if cap = 0 ∨ ¬ cap.isPowerOfTwo then throw (.message "cap must be a power of two")
  else if cap * 8 > 9223372036854775807 then throw (.message "capacity overflow")
  else pure
    { buf := Array.replicate cap 0
      avail := Array.replicate cap (-1)
      cap
      claim := 0
      head := 0
      producers := programs.map fun program => ⟨0, .idle, program, program⟩
      consumer := ⟨0, .idle, drains⟩
      claimed := []
      delivered := [] }

/-- `(seq + n).saturating_sub(cap)`. -/
def need (cap seq n : Nat) : Nat := u64 (seq + n) - cap

namespace Producer

/-- On to slot `k` of the range, if it has one. -/
def store (p : Producer) (seq : Nat) (c : Burst) (k : Nat) : Producer :=
  { p with pc := if k < c.n then .storing seq c k else .idle }

end Producer

namespace Consumer

/-- Behind the loop of `drain`, which does not store `head` for nothing. -/
def leave (c : Consumer) (count : Nat) : Consumer :=
  { c with pc := if 0 < count then .releasing count else .idle }

/-- The head of the loop of `drain`. -/
def loop (c : Consumer) (max count : Nat) : Consumer :=
  if count < max then { c with pc := .checking max count } else c.leave count

end Consumer

/-- One step of producer `i`: the start of a call up to its claim, or an atomic
operation and the local work behind it. -/
def produce (i : Nat) : Run Ring Unit := do
  let r ← get
  match r.producers[i]? with
  | none => return
  | some p =>
    match p.pc with
    | .idle =>
      match p.program with
      | [] => return
      | c :: program =>
        if r.cap < c.n then throw (.message s!"burst {c.n} exceeds ring capacity {r.cap}")
        let p := { p with program }
        let p := if p.cachedHead < need r.cap r.claim c.n then { p with pc := .waiting r.claim c }
          else p.store r.claim c 0
        set { r with
          claim := u64 (r.claim + c.n)
          claimed := r.claimed ++ c.tokens.map fun v => (i, v)
          producers := r.producers.set i p }
    | .waiting seq c =>
      let p := { p with cachedHead := r.head }
      let p := if p.cachedHead ≥ need r.cap seq c.n then p.store seq c 0 else p
      set { r with producers := r.producers.set i p }
    | .storing seq c k =>
      let s := u64 (seq + k)
      if r.buf.size ≤ s % r.cap then throw .indexOutOfBounds
      set { r with
        buf := r.buf.setIfInBounds (s % r.cap) (c.fill k)
        producers := r.producers.set i { p with pc := .marking seq c k } }
    | .marking seq c k =>
      let s := u64 (seq + k)
      if r.avail.size ≤ s % r.cap then throw .indexOutOfBounds
      set { r with
        avail := r.avail.setIfInBounds (s % r.cap) (i64 (s / r.cap : Nat))
        producers := r.producers.set i (p.store seq c (k + 1)) }

/-- One step of the consumer. -/
def consume : Run Ring Unit := do
  let r ← get
  let c := r.consumer
  match c.pc with
  | .idle =>
    match c.program with
    | [] => return
    | max :: program => set { r with consumer := { c with program }.loop max 0 }
  | .checking max count =>
    match r.avail[c.head % r.cap]? with
    | none => throw .indexOutOfBounds
    | some round =>
      let c := if round ≠ i64 (c.head / r.cap : Nat) then c.leave count
        else { c with pc := .reading max count }
      set { r with consumer := c }
  | .reading max count =>
    match r.buf[c.head % r.cap]? with
    | none => throw .indexOutOfBounds
    | some v => set { r with
        consumer := { c with head := u64 (c.head + 1) }.loop max (count + 1)
        delivered := r.delivered ++ [v] }
  | .releasing _ => set { r with head := c.head, consumer := { c with pc := .idle } }

/-- A handle that is between two calls is cloned, for a program of its own. -/
def clone (i : Nat) (program : List Burst) : Run Ring Unit := do
  let r ← get
  match r.producers[i]? with
  | some p =>
    match p.pc with
    | .idle =>
      let p := { p with program, calls := program }
      set { r with producers := r.producers ++ [p] }
    | _ => return
  | none => return

/-- Whose turn it is. -/
inductive Turn where
  | producer (i : Nat)
  | consumer
  | clone (i : Nat) (program : List Burst)

/-- The calls a turn brings in. -/
def Turn.calls : Turn → List Burst
  | .clone _ program => program
  | _ => []

def step : Turn → Run Ring Unit
  | .producer i => produce i
  | .consumer => consume
  | .clone i program => clone i program

/-- All sides step in the order `turns` gives. -/
def run (turns : List Turn) : Run Ring Unit := Exec.runAll step turns

end HiPerf.Mpsc
