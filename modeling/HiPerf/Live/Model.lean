import HiPerf.Snapshot.CowImage

/-!
The live snapshots of `live_mvcc_churn/src/main.rs`: a writer that captures a root
now and then and goes on, a channel with room for one message, and a serializer
thread that encodes the roots. A turn is one access to what the threads share; an
instant is the number of timed ops that were applied before it. A panic leaves a
thread without a next turn.
-/

namespace HiPerf

open Machine Exec

/-- What the timed loop starts with, and what it is to do. -/
structure Live where
  cfg : SmrConfig
  /-- the prebuild and the warm-up -/
  before : List Op
  /-- one op for each of the `live_iters` iterations -/
  ops : List Op
  snapEvery : Nat
  /-- the checksum of the images -/
  crc32c : List UInt8 → UInt32
  book : CowBook
  chunked : 1 ≤ cfg.chunk
  every : 0 < snapEvery
  /-- `vec![0u64; cfg.live_iters]` fits the address space -/
  sized : 8 * ops.length ≤ 9223372036854775807
  built : ∃ w₀, CowBook.new cfg = .ok w₀ ∧ CowBook.run (before.map .op) w₀ = .ok () book

namespace Live

def CHANNEL : Nat := 1

structure Message where
  root : Root
  t0 : Nat

/-- A finished snapshot: what is in the buffer, and how much of it is the image. -/
structure Snapshot where
  t0 : Nat
  buf : List UInt8
  len : Nat

/-- The next access of the writer; no iteration stands for the warm handshake. -/
inductive Writer where
  /-- to set the busy flag -/
  | storing (k : Option Nat)
  | capturing (k : Option Nat)
  | sending (k : Option Nat) (m : Message)
  /-- until the handshake is through -/
  | spinning
  /-- the head of an iteration -/
  | checking (k : Nat)
  | applying (k : Nat)
  | dropping
  | joining
  | done

/-- The next access of the serializer, which finds the memory `mem` at each of the
reads that it makes of a root. -/
inductive Serializer where
  | receiving
  | encoding (m : Message) (mem : RootRead → Memory)
  | clearing
  | exited
  /-- `encode_root` has stopped -/
  | panicked (m : Message)

structure World where
  book : CowBook
  busy : Bool
  queue : List Message
  /-- the sender is dropped -/
  closed : Bool
  buf : List UInt8
  encoded : List Snapshot
  skipped : Nat
  /-- the instants of the messages that went into the channel -/
  sent : List Nat
  writer : Writer
  serializer : Serializer

variable (live : Live)

def start : World where
  book := live.book
  busy := false
  queue := []
  closed := false
  buf := List.replicate (64 + live.cfg.cap * 64 + live.cfg.levels * 2 * 32) 0
  encoded := []
  skipped := 0
  sent := []
  writer := .storing none
  serializer := .receiving

/-- The head of iteration `k`. -/
def check (k : Nat) (s : World) : World :=
  if k < live.ops.length then
    if k % live.snapEvery = 0 then
      if s.busy then { s with skipped := s.skipped + 1, writer := .applying k }
      else { s with writer := .storing (some k) }
    else { s with writer := .applying k }
  else { s with writer := .dropping }

/-- Where the writer goes after a send. -/
def afterSend : Option Nat → Writer
  | none => .spinning
  | some k => .applying k

def write (s : World) : Option World :=
  match s.writer with
  | .storing k => some { s with busy := true, writer := .capturing k }
  | .capturing k =>
    match CowBook.capture s.book with
    | .ok root book => some { s with book, writer := .sending k ⟨root, k.getD 0⟩ }
    | .error _ _ => none
  | .sending k m =>
    if s.queue.length < CHANNEL then
      some { s with queue := s.queue ++ [m], sent := s.sent ++ [m.t0], writer := afterSend k }
    else none
  | .spinning => if s.busy then none else some { s with writer := .checking 0 }
  | .checking k => some (live.check k s)
  | .applying k =>
    match live.ops[k]? with
    | some op =>
      match CowBook.apply op s.book with
      | .ok _ book => some { s with book, writer := .checking (k + 1) }
      | .error _ _ => none
    | none => none
  | .dropping => some { s with closed := true, writer := .joining }
  | .joining =>
    match s.serializer with
    | .exited => some { s with writer := .done }
    | _ => none
  | .done => none

def serialize (s : World) : Option World :=
  match s.serializer with
  | .receiving =>
    match s.queue with
    | m :: queue => some { s with queue, serializer := .encoding m fun _ => s.book.mem }
    | [] => if s.closed then some { s with serializer := .exited } else none
  | .encoding m mem =>
    match encodeRoot live.crc32c m.root mem s.buf with
    | .ok (buf, len) =>
      some { s with buf, encoded := s.encoded ++ [⟨m.t0, buf, len⟩], serializer := .clearing }
    | .error _ => some { s with serializer := .panicked m }
  | .clearing => some { s with busy := false, serializer := .receiving }
  | .exited | .panicked _ => none

/-- Some of the reads of the root are made now. -/
def read (which : RootRead → Bool) (s : World) : Option World :=
  match s.serializer with
  | .encoding m mem =>
    some { s with serializer := .encoding m fun rd => if which rd then s.book.mem else mem rd }
  | _ => none

inductive Turn where
  | writer
  | serializer
  | read (which : RootRead → Bool)

def step : Turn → World → Option World
  | .writer => live.write
  | .serializer => live.serialize
  | .read which => read which

/-- Whatever the order of the turns. -/
inductive Reachable (live : Live) : World → Prop
  | start : Reachable live live.start
  | next {s s' : World} {turn : Turn} : Reachable live s → live.step turn s = some s' →
      Reachable live s'

/-- The indices below `k` at which a snapshot is due. -/
def due (k : Nat) : List Nat := (List.range k).filter (· % live.snapEvery = 0)

/-- `snap_count`, the durations less the one of the handshake. -/
def World.snapCount (s : World) : Nat := s.encoded.tail.length

end Live

end HiPerf
