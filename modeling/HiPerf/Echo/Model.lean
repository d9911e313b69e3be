import Mathlib.Data.List.Basic
import Mathlib.Tactic.Common

/-!
The TCP echo of `network-rtt/tcp/src/tcp.rs`: a client that runs `round_trip` over
and over, and a server in `serve_conn`. Either direction of the connection is a
bounded queue of bytes; a turn is one system call of one side, and what it
returns is up to the schedule.
-/

namespace HiPerf.Echo

/-- Polls before `read_bounded` blocks. -/
def SPIN_BUDGET : Nat := 4000

/-- The size of the server's buffer. -/
def CHUNK : Nat := 8192

/-- What a run is configured with, and the room of the connection. -/
structure Config where
  send : List UInt8
  warmup : Nat
  iterations : Nat
  upCap : Nat
  downCap : Nat
  send_pos : 0 < send.length
  iterations_pos : 0 < iterations
  upCap_pos : 0 < upCap
  downCap_pos : 0 < downCap

inductive ErrorKind
  | unexpectedEof
  | invalidData
deriving DecidableEq

structure IoError where
  kind : ErrorKind
  text : String
deriving DecidableEq

def peerClosed : IoError := ⟨.unexpectedEof, "tcp echo: peer closed connection"⟩

def mismatch : IoError := ⟨.invalidData, "tcp echo mismatch: received bytes differ from sent"⟩

/-- What a system call on a socket returns. -/
inductive Outcome
  | bytes (n : Nat)
  | wouldBlock
  | interrupted

/-- How far `read_bounded` is: it polls until its budget is used up, then blocks. -/
inductive Poll
  | polling (tries : Nat)
  | blocking

inductive ClientPc
  /-- so much of the payload is written -/
  | writing (off : Nat)
  /-- so much of the echo is there -/
  | reading (recv : List UInt8) (poll : Poll)
  | closed

inductive ServerPc
  | reading (poll : Poll)
  /-- a chunk, and how much of it is echoed -/
  | echoing (buf : List UInt8) (off : Nat)
  | ended

structure Conn where
  /-- on the way to the server -/
  up : List UInt8
  /-- on the way back -/
  down : List UInt8
  client : ClientPc
  server : ServerPc
  /-- round trips that are not over -/
  rounds : Nat
  results : List (Except IoError Unit)

namespace Poll

/-- A read that has no bytes to return. -/
def retry : Poll → Poll
  | .polling tries => if tries < SPIN_BUDGET then .polling (tries + 1) else .blocking
  | .blocking => .blocking

end Poll

/-- One `read` of `read_bounded`: the next poll, or how many bytes it returns. -/
def readBounded (poll : Poll) (avail : List UInt8) (room : Nat) (eof : Bool) :
    Outcome → Option (Poll ⊕ Nat)
  | .bytes n =>
    if n ≤ avail.length ∧ n ≤ room ∧ (0 < n ∨ avail = [] ∧ eof) then some (.inr n) else none
  | .wouldBlock =>
    match poll with
    | .polling _ => some (.inl poll.retry)
    | .blocking => none
  | .interrupted => some (.inl poll.retry)

/-- A `write` of the first `n` bytes, where the queue has room for them. -/
def write (cap : Nat) (queue rest : List UInt8) (n : Nat) : Option (List UInt8) :=
  if 0 < n ∧ n ≤ rest.length ∧ queue.length + n ≤ cap then some (queue ++ rest.take n) else none

namespace Conn

/-- `round_trip` returns, and the loop around it stops at an error. -/
def finish (s : Conn) (r : Except IoError Unit) : Conn :=
  { s with
    results := s.results ++ [r]
    rounds := s.rounds - 1
    client := match r with
      | .ok () => if 1 < s.rounds then .writing 0 else .closed
      | .error _ => .closed }

def serverEnded (s : Conn) : Bool :=
  match s.server with
  | .ended => true
  | _ => false

def clientClosed (s : Conn) : Bool :=
  match s.client with
  | .closed => true
  | _ => false

end Conn

namespace Config

variable (cfg : Config)

def start : Conn where
  up := []
  down := []
  client := .writing 0
  server := .reading (.polling 0)
  rounds := cfg.warmup + cfg.iterations
  results := []

/-- `n` more bytes of the echo are read. -/
def received (s : Conn) (recv : List UInt8) (n : Nat) : Conn :=
  let s' := { s with down := s.down.drop n }
  let recv' := recv ++ s.down.take n
  if n = 0 then s'.finish (.error peerClosed)
  else if recv'.length < cfg.send.length then { s' with client := .reading recv' (.polling 0) }
  else s'.finish (if recv' = cfg.send then .ok () else .error mismatch)

def roundTrip (o : Outcome) (s : Conn) : Option Conn :=
  match s.client with
  | .writing off =>
    match o with
    | .bytes n => (write cfg.upCap s.up (cfg.send.drop off) n).map fun up =>
      { s with
        up
        client := if off + n < cfg.send.length then .writing (off + n) else .reading [] (.polling 0) }
    | .wouldBlock => some s
    | .interrupted => some s
  | .reading recv poll =>
    (readBounded poll s.down (cfg.send.length - recv.length) s.serverEnded o).map fun
      | .inl poll => { s with client := .reading recv poll }
      | .inr n => cfg.received s recv n
  | .closed => none

def serveConn (o : Outcome) (s : Conn) : Option Conn :=
  match s.server with
  | .reading poll =>
    (readBounded poll s.up CHUNK s.clientClosed o).map fun
      | .inl poll => { s with server := .reading poll }
      | .inr 0 => { s with server := .ended }
      | .inr n => { s with up := s.up.drop n, server := .echoing (s.up.take n) 0 }
  | .echoing buf off =>
    match o with
    | .bytes n => (write cfg.downCap s.down (buf.drop off) n).map fun down =>
      { s with
        down
        server := if off + n < buf.length then .echoing buf (off + n) else .reading (.polling 0) }
    | .wouldBlock => some s
    | .interrupted => some s
  | .ended => none

end Config

inductive Turn
  | client (o : Outcome)
  | server (o : Outcome)

def step (cfg : Config) : Turn → Conn → Option Conn
  | .client o => cfg.roundTrip o
  | .server o => cfg.serveConn o

/-- Whatever the schedule. -/
inductive Reachable (cfg : Config) : Conn → Prop
  | start : Reachable cfg cfg.start
  | next {s s' : Conn} {turn : Turn} : Reachable cfg s → step cfg turn s = some s' → Reachable cfg s'

/-- Neither side can move a byte. -/
def Stuck (cfg : Config) (s : Conn) : Prop :=
  ∀ n, 0 < n → step cfg (.client (.bytes n)) s = none ∧ step cfg (.server (.bytes n)) s = none

end HiPerf.Echo
