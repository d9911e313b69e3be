import Mathlib.Data.List.Basic
import Mathlib.Tactic.Common

/-!
The mutex and condvar rendezvous of `thread-handoff/condvar/src/main.rs`: two
one-slot mailboxes, a requester that runs `req.send; resp.recv` and a responder
that runs `req.recv; resp.send`. A turn is one access to a mailbox.
-/

namespace HiPerf.Condvar

/-- Loads of the flag before `recv` parks. -/
def SPIN_BUDGET : Nat := 4000

inductive Side
  | requester
  | responder
deriving DecidableEq

structure Mailbox where
  full : Bool
  slot : Option Nat
  /-- who holds the mutex -/
  owner : Option Side
  /-- who sleeps on the condvar -/
  parked : List Side
deriving DecidableEq

/-- The next access of a `send`. -/
inductive SendPc
  | locking
  | filling
  | publishing
  | unlocking
  | notifying
deriving DecidableEq

/-- Whether `recv` still spins when it takes the lock. -/
inductive Path
  | fast (tries : Nat)
  | slow
deriving DecidableEq

/-- The next access of a `recv`. -/
inductive RecvPc
  | spinning (tries : Nat)
  | locking (path : Path)
  | taking (path : Path)
  /-- the lock was taken for nothing -/
  | retrying (tries : Nat)
  /-- in `cv.wait`, which ends by taking the lock again -/
  | waiting
  | clearing (v : Nat)
  | unlocking (v : Nat)
deriving DecidableEq

namespace Mailbox

def new : Mailbox := ⟨false, none, none, []⟩

def lock (me : Side) (m : Mailbox) : Option Mailbox :=
  if m.owner = none then some { m with owner := some me } else none

def unlock (m : Mailbox) : Mailbox := { m with owner := none }

/-- One access of `send(v)`: nothing where it has to wait, and no next access when
it returns. -/
def send (me : Side) (v : Nat) : SendPc → Mailbox → Option (Mailbox × Option SendPc)
  | .locking, m => (m.lock me).map (·, some .filling)
  | .filling, m => some ({ m with slot := some v }, some .publishing)
  | .publishing, m => some ({ m with full := true }, some .unlocking)
  | .unlocking, m => some (m.unlock, some .notifying)
  | .notifying, m => some ({ m with parked := m.parked.tail }, none)

/-- One access of `recv`, which returns a token in the end. -/
def recv (me : Side) : RecvPc → Mailbox → Option (Mailbox × (RecvPc ⊕ Nat))
  | .spinning tries, m =>
    if tries < SPIN_BUDGET then
      some (m, .inl (if m.full then .locking (.fast tries) else .spinning (tries + 1)))
    else some (m, .inl (.locking .slow))
  | .locking path, m => (m.lock me).map (·, .inl (.taking path))
  | .taking path, m =>
    match m.slot, path with
    | some v, _ => some ({ m with slot := none }, .inl (.clearing v))
    | none, .fast tries => some (m, .inl (.retrying tries))
    | none, .slow => some ({ m.unlock with parked := m.parked ++ [me] }, .inl .waiting)
  | .retrying tries, m => some (m.unlock, .inl (.spinning (tries + 1)))
  | .waiting, m => if me ∈ m.parked then none else (m.lock me).map (·, .inl (.taking .slow))
  | .clearing v, m => some ({ m with full := false }, .inl (.unlocking v))
  | .unlocking v, m => some (m.unlock, .inr v)

end Mailbox

inductive Pc
  | sending (v : Nat) (p : SendPc)
  | receiving (p : RecvPc)
  | finished
deriving DecidableEq

/-- `round` counts the iterations that are over, `got` lists what `recv` returned. -/
structure Thread where
  pc : Pc
  round : Nat
  got : List Nat
deriving DecidableEq

/-- How many round trips there are, and what is sent in each. -/
structure Config where
  rounds : Nat
  token : Nat → Nat

structure World where
  req : Mailbox
  resp : Mailbox
  requester : Thread
  responder : Thread

namespace Config

variable (cfg : Config)

/-- The head of the requester's loop. -/
def request (round : Nat) : Pc :=
  if round < cfg.rounds then .sending (cfg.token round) .locking else .finished

/-- The head of the responder's loop. -/
def await (round : Nat) : Pc :=
  if round < cfg.rounds then .receiving (.spinning 0) else .finished

def start : World where
  req := .new
  resp := .new
  requester := ⟨cfg.request 0, 0, []⟩
  responder := ⟨cfg.await 0, 0, []⟩

/-- `req.send(..); resp.recv()`. -/
def measured (s : World) : Option World :=
  let me := s.requester
  match me.pc with
  | .sending v p => (s.req.send .requester v p).map fun
    | (req, some p) => { s with req, requester := { me with pc := .sending v p } }
    | (req, none) => { s with req, requester := { me with pc := .receiving (.spinning 0) } }
  | .receiving p => (s.resp.recv .requester p).map fun
    | (resp, .inl p) => { s with resp, requester := { me with pc := .receiving p } }
    | (resp, .inr v) =>
      { s with resp, requester := ⟨cfg.request (me.round + 1), me.round + 1, me.got ++ [v]⟩ }
  | .finished => none

/-- `let v = req.recv(); resp.send(v)`. -/
def respond (s : World) : Option World :=
  let me := s.responder
  match me.pc with
  | .receiving p => (s.req.recv .responder p).map fun
    | (req, .inl p) => { s with req, responder := { me with pc := .receiving p } }
    | (req, .inr v) => { s with req, responder := ⟨.sending v .locking, me.round, me.got ++ [v]⟩ }
  | .sending v p => (s.resp.send .responder v p).map fun
    | (resp, some p) => { s with resp, responder := { me with pc := .sending v p } }
    | (resp, none) =>
      { s with resp, responder := { me with pc := cfg.await (me.round + 1), round := me.round + 1 } }
  | .finished => none

end Config

/-- A thread runs on, or wakes up for no reason. -/
inductive Turn
  | run (side : Side)
  | wake (side : Side)

def step (cfg : Config) : Turn → World → Option World
  | .run .requester, s => cfg.measured s
  | .run .responder, s => cfg.respond s
  | .wake .requester, s =>
    if .requester ∈ s.resp.parked then
      some { s with resp := { s.resp with parked := s.resp.parked.erase .requester } }
    else none
  | .wake .responder, s =>
    if .responder ∈ s.req.parked then
      some { s with req := { s.req with parked := s.req.parked.erase .responder } }
    else none

/-- Whatever the order of the turns. -/
inductive Reachable (cfg : Config) : World → Prop
  | start : Reachable cfg cfg.start
  | next {s s' : World} {turn : Turn} : Reachable cfg s → step cfg turn s = some s' → Reachable cfg s'

def World.Finished (s : World) : Prop := s.requester.pc = .finished ∧ s.responder.pc = .finished

end HiPerf.Condvar
