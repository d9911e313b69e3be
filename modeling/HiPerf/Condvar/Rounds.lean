import HiPerf.Condvar.Mailbox

/-!
The whole rendezvous: the tokens of every round arrive in order, one of the two
threads can always go on until both are done, and only a wake-up for no reason
adds to the work left.
-/

namespace HiPerf.Condvar

def sendAt : Pc → Option SendPc
  | .sending _ p => some p
  | _ => none

def recvAt : Pc → Option RecvPc
  | .receiving p => some p
  | _ => none

/-- Whether the thread is in a call of `send`, counted. -/
def Pc.sends : Pc → Nat
  | .sending .. => 1
  | _ => 0

def Pc.receives : Pc → Nat
  | .receiving _ => 1
  | _ => 0

variable {cfg : Config} {s s' : World}

/-- A thread to which `recv` has returned `got` tokens. -/
structure Thread.Ok (cfg : Config) (t : Thread) (got : Nat) : Prop where
  round : t.round ≤ cfg.rounds
  ends : t.pc = .finished ↔ t.round = cfg.rounds
  carries : ∀ v p, t.pc = .sending v p → v = cfg.token t.round
  got : t.got = (List.range got).map cfg.token

structure World.Ok (cfg : Config) (s : World) : Prop where
  requester : s.requester.Ok cfg s.requester.round
  responder : s.responder.Ok cfg (s.responder.round + s.responder.pc.sends)
  req : s.req.Ok cfg.token .requester .responder (sendAt s.requester.pc) (recvAt s.responder.pc)
    (s.requester.round + s.requester.pc.receives) (s.responder.round + s.responder.pc.sends)
  resp : s.resp.Ok cfg.token .responder .requester (sendAt s.responder.pc) (recvAt s.requester.pc)
    s.responder.round s.requester.round

theorem putOf_le (snd : Option SendPc) : putOf snd ≤ 1 := by
  unfold putOf
  split <;> decide

/-- The reply is in its mailbox only after the request was taken. -/
theorem putOf_le_sends (pc : Pc) : putOf (sendAt pc) ≤ pc.sends := by
  cases pc with
  | sending v p => exact putOf_le _
  | receiving p => exact Nat.le_refl 0
  | finished => exact Nat.le_refl 0

theorem receives_add_putOf_le (pc : Pc) : pc.receives + putOf (sendAt pc) ≤ 1 := by
  cases pc with
  | sending v p => exact (Nat.zero_add _).symm ▸ putOf_le _
  | receiving p => exact Nat.le_refl 1
  | finished => exact Nat.zero_le 1

namespace World.Ok

variable (h : s.Ok cfg)

include h

/-- The request is put into an empty slot: the reply to the one before it has been taken. -/
theorem req_empty {v : Nat} (hpc : s.requester.pc = .sending v .filling) : s.req.slot = none := by
  have hreq := h.req.count
  have hresp := h.resp.count
  have hput := putOf_le_sends s.responder.pc
  rw [hpc] at hreq hresp
  change s.requester.round + 0 + 0 = _ at hreq
  change _ = s.requester.round + 0 + _ at hresp
  rw [← Option.toList_eq_nil_iff, ← List.length_eq_zero_iff]
  omega

/-- The reply is put into an empty slot: the requester has asked once more at most. -/
theorem resp_empty {v : Nat} (hpc : s.responder.pc = .sending v .filling) :
    s.resp.slot = none := by
  have hreq := h.req.count
  have hresp := h.resp.count
  have hask := receives_add_putOf_le s.requester.pc
  rw [hpc] at hreq hresp
  change _ = s.responder.round + 1 + 0 + _ at hreq
  change s.responder.round + 0 = _ at hresp
  rw [← Option.toList_eq_nil_iff, ← List.length_eq_zero_iff]
  omega

end World.Ok

theorem range_map_succ (f : Nat → Nat) (n : Nat) :
    (List.range (n + 1)).map f = (List.range n).map f ++ [f n] := by
  rw [List.range_succ, List.map_append, List.map_singleton]

namespace Thread.Ok

variable {pc : Pc} {round n : Nat} {got : List Nat}

theorem busy (h : Thread.Ok cfg ⟨pc, round, got⟩ n) (hpc : pc ≠ .finished) : round ≠ cfg.rounds :=
  fun hr => hpc (h.ends.mpr hr)

/-- A thread goes on within its iteration. -/
theorem goOn (h : Thread.Ok cfg ⟨pc, round, got⟩ n) (pc' : Pc) (hpc : pc ≠ .finished)
    (hpc' : pc' ≠ .finished)
    (hcarries : ∀ v p, pc' = .sending v p → v = cfg.token round) :
    Thread.Ok cfg ⟨pc', round, got⟩ n :=
  ⟨h.round, ⟨fun hf => absurd hf hpc', fun hr => absurd hr (h.busy hpc)⟩, hcarries, h.got⟩

theorem request (hround : round ≤ cfg.rounds) (hgot : got = (List.range n).map cfg.token) :
    Thread.Ok cfg ⟨cfg.request round, round, got⟩ n := by
  rw [Config.request]
  split
  · next hlt =>
    exact ⟨hround, ⟨nofun, fun hr => absurd hr (Nat.ne_of_lt hlt)⟩, fun v p hp => by cases hp; rfl, hgot⟩
  · next hge =>
    exact ⟨hround, ⟨fun _ => Nat.le_antisymm hround (Nat.le_of_not_lt hge), fun _ => rfl⟩, nofun, hgot⟩

theorem await (hround : round ≤ cfg.rounds) (hgot : got = (List.range n).map cfg.token) :
    Thread.Ok cfg ⟨cfg.await round, round, got⟩ n := by
  rw [Config.await]
  split
  · next hlt => exact ⟨hround, ⟨nofun, fun hr => absurd hr (Nat.ne_of_lt hlt)⟩, nofun, hgot⟩
  · next hge =>
    exact ⟨hround, ⟨fun _ => Nat.le_antisymm hround (Nat.le_of_not_lt hge), fun _ => rfl⟩, nofun, hgot⟩

/-- `recv` has returned one more token, the right one. -/
theorem receive (h : Thread.Ok cfg ⟨pc, round, got⟩ n) {v : Nat} (hv : v = cfg.token n) :
    got ++ [v] = (List.range (n + 1)).map cfg.token := by
  rw [range_map_succ, ← h.got, hv]

end Thread.Ok

section Heads

variable {m : Mailbox} {sender receiver : Side} {snd : Option SendPc} {rcv : Option RecvPc}
  {sent got : Nat} (round : Nat)

theorem recvAt_request : recvAt (cfg.request round) = none := by
  rw [Config.request]
  split <;> rfl

theorem receives_request : (cfg.request round).receives = 0 := by
  rw [Config.request]
  split <;> rfl

theorem sendAt_await : sendAt (cfg.await round) = none := by
  rw [Config.await]
  split <;> rfl

theorem sends_await : (cfg.await round).sends = 0 := by
  rw [Config.await]
  split <;> rfl

theorem Mailbox.Ok.request (h : m.Ok cfg.token sender receiver none rcv sent got) :
    m.Ok cfg.token sender receiver (sendAt (cfg.request round)) rcv sent got := by
  rw [Config.request]
  split
  · exact h.approach
  · exact h

theorem Mailbox.Ok.await (h : m.Ok cfg.token sender receiver snd none sent got) :
    m.Ok cfg.token sender receiver snd (recvAt (cfg.await round)) sent got := by
  rw [Config.await]
  split
  · exact h.listen
  · exact h

end Heads

/-- A turn of the requester. -/
theorem measured_ok (h : s.Ok cfg) (e : cfg.measured s = some s') : s'.Ok cfg := by
  obtain ⟨req, resp, ⟨pc, round, got⟩, responder⟩ := s
  cases pc with
  | sending v p =>
    obtain ⟨⟨req', p'⟩, hsend, rfl⟩ := Option.map_eq_some_iff.mp e
    have hv := h.requester.carries v p rfl
    have hreq := h.req.send (fun hp => ⟨h.req_empty (congrArg (Pc.sending v) hp), hv⟩) hsend
    cases p' with
    | some p' =>
      have hme := h.requester.goOn (.sending v p') nofun nofun fun _ _ hp => by
        cases hp
        exact hv
      exact ⟨hme, h.responder, hreq, h.resp⟩
    | none =>
      have hme := h.requester.goOn (.receiving (.spinning 0)) nofun nofun nofun
      exact ⟨hme, h.responder, hreq, h.resp.listen⟩
  | receiving p =>
    obtain ⟨⟨resp', r⟩, hrecv, rfl⟩ := Option.map_eq_some_iff.mp e
    obtain ⟨hresp, hhand⟩ := h.resp.recv hrecv
    cases r with
    | inl p' =>
      have hme := h.requester.goOn (.receiving p') nofun nofun nofun
      exact ⟨hme, h.responder, h.req, hresp⟩
    | inr v =>
      have hround : round < cfg.rounds := Nat.lt_of_le_of_ne h.requester.round (h.requester.busy nofun)
      have hgot := h.requester.receive (h.resp.hand v (hhand v rfl))
      have hreq := h.req.request (round + 1)
      refine ⟨.request hround hgot, h.responder, ?_, ?_⟩
      · simp only [receives_request]
        exact hreq
      · simp only [recvAt_request]
        exact hresp
  | finished => cases e

/-- A turn of the responder. -/
theorem respond_ok (h : s.Ok cfg) (e : cfg.respond s = some s') : s'.Ok cfg := by
  obtain ⟨req, resp, requester, ⟨pc, round, got⟩⟩ := s
  cases pc with
  | receiving p =>
    obtain ⟨⟨req', r⟩, hrecv, rfl⟩ := Option.map_eq_some_iff.mp e
    obtain ⟨hreq, hhand⟩ := h.req.recv hrecv
    cases r with
    | inl p' =>
      have hme := h.responder.goOn (.receiving p') nofun nofun nofun
      exact ⟨h.requester, hme, hreq, h.resp⟩
    | inr v =>
      have hv := h.req.hand v (hhand v rfl)
      have hgot := h.responder.receive hv
      have hme := h.responder.goOn (.sending v .locking) nofun nofun fun _ _ hp => by
        cases hp
        exact hv
      exact ⟨h.requester, { hme with got := hgot }, hreq, h.resp.approach⟩
  | sending v p =>
    obtain ⟨⟨resp', p'⟩, hsend, rfl⟩ := Option.map_eq_some_iff.mp e
    have hv := h.responder.carries v p rfl
    have hresp := h.resp.send (fun hp => ⟨h.resp_empty (congrArg (Pc.sending v) hp), hv⟩) hsend
    cases p' with
    | some p' =>
      have hme := h.responder.goOn (.sending v p') nofun nofun fun _ _ hp => by
        cases hp
        exact hv
      exact ⟨h.requester, hme, h.req, hresp⟩
    | none =>
      have hround : round < cfg.rounds := Nat.lt_of_le_of_ne h.responder.round (h.responder.busy nofun)
      have hreq := h.req.await (round + 1)
      refine ⟨h.requester, ?_, ?_, ?_⟩
      · simp only [sends_await]
        exact .await hround h.responder.got
      · simp only [sends_await]
        exact hreq
      · simp only [sendAt_await]
        exact hresp
  | finished => cases e

theorem step_ok {turn : Turn} (h : s.Ok cfg) (e : step cfg turn s = some s') : s'.Ok cfg := by
  cases turn with
  | run side =>
    cases side with
    | requester => exact measured_ok h e
    | responder => exact respond_ok h e
  | wake side =>
    cases side with
    | requester =>
      simp only [step, Option.ite_none_right_eq_some, Option.some.injEq] at e
      obtain ⟨-, rfl⟩ := e
      exact { h with resp := h.resp.wake }
    | responder =>
      simp only [step, Option.ite_none_right_eq_some, Option.some.injEq] at e
      obtain ⟨-, rfl⟩ := e
      exact { h with req := h.req.wake }

theorem new_ok {token : Nat → Nat} {sender receiver : Side} (hne : sender ≠ receiver) :
    Mailbox.new.Ok token sender receiver none none 0 0 where
  apart := hne
  sends := ⟨nofun, nofun⟩
  receives := ⟨nofun, nofun⟩
  published := nofun
  cleared := nofun
  settled := fun _ _ => rfl
  count := rfl
  slot := nofun
  parked := .inl rfl
  tries := by decide
  hand := nofun

theorem start_ok : cfg.start.Ok cfg where
  requester := .request (Nat.zero_le _) rfl
  responder := by
    simp only [Config.start, sends_await]
    exact .await (Nat.zero_le _) rfl
  req := by
    simp only [Config.start, sends_await, receives_request]
    exact ((new_ok (by decide)).request 0).await 0
  resp := by
    simp only [Config.start, sendAt_await, recvAt_request]
    exact new_ok (by decide)

/-- Whatever the interleaving and however often a wait wakes up for no reason. -/
theorem Reachable.ok (h : Reachable cfg s) : s.Ok cfg := by
  induction h with
  | start => exact start_ok
  | next _ e ih => exact step_ok ih e

end HiPerf.Condvar
