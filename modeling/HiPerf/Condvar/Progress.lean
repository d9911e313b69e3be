import HiPerf.Condvar.Rounds
import HiPerf.Lib.Turns

/-!
No wake-up is lost: until both threads are done one of them can go on, and each
of its accesses leaves less work, of which only a wake-up for no reason adds.
-/

namespace HiPerf.Condvar

variable {cfg : Config} {s s' : World} {m m' : Mailbox} {me : Side}

theorem send_eq_none {v : Nat} {p : SendPc} (e : m.send me v p = none) :
    sendHolds (some p) = false ∧ m.owner ≠ none := by
  cases p with
  | locking =>
    simp only [Mailbox.send, Option.map_eq_none_iff, Mailbox.lock] at e
    split at e
    · cases e
    · next hheld => exact ⟨rfl, hheld⟩
  | filling | publishing | unlocking | notifying => cases e

theorem recv_eq_none {p : RecvPc} (e : m.recv me p = none) :
    recvHolds (some p) = false ∧ (m.owner = none → p = .waiting ∧ me ∈ m.parked) := by
  cases p with
  | spinning n =>
    simp only [Mailbox.recv] at e
    split at e <;> cases e
  | locking path =>
    simp only [Mailbox.recv, Option.map_eq_none_iff, Mailbox.lock] at e
    split at e
    · cases e
    · next hheld => exact ⟨rfl, fun hfree => absurd hfree hheld⟩
  | taking path =>
    simp only [Mailbox.recv] at e
    split at e <;> cases e
  | waiting =>
    simp only [Mailbox.recv] at e
    split at e
    · next hasleep => exact ⟨rfl, fun _ => ⟨rfl, hasleep⟩⟩
    · simp only [Option.map_eq_none_iff, Mailbox.lock] at e
      split at e
      · cases e
      · next hheld => exact ⟨rfl, fun hfree => absurd hfree hheld⟩
  | retrying n | clearing v | unlocking v => cases e

/-- A thread that cannot go on holds no lock, and is done or asleep where the locks
are free. -/
theorem measured_eq_none (e : cfg.measured s = none) :
    (sendHolds (sendAt s.requester.pc) = false ∧ recvHolds (recvAt s.requester.pc) = false) ∧
    (s.req.owner = none → s.resp.owner = none → s.requester.pc = .finished ∨
      s.requester.pc = .receiving .waiting ∧ .requester ∈ s.resp.parked) := by
  obtain ⟨req, resp, ⟨pc, round, got⟩, responder⟩ := s
  cases pc with
  | sending v p =>
    obtain ⟨hsend, hheld⟩ := send_eq_none (Option.map_eq_none_iff.mp e)
    exact ⟨⟨hsend, rfl⟩, fun hfree => absurd hfree hheld⟩
  | receiving p =>
    obtain ⟨hrecv, hasleep⟩ := recv_eq_none (Option.map_eq_none_iff.mp e)
    refine ⟨⟨rfl, hrecv⟩, fun _ hfree => .inr ?_⟩
    obtain ⟨rfl, hmem⟩ := hasleep hfree
    exact ⟨rfl, hmem⟩
  | finished => exact ⟨⟨rfl, rfl⟩, fun _ _ => .inl rfl⟩

theorem respond_eq_none (e : cfg.respond s = none) :
    (sendHolds (sendAt s.responder.pc) = false ∧ recvHolds (recvAt s.responder.pc) = false) ∧
    (s.req.owner = none → s.resp.owner = none → s.responder.pc = .finished ∨
      s.responder.pc = .receiving .waiting ∧ .responder ∈ s.req.parked) := by
  obtain ⟨req, resp, requester, ⟨pc, round, got⟩⟩ := s
  cases pc with
  | sending v p =>
    obtain ⟨hsend, hheld⟩ := send_eq_none (Option.map_eq_none_iff.mp e)
    exact ⟨⟨hsend, rfl⟩, fun _ hfree => absurd hfree hheld⟩
  | receiving p =>
    obtain ⟨hrecv, hasleep⟩ := recv_eq_none (Option.map_eq_none_iff.mp e)
    refine ⟨⟨rfl, hrecv⟩, fun hfree _ => .inr ?_⟩
    obtain ⟨rfl, hmem⟩ := hasleep hfree
    exact ⟨rfl, hmem⟩
  | finished => exact ⟨⟨rfl, rfl⟩, fun _ _ => .inl rfl⟩

/-- A lock that neither thread holds is free. -/
theorem owner_eq_none {token : Nat → Nat} {snd : Option SendPc} {rcv : Option RecvPc}
    {sender receiver : Side} {sent got : Nat} (h : m.Ok token sender receiver snd rcv sent got)
    (hsend : sendHolds snd = false) (hrecv : recvHolds rcv = false) : m.owner = none := by
  cases howner : m.owner with
  | none => rfl
  | some side =>
    have hside : side = sender ∨ side = receiver := by
      have hne := h.apart
      cases side <;> cases sender <;> cases receiver <;> simp_all
    obtain rfl | rfl := hside
    · rw [h.sends.mp howner] at hsend
      cases hsend
    · rw [h.receives.mp howner] at hrecv
      cases hrecv

/-- Where the receiver sleeps and the sender is not about to notify, the slot is empty. -/
theorem Mailbox.Ok.asleep {token : Nat → Nat} {snd : Option SendPc} {rcv : Option RecvPc}
    {sender receiver : Side} {sent got : Nat} (h : m.Ok token sender receiver snd rcv sent got)
    (hmem : me ∈ m.parked) (hsnd : announces snd = false) : m.slot = none := by
  obtain hnil | ⟨-, -, hfull⟩ := h.parked
  · rw [hnil] at hmem
    cases hmem
  · rw [← Option.not_isSome_iff_eq_none]
    intro hsome
    rw [hfull hsome] at hsnd
    cases hsnd

/-- Until both are done one of the two goes on. -/
theorem World.Ok.moves (h : s.Ok cfg) (hopen : ¬ s.Finished) :
    ∃ side s', step cfg (.run side) s = some s' := by
  by_contra hstuck
  have hnone : ∀ side, step cfg (.run side) s = none := fun side =>
    Option.eq_none_iff_forall_ne_some.mpr fun s' e => hstuck ⟨side, s', e⟩
  obtain ⟨⟨hsendA, hrecvA⟩, hA⟩ := measured_eq_none (hnone .requester)
  obtain ⟨⟨hsendB, hrecvB⟩, hB⟩ := respond_eq_none (hnone .responder)
  have hreqFree := owner_eq_none h.req hsendA hrecvB
  have hrespFree := owner_eq_none h.resp hsendB hrecvA
  have hreq := h.req.count
  have hresp := h.resp.count
  have hendA := h.requester.ends
  have hendB := h.responder.ends
  have hroundA := h.requester.round
  have hroundB := h.responder.round
  have hasleepA : .requester ∈ s.resp.parked → announces (sendAt s.responder.pc) = false →
    s.resp.slot = none := h.resp.asleep
  have hasleepB : .responder ∈ s.req.parked → announces (sendAt s.requester.pc) = false →
    s.req.slot = none := h.req.asleep
  obtain hpcA | ⟨hpcA, hmemA⟩ := hA hreqFree hrespFree <;>
    obtain hpcB | ⟨hpcB, hmemB⟩ := hB hreqFree hrespFree <;>
    rw [hpcA, hpcB] at hreq hresp <;> rw [hpcA] at hendA hasleepB <;> rw [hpcB] at hendB hasleepA
  · exact hopen ⟨hpcA, hpcB⟩
  · -- the responder has replied to every request
    have hlast := hendA.mp rfl
    have hmore : s.responder.round ≠ cfg.rounds := fun hr => by cases hendB.mpr hr
    change s.responder.round + 0 = s.requester.round + 0 + _ at hresp
    omega
  · -- the last reply is in the mailbox
    have hlast := hendB.mp rfl
    have hmore : s.requester.round ≠ cfg.rounds := fun hr => by cases hendA.mpr hr
    rw [hasleepA hmemA rfl] at hresp
    change s.responder.round + 0 = s.requester.round + 0 + 0 at hresp
    omega
  · -- one token is under way, in one of the two mailboxes
    rw [hasleepA hmemA rfl] at hresp
    rw [hasleepB hmemB rfl] at hreq
    change s.responder.round + 0 = s.requester.round + 0 + 0 at hresp
    change s.requester.round + 1 + 0 = s.responder.round + 0 + 0 + 0 at hreq
    omega

section Work

/-- The accesses left of a call of `send`; to notify may cost the other side two. -/
def sendCost : SendPc → Nat
  | .locking => 7
  | .filling => 6
  | .publishing => 5
  | .unlocking => 4
  | .notifying => 3

/-- The most accesses left of a call of `recv`, unless it is woken up for no reason. -/
def recvCost (asleep : Bool) : RecvPc → Nat
  | .spinning n => 5 + 4 * (SPIN_BUDGET - n)
  | .locking (.fast n) => 4 + 4 * (SPIN_BUDGET - n)
  | .locking .slow => 4
  | .taking (.fast n) => 3 + 4 * (SPIN_BUDGET - n)
  | .taking .slow => 3
  | .retrying n => 2 + 4 * (SPIN_BUDGET - n)
  | .waiting => if asleep then 2 else 4
  | .clearing _ => 2
  | .unlocking _ => 1

/-- A whole round trip of one thread. -/
def ROUND_COST : Nat := recvCost false (.spinning 0) + sendCost .locking

def Mailbox.sleeps (m : Mailbox) (me : Side) : Bool := decide (me ∈ m.parked)

/-- Whether an access woke somebody up, or may have. -/
def stirred (m m' : Mailbox) : Nat := if m'.parked = m.parked then 0 else 2

theorem recvCost_stirred (m m' : Mailbox) (me : Side) (p : RecvPc) :
    recvCost (m'.sleeps me) p ≤ recvCost (m.sleeps me) p + stirred m m' := by
  rw [stirred]
  split
  · next hsame =>
    rw [Mailbox.sleeps, Mailbox.sleeps, hsame]
    exact Nat.le_refl _
  · cases p with
    | waiting =>
      simp only [recvCost]
      split <;> split <;> decide
    | locking path | taking path => cases path <;> exact Nat.le_add_right _ _
    | spinning n | retrying n | clearing v | unlocking v => exact Nat.le_add_right _ _

theorem send_cost {v : Nat} {p : SendPc} {p' : Option SendPc}
    (e : m.send me v p = some (m', p')) : p'.elim 0 sendCost + stirred m m' < sendCost p := by
  cases p with
  | locking =>
    simp only [Mailbox.send, Option.map_eq_some_iff, Mailbox.lock_eq_some] at e
    obtain ⟨_, ⟨-, rfl⟩, e⟩ := e
    cases e
    simp [stirred, sendCost]
  | filling | publishing | unlocking =>
    cases e
    simp [stirred, sendCost, Mailbox.unlock]
  | notifying =>
    cases e
    simp only [stirred, sendCost, Option.elim]
    split <;> decide

theorem recv_cost {p : RecvPc} {r : RecvPc ⊕ Nat} (htries : triesOf (some p) < SPIN_BUDGET)
    (e : m.recv me p = some (m', r)) :
    r.elim (recvCost (m'.sleeps me)) (fun _ => 0) < recvCost (m.sleeps me) p := by
  cases p with
  | spinning n =>
    simp only [Mailbox.recv] at e
    split at e
    · next hn =>
      cases e
      split <;> simp only [Sum.elim_inl, recvCost] <;> omega
    · cases e
      simp only [Sum.elim_inl, recvCost]
      omega
  | locking path =>
    simp only [Mailbox.recv, Option.map_eq_some_iff, Mailbox.lock_eq_some] at e
    obtain ⟨_, ⟨-, rfl⟩, e⟩ := e
    cases e
    cases path <;> simp only [Sum.elim_inl, recvCost] <;> omega
  | taking path =>
    cases hslot : m.slot with
    | some v =>
      simp only [Mailbox.recv, hslot] at e
      cases e
      cases path <;> simp only [Sum.elim_inl, recvCost] <;> omega
    | none =>
      cases path with
      | fast n =>
        simp only [Mailbox.recv, hslot] at e
        cases e
        simp only [Sum.elim_inl, recvCost]
        omega
      | slow =>
        simp only [Mailbox.recv, hslot] at e
        cases e
        simp [recvCost, Mailbox.sleeps]
  | retrying n =>
    cases e
    simp only [triesOf] at htries
    simp only [Sum.elim_inl, recvCost]
    omega
  | waiting =>
    simp only [Mailbox.recv] at e
    split at e
    · cases e
    · next hwoken =>
      simp only [Option.map_eq_some_iff, Mailbox.lock_eq_some] at e
      obtain ⟨_, ⟨-, rfl⟩, e⟩ := e
      cases e
      simp [recvCost, Mailbox.sleeps, hwoken]
  | clearing v | unlocking v =>
    cases e
    simp [recvCost]

/-- The accesses left of the iterations to come. -/
def Thread.later (cfg : Config) (t : Thread) : Nat := (cfg.rounds - t.round - 1) * ROUND_COST

def Thread.requesterWork (cfg : Config) (asleep : Bool) (t : Thread) : Nat :=
  match t.pc with
  | .sending _ p => t.later cfg + (recvCost false (.spinning 0) + sendCost p)
  | .receiving p => t.later cfg + recvCost asleep p
  | .finished => 0

def Thread.responderWork (cfg : Config) (asleep : Bool) (t : Thread) : Nat :=
  match t.pc with
  | .receiving p => t.later cfg + (sendCost .locking + recvCost asleep p)
  | .sending _ p => t.later cfg + sendCost p
  | .finished => 0

/-- The most accesses that the two threads have left. -/
def World.work (cfg : Config) (s : World) : Nat :=
  s.requester.requesterWork cfg (s.resp.sleeps .requester) +
    s.responder.responderWork cfg (s.req.sleeps .responder)

theorem requesterWork_stirred (cfg : Config) (m m' : Mailbox) (me : Side) (t : Thread) :
    t.requesterWork cfg (m'.sleeps me) ≤ t.requesterWork cfg (m.sleeps me) + stirred m m' := by
  unfold Thread.requesterWork
  split
  · omega
  · next p _ =>
    have hcost := recvCost_stirred m m' me p
    omega
  · omega

theorem responderWork_stirred (cfg : Config) (m m' : Mailbox) (me : Side) (t : Thread) :
    t.responderWork cfg (m'.sleeps me) ≤ t.responderWork cfg (m.sleeps me) + stirred m m' := by
  unfold Thread.responderWork
  split
  · next p _ =>
    have hcost := recvCost_stirred m m' me p
    omega
  · omega
  · omega

/-- A whole iteration is left for each round that is left. -/
theorem later_eq {pc : Pc} {round : Nat} {got : List Nat} (hlt : round < cfg.rounds) :
    Thread.later cfg ⟨pc, round, got⟩ + ROUND_COST = (cfg.rounds - round) * ROUND_COST := by
  rw [Thread.later, ← Nat.succ_mul]
  congr 1
  dsimp only
  omega

theorem request_work (asleep : Bool) (round : Nat) (got : List Nat) :
    Thread.requesterWork cfg asleep ⟨cfg.request round, round, got⟩ =
      (cfg.rounds - round) * ROUND_COST := by
  rw [Config.request]
  split
  · next hlt => rw [← later_eq hlt, ROUND_COST]; rfl
  · next hge =>
    rw [Nat.sub_eq_zero_of_le (Nat.le_of_not_lt hge), Nat.zero_mul]
    rfl

theorem await_work (asleep : Bool) (round : Nat) (got : List Nat) :
    Thread.responderWork cfg asleep ⟨cfg.await round, round, got⟩ =
      (cfg.rounds - round) * ROUND_COST := by
  rw [Config.await]
  split
  · next hlt =>
    rw [← later_eq hlt, ROUND_COST, Nat.add_comm (recvCost _ _)]
    rfl
  · next hge =>
    rw [Nat.sub_eq_zero_of_le (Nat.le_of_not_lt hge), Nat.zero_mul]
    rfl

theorem measured_work (h : s.Ok cfg) (e : cfg.measured s = some s') :
    s'.work cfg < s.work cfg := by
  obtain ⟨req, resp, ⟨pc, round, got⟩, responder⟩ := s
  cases pc with
  | sending v p =>
    obtain ⟨⟨req', p'⟩, hsend, rfl⟩ := Option.map_eq_some_iff.mp e
    have hcost := send_cost hsend
    have hother := responderWork_stirred cfg req req' .responder responder
    cases p' with
    | some p' =>
      simp only [World.work, Thread.requesterWork, Thread.later, Option.elim] at *
      omega
    | none =>
      simp only [World.work, Thread.requesterWork, Thread.later, Option.elim, recvCost] at *
      omega
  | receiving p =>
    obtain ⟨⟨resp', r⟩, hrecv, rfl⟩ := Option.map_eq_some_iff.mp e
    have hcost := recv_cost h.resp.tries hrecv
    cases r with
    | inl p' =>
      simp only [World.work, Thread.requesterWork, Thread.later, Sum.elim_inl] at *
      omega
    | inr v =>
      simp only [World.work, request_work]
      simp only [Thread.requesterWork, Thread.later, Sum.elim_inr, Nat.sub_add_eq] at *
      omega
  | finished => cases e

theorem respond_work (h : s.Ok cfg) (e : cfg.respond s = some s') :
    s'.work cfg < s.work cfg := by
  obtain ⟨req, resp, requester, ⟨pc, round, got⟩⟩ := s
  cases pc with
  | sending v p =>
    obtain ⟨⟨resp', p'⟩, hsend, rfl⟩ := Option.map_eq_some_iff.mp e
    have hcost := send_cost hsend
    have hother := requesterWork_stirred cfg resp resp' .requester requester
    cases p' with
    | some p' =>
      simp only [World.work, Thread.responderWork, Thread.later, Option.elim] at *
      omega
    | none =>
      simp only [World.work, await_work]
      simp only [Thread.responderWork, Thread.later, Option.elim, Nat.sub_add_eq] at *
      omega
  | receiving p =>
    obtain ⟨⟨req', r⟩, hrecv, rfl⟩ := Option.map_eq_some_iff.mp e
    have hcost := recv_cost h.req.tries hrecv
    cases r with
    | inl p' =>
      simp only [World.work, Thread.responderWork, Thread.later, Sum.elim_inl] at *
      omega
    | inr v =>
      simp only [World.work, Thread.responderWork, Thread.later, Sum.elim_inr] at *
      omega
  | finished => cases e

theorem stirred_le (m m' : Mailbox) : stirred m m' ≤ 2 := by
  rw [stirred]
  split <;> decide

theorem World.work_resp (s : World) (resp : Mailbox) :
    World.work cfg { s with resp } ≤ s.work cfg + 2 := by
  have hwork := requesterWork_stirred cfg s.resp resp .requester s.requester
  have htwo := stirred_le s.resp resp
  simp only [World.work]
  omega

theorem World.work_req (s : World) (req : Mailbox) :
    World.work cfg { s with req } ≤ s.work cfg + 2 := by
  have hwork := responderWork_stirred cfg s.req req .responder s.responder
  have htwo := stirred_le s.req req
  simp only [World.work]
  omega

/-- A wake-up for no reason costs two accesses at most. -/
theorem wake_work {side : Side} (e : step cfg (.wake side) s = some s') :
    s'.work cfg ≤ s.work cfg + 2 := by
  cases side with
  | requester =>
    simp only [step, Option.ite_none_right_eq_some, Option.some.injEq] at e
    obtain ⟨-, rfl⟩ := e
    exact s.work_resp _
  | responder =>
    simp only [step, Option.ite_none_right_eq_some, Option.some.injEq] at e
    obtain ⟨-, rfl⟩ := e
    exact s.work_req _

end Work

def Turn.isRun : Turn → Bool
  | .run _ => true
  | .wake _ => false

/-- Every access of a thread leaves less work. -/
theorem run_work {turn : Turn} (h : s.Ok cfg) (hrun : turn.isRun = true)
    (e : step cfg turn s = some s') : s'.work cfg < s.work cfg := by
  cases turn with
  | run side =>
    cases side with
    | requester => exact measured_work h e
    | responder => exact respond_work h e
  | wake side => cases hrun

theorem wakes_work {turn : Turn} (hwake : turn.isRun = false) (e : step cfg turn s = some s') :
    s'.work cfg ≤ s.work cfg + 2 := by
  cases turn with
  | run side => cases hwake
  | wake side => exact wake_work e

/-- What `recv` returned, and the token it has taken and is to return. -/
def Thread.received (t : Thread) : List Nat := t.got ++ (handOf (recvAt t.pc)).toList

/-- How many requests have been written, and how many replies. -/
def Thread.asked (t : Thread) : Nat := t.round + t.pc.receives + putOf (sendAt t.pc)

def Thread.replied (t : Thread) : Nat := t.round + putOf (sendAt t.pc)

/-- No token is lost, repeated or overwritten, and the flag says whether the slot is
full, but between the two writes of the one who holds the lock. -/
structure World.Sound (cfg : Config) (s : World) : Prop where
  requests : s.responder.received ++ s.req.slot.toList =
    (List.range s.requester.asked).map cfg.token
  replies : s.requester.received ++ s.resp.slot.toList =
    (List.range s.responder.replied).map cfg.token
  reqEmpty : ∀ v, s.requester.pc = .sending v .filling → s.req.slot = none
  respEmpty : ∀ v, s.responder.pc = .sending v .filling → s.resp.slot = none
  reqFree : s.req.owner = none → s.req.full = s.req.slot.isSome
  respFree : s.resp.owner = none → s.resp.full = s.resp.slot.isSome
  reqHeld : publishes (sendAt s.requester.pc) = false → clears (recvAt s.responder.pc) = false →
    s.req.full = s.req.slot.isSome
  respHeld : publishes (sendAt s.responder.pc) = false → clears (recvAt s.requester.pc) = false →
    s.resp.full = s.resp.slot.isSome

section Tokens

variable {token : Nat → Nat} {snd : Option SendPc} {rcv : Option RecvPc} {sender receiver : Side}
  {sent got : Nat}

theorem toList_handOf (hhand : ∀ v, handOf rcv = some v → v = token got) :
    (List.range got).map token ++ (handOf rcv).toList =
      (List.range (got + tookOf rcv)).map token := by
  unfold handOf tookOf at *
  split
  · next v => rw [range_map_succ, hhand v rfl, Option.toList_some]
  · next v => rw [range_map_succ, hhand v rfl, Option.toList_some]
  · exact List.append_nil _

/-- What was put into a mailbox has come out of it or is in the slot. -/
theorem Mailbox.Ok.tokens (h : m.Ok token sender receiver snd rcv sent got) :
    (List.range got).map token ++ (handOf rcv).toList ++ m.slot.toList =
      (List.range (sent + putOf snd)).map token := by
  rw [toList_handOf h.hand, h.count]
  cases hslot : m.slot with
  | none => exact List.append_nil _
  | some v =>
    rw [h.slot v hslot]
    exact (range_map_succ token _).symm

theorem Mailbox.Ok.settled_free (h : m.Ok token sender receiver snd rcv sent got)
    (hfree : m.owner = none) : m.full = m.slot.isSome := by
  obtain ⟨hsend, hrecv⟩ := h.free hfree
  refine h.settled (Bool.eq_false_iff.mpr fun hpub => ?_) (Bool.eq_false_iff.mpr fun hclear => ?_)
  · rw [sendHolds_of_publishes hpub] at hsend
    cases hsend
  · rw [recvHolds_of_clears hclear] at hrecv
    cases hrecv

end Tokens

theorem World.Ok.sound (h : s.Ok cfg) : s.Sound cfg where
  requests := by
    rw [Thread.received, h.responder.got]
    exact h.req.tokens
  replies := by
    rw [Thread.received, h.requester.got]
    exact h.resp.tokens
  reqEmpty v := h.req_empty
  respEmpty v := h.resp_empty
  reqFree := h.req.settled_free
  respFree := h.resp.settled_free
  reqHeld := h.req.settled
  respHeld := h.resp.settled

/-- When both are done every token has gone there and back. -/
theorem World.Ok.delivered (h : s.Ok cfg) (hdone : s.Finished) :
    s.requester.got = (List.range cfg.rounds).map cfg.token ∧
      s.responder.got = (List.range cfg.rounds).map cfg.token := by
  obtain ⟨hA, hB⟩ := hdone
  refine ⟨?_, ?_⟩
  · rw [h.requester.got, h.requester.ends.mp hA]
  · rw [h.responder.got, h.responder.ends.mp hB, hB]
    rfl

/-- The rendezvous, under every interleaving and any number of wake-ups for no
reason: the tokens arrive, one thread can always go on until both are done, and
every run can be completed. -/
theorem rendezvous (h : Reachable cfg s) :
    s.Sound cfg ∧ (¬ s.Finished → ∃ side s', step cfg (.run side) s = some s') ∧
    (∃ turns s', (∀ turn ∈ turns, turn.isRun = true) ∧ Turns.run (step cfg) turns s = some s' ∧
      s'.Finished ∧ s'.requester.got = (List.range cfg.rounds).map cfg.token ∧
      s'.responder.got = (List.range cfg.rounds).map cfg.token) ∧
    ∀ turns s', Turns.run (step cfg) turns s = some s' →
      turns.countP Turn.isRun ≤ s.work cfg + 2 * turns.countP (fun turn => !turn.isRun) := by
  have hok := h.ok
  have hkeeps : ∀ turn (s s' : World), s.Ok cfg → step cfg turn s = some s' → s'.Ok cfg :=
    fun turn s s' => step_ok
  have hown : ∀ (turn : Turn) (s s' : World), s.Ok cfg → turn.isRun = true →
    step cfg turn s = some s' → s'.work cfg < s.work cfg := fun turn s s' => run_work
  obtain ⟨turns, s', hturns, hrun, hok', hdone⟩ :=
    Turns.completes hkeeps hown (fun s h hopen => by
      obtain ⟨side, s', e⟩ := World.Ok.moves h hopen
      exact ⟨.run side, s', rfl, e⟩) hok
  refine ⟨hok.sound, hok.moves, ⟨turns, s', hturns, hrun, hdone, hok'.delivered hdone⟩, ?_⟩
  intro turns s' e
  have hbound := Turns.bounded hkeeps hown (fun turn s s' _ => wakes_work) hok e
  omega

/-- One round trip, of the token 1. -/
def oneRound : Config := ⟨1, fun _ => 1⟩

theorem rendezvous_oneRound :
    ∃ turns s', Turns.run (step oneRound) turns oneRound.start = some s' ∧ s'.requester.got = [1] := by
  obtain ⟨turns, s', -, hrun, -, hgot, -⟩ := (rendezvous (Reachable.start : Reachable oneRound _)).2.2.1
  exact ⟨turns, s', hrun, hgot⟩

/-- Between its two writes the sender holds the lock of a full slot whose flag is down. -/
theorem flag_behind : ∃ s, Reachable oneRound s ∧ s.req.owner = some .requester ∧
    s.req.slot = some 1 ∧ s.req.full = false :=
  ⟨_, .next (.next .start (show step oneRound (.run .requester) _ = some _ from rfl))
    (show step oneRound (.run .requester) _ = some _ from rfl), rfl, rfl, rfl⟩

end HiPerf.Condvar
