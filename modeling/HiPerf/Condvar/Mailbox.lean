import HiPerf.Condvar.Model

/-!
One mailbox between a thread that sends into it and one that receives from it:
what each access keeps, and why a sleeping receiver is woken.
-/

namespace HiPerf.Condvar

/-- What the next access of a thread says about it, where it is at the mailbox at all. -/
def sendHolds : Option SendPc → Bool
  | some .filling | some .publishing | some .unlocking => true
  | _ => false

def recvHolds : Option RecvPc → Bool
  | some (.taking _) | some (.retrying _) | some (.clearing _) | some (.unlocking _) => true
  | _ => false

/-- The slot is written and the flag is not. -/
def publishes : Option SendPc → Bool
  | some .publishing => true
  | _ => false

def clears : Option RecvPc → Bool
  | some (.clearing _) => true
  | _ => false

/-- The token is in the slot, and the notification is still to come. -/
def announces : Option SendPc → Bool
  | some .publishing | some .unlocking | some .notifying => true
  | _ => false

def waits : Option RecvPc → Bool
  | some .waiting => true
  | _ => false

/-- How often `recv` has looked, on its fast path. -/
def triesOf : Option RecvPc → Nat
  | some (.locking (.fast n)) | some (.taking (.fast n)) | some (.retrying n) => n
  | _ => 0

/-- The token that `recv` has in its hands. -/
def handOf : Option RecvPc → Option Nat
  | some (.clearing v) | some (.unlocking v) => some v
  | _ => none

/-- The tokens of calls that have not returned: put into the slot, taken out of it. -/
def putOf : Option SendPc → Nat
  | some .publishing | some .unlocking | some .notifying => 1
  | _ => 0

def tookOf : Option RecvPc → Nat
  | some (.clearing _) | some (.unlocking _) => 1
  | _ => 0

variable {token : Nat → Nat} {sender receiver : Side} {m m' : Mailbox} {snd : Option SendPc}
  {rcv : Option RecvPc} {sent got : Nat}

/-- A mailbox with the accesses that are next at its two ends, after `sent` calls of
`send` and `got` calls of `recv` that have returned. -/
structure Mailbox.Ok (token : Nat → Nat) (sender receiver : Side) (m : Mailbox)
    (snd : Option SendPc) (rcv : Option RecvPc) (sent got : Nat) : Prop where
  apart : sender ≠ receiver
  sends : m.owner = some sender ↔ sendHolds snd
  receives : m.owner = some receiver ↔ recvHolds rcv
  published : publishes snd → m.full = false ∧ m.slot.isSome
  cleared : clears rcv → m.full ∧ m.slot = none
  settled : publishes snd = false → clears rcv = false → m.full = m.slot.isSome
  count : sent + putOf snd = got + tookOf rcv + m.slot.toList.length
  slot : ∀ v, m.slot = some v → v = token (got + tookOf rcv)
  parked : m.parked = [] ∨
    m.parked = [receiver] ∧ waits rcv ∧ (m.slot.isSome → announces snd)
  tries : triesOf rcv < SPIN_BUDGET
  hand : ∀ v, handOf rcv = some v → v = token got

theorem sendHolds_of_publishes (h : publishes snd = true) : sendHolds snd = true := by
  unfold publishes at h
  split at h
  · rfl
  · cases h

theorem recvHolds_of_clears (h : clears rcv = true) : recvHolds rcv = true := by
  unfold clears at h
  split at h
  · rfl
  · cases h

theorem budget_pos : 0 < SPIN_BUDGET := by decide

/-- Whoever takes the lock finds it free. -/
theorem Mailbox.lock_eq_some {me : Side} :
    m.lock me = some m' ↔ m.owner = none ∧ m' = { m with owner := some me } := by
  unfold Mailbox.lock
  split <;> simp_all [eq_comm]

namespace Mailbox.Ok

variable (h : m.Ok token sender receiver snd rcv sent got)

include h

/-- Nobody holds a free lock. -/
theorem free (hfree : m.owner = none) : sendHolds snd = false ∧ recvHolds rcv = false := by
  constructor
  · rw [← Bool.not_eq_true, ← h.sends, hfree]
    nofun
  · rw [← Bool.not_eq_true, ← h.receives, hfree]
    nofun

/-- Only one of the two is between lock and unlock. -/
theorem alone (hsend : sendHolds snd = true) : recvHolds rcv = false := by
  rw [← Bool.not_eq_true, ← h.receives, h.sends.mpr hsend]
  exact fun e => h.apart (Option.some.inj e)

theorem publishes_of_holds (hrecv : recvHolds rcv = true) : publishes snd = false := by
  by_contra hpub
  rw [Bool.not_eq_false] at hpub
  rw [h.alone (sendHolds_of_publishes hpub)] at hrecv
  cases hrecv

theorem clears_of_holds (hsend : sendHolds snd = true) : clears rcv = false := by
  by_contra hclear
  rw [Bool.not_eq_false] at hclear
  have hrecv := recvHolds_of_clears hclear
  rw [h.alone hsend] at hrecv
  cases hrecv

/-- A receiver that is not asleep leaves nobody to notify. -/
theorem awake (hwaits : waits rcv = false) : m.parked = [] := by
  obtain hnil | ⟨-, hwait, -⟩ := h.parked
  · exact hnil
  · rw [hwaits] at hwait
    cases hwait

omit h

/-- An access of the sender, which finds the slot empty where it fills it. -/
theorem send {p : SendPc} {p' : Option SendPc} (h : m.Ok token sender receiver (some p) rcv sent got)
    {v : Nat} (hfill : p = .filling → m.slot = none ∧ v = token sent)
    (e : m.send sender v p = some (m', p')) :
    m'.Ok token sender receiver p' rcv (if p'.isNone then sent + 1 else sent) got := by
  cases p with
  | locking =>
    simp only [Mailbox.send, Option.map_eq_some_iff, Mailbox.lock_eq_some] at e
    obtain ⟨_, ⟨hfree, rfl⟩, e⟩ := e
    cases e
    obtain ⟨-, hrecv⟩ := h.free hfree
    exact { h with
      sends := by simp [sendHolds]
      receives := by simp [hrecv, h.apart]
      published := nofun
      settled := fun _ => h.settled rfl
      parked := h.parked }
  | filling =>
    cases e
    obtain ⟨hnone, rfl⟩ := hfill rfl
    have hrecv := h.alone rfl
    have hcount := h.count
    rw [hnone] at hcount
    have hfull : m.full = false := by rw [h.settled rfl (h.clears_of_holds rfl), hnone]; rfl
    exact { h with
      sends := h.sends
      published := fun _ => ⟨hfull, rfl⟩
      cleared := fun hc => absurd (recvHolds_of_clears hc) (by simp [hrecv])
      settled := nofun
      count := congrArg (· + 1) hcount
      slot := fun v hv => by rw [← Option.some.inj hv]; exact congrArg token hcount
      parked := h.parked.imp_right fun ⟨hone, hwait, _⟩ => ⟨hone, hwait, fun _ => rfl⟩ }
  | publishing =>
    cases e
    obtain ⟨-, hslot⟩ := h.published rfl
    have hrecv := h.alone rfl
    exact { h with
      sends := h.sends
      published := nofun
      cleared := fun hc => absurd (recvHolds_of_clears hc) (by simp [hrecv])
      settled := fun _ _ => hslot.symm
      parked := h.parked }
  | unlocking =>
    cases e
    have hrecv := h.alone rfl
    exact { h with
      sends := by simp [sendHolds, Mailbox.unlock]
      receives := by simp [hrecv, Mailbox.unlock]
      published := nofun
      settled := fun _ => h.settled rfl
      parked := h.parked }
  | notifying =>
    cases e
    exact { h with
      sends := h.sends
      published := nofun
      settled := fun _ => h.settled rfl
      parked := by
        obtain hnil | ⟨hone, -, -⟩ := h.parked
        · exact .inl (by rw [hnil]; rfl)
        · exact .inl (by rw [hone]; rfl) }

/-- Where the receiver comes to without touching the slot, its flag or its tokens. -/
theorem looks {p : Option RecvPc} (h : m.Ok token sender receiver snd rcv sent got)
    (hfull : m'.full = m.full) (hslot : m'.slot = m.slot)
    (hsends : m'.owner = some sender ↔ m.owner = some sender)
    (hreceives : m'.owner = some receiver ↔ recvHolds p = true)
    (hclears : clears rcv = clears p) (htook : tookOf rcv = tookOf p)
    (hparked : m'.parked = [] ∨
      m'.parked = [receiver] ∧ waits p = true ∧ (m.slot.isSome → announces snd))
    (htries : triesOf p < SPIN_BUDGET) (hhand : ∀ v, handOf p = some v → handOf rcv = some v) :
    m'.Ok token sender receiver snd p sent got where
  apart := h.apart
  sends := hsends.trans h.sends
  receives := hreceives
  published := by rw [hfull, hslot]; exact h.published
  cleared := by rw [hfull, hslot, ← hclears]; exact h.cleared
  settled := by rw [hfull, hslot, ← hclears]; exact h.settled
  count := by rw [hslot, ← htook]; exact h.count
  slot := by rw [hslot, ← htook]; exact h.slot
  parked := by rw [hslot]; exact hparked
  tries := htries
  hand v hv := h.hand v (hhand v hv)

/-- The receiver, awake, gets the lock that it finds free. -/
theorem locks {path : Path} (h : m.Ok token sender receiver snd rcv sent got)
    (hfree : m.owner = none) (hnil : m.parked = []) (hclears : clears rcv = false)
    (htook : tookOf rcv = 0) (htries : triesOf (some (.taking path)) < SPIN_BUDGET) :
    { m with owner := some receiver }.Ok token sender receiver snd (some (.taking path)) sent
      got := by
  refine h.looks rfl rfl ?_ ?_ hclears htook (.inl hnil) htries nofun
  · simp [hfree, h.apart.symm]
  · simp [recvHolds]

/-- The lock that the receiver gives back was not the sender's. -/
theorem unlock_owner (h : m.Ok token sender receiver snd rcv sent got)
    (hholds : recvHolds rcv = true) : m.unlock.owner = some sender ↔ m.owner = some sender := by
  have howner : m.owner = some receiver := h.receives.mpr hholds
  simp [Mailbox.unlock, howner, h.apart.symm]

theorem spin {n : Nat} {r : RecvPc ⊕ Nat}
    (h : m.Ok token sender receiver snd (some (.spinning n)) sent got)
    (e : m.recv receiver (.spinning n) = some (m', r)) :
    ∃ p, r = .inl p ∧ m'.Ok token sender receiver snd (some p) sent got := by
  have hnil := h.awake rfl
  simp only [Mailbox.recv] at e
  split at e
  · next hn =>
    cases e
    refine ⟨_, rfl, ?_⟩
    split
    · exact h.looks rfl rfl Iff.rfl h.receives rfl rfl (.inl hnil) hn nofun
    · exact h.looks rfl rfl Iff.rfl h.receives rfl rfl (.inl hnil) budget_pos nofun
  · cases e
    exact ⟨_, rfl, h.looks rfl rfl Iff.rfl h.receives rfl rfl (.inl hnil) budget_pos nofun⟩

/-- The token leaves the slot, and the flag is still to be lowered. -/
theorem empty {path : Path} {v : Nat}
    (h : m.Ok token sender receiver snd (some (.taking path)) sent got) (hslot : m.slot = some v) :
    { m with slot := none }.Ok token sender receiver snd (some (.clearing v)) sent got := by
  have hpub := h.publishes_of_holds rfl
  have hfull : m.full = true := by rw [h.settled hpub rfl, hslot]; rfl
  have hcount := h.count
  rw [hslot] at hcount
  exact { h with
    receives := h.receives
    published := fun hp => by rw [hpub] at hp; cases hp
    cleared := fun _ => ⟨hfull, rfl⟩
    settled := nofun
    count := hcount
    slot := nofun
    parked := .inl (h.awake rfl)
    tries := budget_pos
    hand := fun w hw => Option.some.inj hw ▸ h.slot v hslot }

theorem take {path : Path} {r : RecvPc ⊕ Nat}
    (h : m.Ok token sender receiver snd (some (.taking path)) sent got)
    (e : m.recv receiver (.taking path) = some (m', r)) :
    ∃ p, r = .inl p ∧ m'.Ok token sender receiver snd (some p) sent got := by
  have hnil := h.awake rfl
  cases hslot : m.slot with
  | some v =>
    simp only [Mailbox.recv, hslot] at e
    cases e
    exact ⟨_, rfl, h.empty hslot⟩
  | none =>
    cases path with
    | fast n =>
      simp only [Mailbox.recv, hslot] at e
      cases e
      exact ⟨_, rfl, h.looks rfl rfl Iff.rfl h.receives rfl rfl (.inl hnil) h.tries nofun⟩
    | slow =>
      -- it falls asleep with the lock given back, and nothing is in the slot
      simp only [Mailbox.recv, hslot] at e
      cases e
      refine ⟨_, rfl, h.looks rfl rfl (h.unlock_owner rfl) ?_ rfl rfl (.inr ⟨?_, rfl, ?_⟩)
        budget_pos nofun⟩
      · simp [Mailbox.unlock, recvHolds]
      · rw [hnil]
        rfl
      · rw [hslot]
        nofun

theorem clear {v : Nat} (h : m.Ok token sender receiver snd (some (.clearing v)) sent got) :
    { m with full := false }.Ok token sender receiver snd (some (.unlocking v)) sent got := by
  obtain ⟨-, hslot⟩ := h.cleared rfl
  have hpub := h.publishes_of_holds rfl
  exact { h with
    receives := h.receives
    published := fun hp => by rw [hpub] at hp; cases hp
    cleared := nofun
    settled := fun _ _ => by rw [hslot]; rfl
    parked := .inl (h.awake rfl)
    tries := budget_pos
    hand := h.hand }

/-- The receiver returns with the token that it took. -/
theorem leave {v : Nat} (h : m.Ok token sender receiver snd (some (.unlocking v)) sent got) :
    m.unlock.Ok token sender receiver snd none sent (got + 1) :=
  { h with
    sends := (h.unlock_owner rfl).trans h.sends
    receives := by simp [Mailbox.unlock, recvHolds]
    cleared := nofun
    settled := fun hpub _ => h.settled hpub rfl
    parked := .inl (h.awake rfl)
    tries := budget_pos
    hand := nofun }

/-- An access of the receiver. -/
theorem recv {p : RecvPc} {r : RecvPc ⊕ Nat}
    (h : m.Ok token sender receiver snd (some p) sent got)
    (e : m.recv receiver p = some (m', r)) :
    m'.Ok token sender receiver snd r.getLeft? sent (if r.isRight then got + 1 else got) ∧
      ∀ v, r = .inr v → handOf (some p) = some v := by
  cases p with
  | spinning n =>
    obtain ⟨p', rfl, h'⟩ := h.spin e
    exact ⟨h', nofun⟩
  | locking path =>
    simp only [Mailbox.recv, Option.map_eq_some_iff, Mailbox.lock_eq_some] at e
    obtain ⟨_, ⟨hfree, rfl⟩, e⟩ := e
    cases e
    have htries := h.tries
    refine ⟨h.locks hfree (h.awake rfl) rfl rfl ?_, nofun⟩
    cases path with
    | fast n => exact htries
    | slow => exact budget_pos
  | taking path =>
    obtain ⟨p', rfl, h'⟩ := h.take e
    exact ⟨h', nofun⟩
  | retrying n =>
    cases e
    refine ⟨h.looks rfl rfl (h.unlock_owner rfl) ?_ rfl rfl (.inl (h.awake rfl)) budget_pos nofun, nofun⟩
    simp [Mailbox.unlock, recvHolds]
  | waiting =>
    simp only [Mailbox.recv] at e
    split at e
    · cases e
    · next hwoken =>
      simp only [Option.map_eq_some_iff, Mailbox.lock_eq_some] at e
      obtain ⟨_, ⟨hfree, rfl⟩, e⟩ := e
      cases e
      have hnil : m.parked = [] := by
        obtain hnil | ⟨hone, -, -⟩ := h.parked
        · exact hnil
        · exact absurd (hone ▸ List.mem_singleton_self receiver) hwoken
      exact ⟨h.locks hfree hnil rfl rfl budget_pos, nofun⟩
  | clearing v =>
    cases e
    exact ⟨h.clear, nofun⟩
  | unlocking v =>
    cases e
    refine ⟨h.leave, ?_⟩
    rintro w hw
    cases hw
    rfl

/-- A sender comes to the mailbox. -/
theorem approach (h : m.Ok token sender receiver none rcv sent got) :
    m.Ok token sender receiver (some .locking) rcv sent got :=
  { h with
    sends := h.sends
    published := nofun
    settled := fun _ => h.settled rfl
    parked := h.parked }

/-- A receiver comes to the mailbox. -/
theorem listen (h : m.Ok token sender receiver snd none sent got) :
    m.Ok token sender receiver snd (some (.spinning 0)) sent got :=
  h.looks rfl rfl Iff.rfl h.receives rfl rfl (.inl (h.awake rfl)) h.tries nofun

/-- The receiver wakes up for no reason. -/
theorem wake (h : m.Ok token sender receiver snd rcv sent got) :
    { m with parked := m.parked.erase receiver }.Ok token sender receiver snd rcv sent got := by
  refine h.looks rfl rfl Iff.rfl h.receives rfl rfl (.inl ?_) h.tries fun _ hv => hv
  obtain hnil | ⟨hone, -, -⟩ := h.parked
  · simp [hnil]
  · simp [hone]

end Mailbox.Ok

end HiPerf.Condvar
