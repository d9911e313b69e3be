import HiPerf.Live.Model

/-!
The hand-off between the writer and the serializer: one root at a time is under
way, each is encoded once and in order with the book of its capture, and every
index at which a snapshot is due was taken or skipped.
-/

namespace HiPerf.Live

open Machine Exec

variable {live : Live} {s s' : World} {calls : List CowCall} {m : Message} {mem : RootRead → Memory}
  {n : Nat}

namespace Writer

/-- The busy flag is set and the root is not sent yet. -/
def holds : Writer → Nat
  | .capturing _ | .sending .. => 1
  | _ => 0

def isStoring : Writer → Bool
  | .storing _ => true
  | _ => false

def isOver : Writer → Bool
  | .joining | .done => true
  | _ => false

/-- The instant of the snapshot that is to be sent. -/
def pending : Writer → List Nat
  | .storing k | .capturing k | .sending k _ => [k.getD 0]
  | _ => []

def message : Writer → List Message
  | .sending _ m => [m]
  | _ => []

/-- How many of the `n` indices are settled. -/
def passed (n : Nat) : Writer → Nat
  | .checking k => k
  | .storing none | .capturing none | .sending none _ | .spinning => 0
  | .storing (some k) | .capturing (some k) | .sending (some k) _ | .applying k => k + 1
  | .dropping | .joining | .done => n

/-- How many of the `n` ops are applied. -/
def applied (n : Nat) : Writer → Nat
  | .checking k | .storing (some k) | .capturing (some k) | .sending (some k) _ | .applying k => k
  | .storing none | .capturing none | .sending none _ | .spinning => 0
  | .dropping | .joining | .done => n

/-- How many captures there can have been. -/
def captured (n : Nat) : Writer → Nat
  | .checking k | .storing (some k) | .capturing (some k) => k + 1
  | .sending (some k) _ | .applying k => k + 2
  | .storing none | .capturing none => 0
  | .sending none _ | .spinning => 1
  | .dropping | .joining | .done => n + 1

/-- An iteration under way is one of the `n`. -/
def InRange (n : Nat) : Writer → Prop
  | .checking k => k ≤ n
  | .storing (some k) | .capturing (some k) | .sending (some k) _ | .applying k => k < n
  | _ => True

end Writer

namespace Serializer

def inHand : Serializer → List Nat
  | .encoding m _ | .panicked m => [m.t0]
  | _ => []

/-- The flag of a root that was taken out of the channel is not cleared yet. -/
def holds : Serializer → Nat
  | .encoding .. | .clearing | .panicked _ => 1
  | _ => 0

end Serializer

/-- A root of which some reads are made: it was captured when `t0` ops were applied,
the writer has since come to `book`, and each read found the memory of some time in
between. -/
def Caught (live : Live) (calls : List CowCall) (book : CowBook) (m : Message)
    (mem : RootRead → Memory) : Prop :=
  ∃ (pre later : List CowCall) (w w' : CowBook), calls = pre ++ .capture :: later ∧
    CowCall.ops pre = live.ops.take m.t0 ∧ CowBook.run pre live.book = .ok () w ∧
    CowBook.capture w = .ok m.root w' ∧ CowBook.run later w' = .ok () book ∧
    ∀ rd, ∃ n ≤ later.length, mem rd = w'.memAfter later n

/-- The image is that of the flat book after the ops before the capture. -/
def Snapshot.Exact (live : Live) (e : Snapshot) : Prop :=
  ∃ b buf, Book.run (live.before ++ live.ops.take e.t0) (Book.new live.cfg) = .ok () b ∧
    b.encode live.crc32c buf = .ok (e.buf, e.len)

theorem captures_append (xs ys : List CowCall) :
    CowCall.captures (xs ++ ys) = CowCall.captures xs + CowCall.captures ys := by
  induction xs with
  | nil => exact (Nat.zero_add _).symm
  | cons c xs ih =>
    cases c with
    | op o => exact ih
    | capture =>
      simp only [List.cons_append, CowCall.captures, ih]
      omega

theorem ops_append (xs ys : List CowCall) :
    CowCall.ops (xs ++ ys) = CowCall.ops xs ++ CowCall.ops ys := by
  induction xs with
  | nil => rfl
  | cons c xs ih =>
    cases c with
    | op o => exact congrArg (o :: ·) ih
    | capture => exact ih

theorem captures_ops (ops : List Op) : CowCall.captures (ops.map .op) = 0 := by
  induction ops with
  | nil => rfl
  | cons o ops ih => exact ih

theorem ops_ops (ops : List Op) : CowCall.ops (ops.map .op) = ops := by
  induction ops with
  | nil => rfl
  | cons o ops ih => exact congrArg (o :: ·) ih

theorem run_concat {c : CowCall} {w w' w'' : CowBook} (hrun : CowBook.run calls w = .ok () w')
    (hcall : CowBook.call c w' = .ok () w'') : CowBook.run (calls ++ [c]) w = .ok () w'' :=
  runAll_append_eq_ok.mpr ⟨w', hrun, runAll_cons_eq_ok.mpr ⟨w'', hcall, rfl⟩⟩

namespace Caught

variable {book book' : CowBook}

/-- A root that was captured just now. -/
theorem capture {root : Root} {t0 : Nat} (hops : CowCall.ops calls = live.ops.take t0)
    (hrun : CowBook.run calls live.book = .ok () book)
    (hcapture : CowBook.capture book = .ok root book') :
    Caught live (calls ++ [.capture]) book' ⟨root, t0⟩ fun _ => book'.mem :=
  ⟨calls, [], book, book', rfl, hops, hrun, hcapture, rfl, fun _ => ⟨0, Nat.le_refl _, rfl⟩⟩

/-- The writer goes on. -/
theorem call (h : Caught live calls book m mem) {c : CowCall}
    (hcall : CowBook.call c book = .ok () book') : Caught live (calls ++ [c]) book' m mem := by
  obtain ⟨pre, later, w, w', rfl, hops, hrun, hcapture, hlater, hmem⟩ := h
  refine ⟨pre, later ++ [c], w, w', by simp, hops, hrun, hcapture, run_concat hlater hcall,
    fun rd => ?_⟩
  obtain ⟨n, hn, hrd⟩ := hmem rd
  refine ⟨n, by rw [List.length_append]; omega, ?_⟩
  rw [hrd, CowBook.memAfter, CowBook.memAfter, List.take_append_of_le_length hn]

/-- More reads are made. -/
theorem reads (h : Caught live calls book m mem) (which : RootRead → Bool) :
    Caught live calls book m fun rd => if which rd then book.mem else mem rd := by
  obtain ⟨pre, later, w, w', hcalls, hops, hrun, hcapture, hlater, hmem⟩ := h
  refine ⟨pre, later, w, w', hcalls, hops, hrun, hcapture, hlater, fun rd => ?_⟩
  dsimp only
  split
  · exact ⟨later.length, Nat.le_refl _, by rw [CowBook.memAfter, List.take_length, last_ok hlater]⟩
  · exact hmem rd

/-- All reads are to be made. -/
theorem fresh (h : Caught live calls book m mem) : Caught live calls book m fun _ => book.mem :=
  h.reads fun _ => true

/-- Encoding the root gives the image of the flat book at its capture. -/
theorem image (h : Caught live calls book m mem)
    (hcaptures : CowCall.captures calls ≤ live.ops.length + 2) :
    ∃ b, Book.run (live.before ++ live.ops.take m.t0) (Book.new live.cfg) = .ok () b ∧
      ∀ buf, encodeRoot live.crc32c m.root mem buf = b.encode live.crc32c buf := by
  obtain ⟨pre, later, w, w', rfl, hops, hrun, hcapture, hlater, hmem⟩ := h
  obtain ⟨w₀, hnew, hbuilt⟩ := live.built
  have hsized := live.sized
  simp only [captures_append, CowCall.captures] at hcaptures
  have hbefore : CowBook.run (live.before.map .op ++ pre) w₀ = .ok () w :=
    runAll_append_eq_ok.mpr ⟨_, hbuilt, hrun⟩
  obtain ⟨b, hb, -, himage⟩ := @CowBook.captured_image live.cfg _ later _ _ _ _ live.chunked
    hnew hbefore hcapture (by rw [captures_append, captures_ops]; omega)
  choose position hposition using hmem
  have hreads : mem = fun rd => w'.memAfter later (position rd) := funext fun rd => (hposition rd).2
  refine ⟨b, ?_, fun buf => ?_⟩
  · rwa [ops_append, ops_ops, hops] at hb
  · rw [hreads, himage position]

end Caught

/-- What holds after the calls `calls` on the book. -/
structure Follows (live : Live) (calls : List CowCall) (s : World) : Prop where
  token : s.writer.holds + s.queue.length + s.serializer.holds = if s.busy then 1 else 0
  idle : s.writer.isStoring = true → s.busy = false
  shut : s.closed = true ↔ s.writer.isOver = true
  left : s.serializer = .exited → s.closed = true ∧ s.queue = []
  joined : s.writer = .done → s.serializer = .exited
  inRange : s.writer.InRange live.ops.length
  trace : CowBook.run calls live.book = .ok () s.book
  played : CowCall.ops calls = live.ops.take (s.writer.applied live.ops.length)
  captures : CowCall.captures calls ≤ s.writer.captured live.ops.length
  caught : ∀ m ∈ s.writer.message ++ s.queue, Caught live calls s.book m fun _ => s.book.mem
  stamped : ∀ m ∈ s.writer.message, s.writer.pending = [m.t0]
  reading : ∀ m mem, s.serializer = .encoding m mem → Caught live calls s.book m mem
  exact : ∀ e ∈ s.encoded, e.Exact live
  order : s.sent = s.encoded.map (·.t0) ++ s.serializer.inHand ++ s.queue.map (·.t0)
  settled : ∃ ks, s.sent ++ s.writer.pending = 0 :: ks ∧
    ks.Sublist (live.due (s.writer.passed live.ops.length)) ∧
    ks.length + s.skipped = (live.due (s.writer.passed live.ops.length)).length

theorem captured_le (w : Writer) (h : w.InRange n) : w.captured n ≤ n + 2 := by
  cases w with
  | storing k | capturing k | sending k =>
    cases k with
    | none => simp [Writer.captured]
    | some k => simp only [Writer.captured, Writer.InRange] at *; omega
  | checking k | applying k => simp only [Writer.captured, Writer.InRange] at *; omega
  | spinning | dropping | joining | done => simp [Writer.captured]

theorem start_follows : Follows live [] live.start where
  token := rfl
  idle _ := rfl
  shut := ⟨nofun, nofun⟩
  left := nofun
  joined := nofun
  inRange := trivial
  trace := rfl
  played := rfl
  captures := Nat.le_refl 0
  caught := nofun
  stamped := nofun
  reading := nofun
  exact := nofun
  order := rfl
  settled := ⟨[], rfl, List.Sublist.refl _, rfl⟩

theorem due_succ (k : Nat) : live.due (k + 1) =
    live.due k ++ if k % live.snapEvery = 0 then [k] else [] := by
  rw [due, due, List.range_succ, List.filter_append]
  congr 1
  split
  · next h => simp [h]
  · next h => simp [h]

theorem settled_capture {k : Nat} {ks : List Nat} (hdue : k % live.snapEvery = 0)
    (hks : ks.Sublist (live.due k)) : (ks ++ [k]).Sublist (live.due (k + 1)) := by
  rw [due_succ, if_pos hdue]
  exact hks.append (List.Sublist.refl _)

/-- The head of an iteration. -/
theorem check_follows {k : Nat} (h : Follows live calls s) (hk : s.writer = .checking k) :
    Follows live calls (live.check k s) := by
  obtain ⟨book, busy, queue, closed, buf, encoded, skipped, sent, writer, serializer⟩ := s
  cases hk
  obtain ⟨ks, hsent, hsub, hlen⟩ := h.settled
  have hrange := h.inRange
  have hcaptures := h.captures
  simp only [Writer.InRange, Writer.passed, Writer.captured] at hrange hsub hlen hcaptures
  rw [check]
  split
  · next hlt =>
    split
    · next hdue =>
      split
      · exact { h with
          shut := h.shut, left := h.left, joined := nofun, inRange := hlt, played := h.played
          captures := hcaptures.trans (Nat.le_succ _)
          caught := h.caught, stamped := nofun
          settled := by
            refine ⟨ks, hsent, ?_, ?_⟩
            · exact hsub.trans (by rw [Writer.passed, due_succ]; exact List.sublist_append_left _ _)
            · rw [Writer.passed, due_succ, if_pos hdue, List.length_append, ← hlen]
              rfl }
      · next hbusy =>
        exact { h with
          idle := fun _ => by simpa using hbusy
          shut := h.shut, left := h.left, joined := nofun, inRange := hlt, played := h.played
          captures := hcaptures
          caught := h.caught, stamped := nofun
          settled := by
            refine ⟨ks ++ [k], ?_, settled_capture hdue hsub, ?_⟩
            · have hall : sent = 0 :: ks := (List.append_nil sent).symm.trans hsent
              rw [hall]
              rfl
            · rw [Writer.passed, due_succ, if_pos hdue, List.length_append, List.length_append,
                ← hlen]
              simp only [List.length_singleton]
              omega }
    · next hdue =>
      exact { h with
        shut := h.shut, left := h.left, joined := nofun, inRange := hlt, played := h.played
        captures := hcaptures.trans (Nat.le_succ _)
        caught := h.caught, stamped := nofun
        settled := by
          refine ⟨ks, hsent, ?_, ?_⟩
          · rwa [Writer.passed, due_succ, if_neg hdue, List.append_nil]
          · rwa [Writer.passed, due_succ, if_neg hdue, List.append_nil] }
  · next hge =>
    obtain rfl : k = live.ops.length := by omega
    exact { h with
      shut := h.shut, left := h.left, joined := nofun, inRange := trivial, played := h.played
      captures := hcaptures
      caught := h.caught, stamped := nofun
      settled := ⟨ks, hsent, hsub, hlen⟩ }

/-- The busy flag is set for a root. -/
theorem storing_follows {k : Option Nat} (h : Follows live calls s) (hk : s.writer = .storing k) :
    Follows live calls { s with busy := true, writer := .capturing k } := by
  obtain ⟨book, busy, queue, closed, buf, encoded, skipped, sent, writer, serializer⟩ := s
  cases hk
  have hidle : busy = false := h.idle rfl
  have htoken : 0 + queue.length + serializer.holds = if busy then 1 else 0 := h.token
  rw [hidle] at htoken
  exact { h with
    token := by
      change 1 + queue.length + serializer.holds = 1
      simp only [Bool.false_eq_true, if_false] at htoken
      omega
    idle := nofun, shut := h.shut, left := h.left, joined := nofun
    inRange := by cases k <;> exact h.inRange
    played := by cases k <;> exact h.played
    captures := by cases k <;> exact h.captures
    caught := h.caught, stamped := nofun
    settled := by cases k <;> exact h.settled }

/-- A root is captured. -/
theorem capturing_follows {k : Option Nat} {root : Root} {book : CowBook}
    (h : Follows live calls s) (hk : s.writer = .capturing k)
    (hcapture : CowBook.capture s.book = .ok root book) :
    Follows live (calls ++ [.capture]) { s with book, writer := .sending k ⟨root, k.getD 0⟩ } := by
  obtain ⟨book₀, busy, queue, closed, buf, encoded, skipped, sent, writer, serializer⟩ := s
  cases hk
  have hcall : CowBook.call .capture book₀ = .ok () book := by
    cases hcapture
    rfl
  have hops : CowCall.ops calls = live.ops.take (k.getD 0) := by cases k <;> exact h.played
  exact { h with
    token := h.token, idle := nofun, shut := h.shut, left := h.left, joined := nofun
    inRange := by cases k <;> exact h.inRange
    trace := run_concat h.trace hcall
    played := by
      rw [ops_append]
      cases k <;> exact (List.append_nil _).trans h.played
    captures := by
      rw [captures_append]
      have hcaptures := h.captures
      cases k <;> exact Nat.succ_le_succ hcaptures
    caught := fun m hm => by
      obtain hm | hm := List.mem_append.mp hm
      · cases List.mem_singleton.mp hm
        exact .capture hops h.trace hcapture
      · exact ((h.caught m hm).call hcall).fresh
    stamped := fun m hm => by
      cases List.mem_singleton.mp hm
      rfl
    reading := fun m mem hr => (h.reading m mem hr).call hcall
    settled := by cases k <;> exact h.settled }

/-- The root goes into the channel. -/
theorem sending_follows {k : Option Nat} (h : Follows live calls s) (hk : s.writer = .sending k m) :
    Follows live calls { s with
      queue := s.queue ++ [m], sent := s.sent ++ [m.t0], writer := afterSend k } := by
  obtain ⟨book, busy, queue, closed, buf, encoded, skipped, sent, writer, serializer⟩ := s
  cases hk
  have hstamp : [k.getD 0] = [m.t0] := h.stamped m (List.mem_singleton_self m)
  exact { h with
    token := by
      have htoken : 1 + queue.length + serializer.holds = if busy then 1 else 0 := h.token
      rw [← htoken]
      cases k <;> simp only [afterSend, Writer.holds, List.length_append, List.length_singleton] <;>
        omega
    idle := by cases k <;> nofun
    shut := by cases k <;> exact h.shut
    left := fun hexit => absurd (h.shut.mp (h.left hexit).1) nofun
    joined := by cases k <;> nofun
    inRange := by cases k <;> exact h.inRange
    played := by cases k <;> exact h.played
    captures := by cases k <;> exact h.captures
    caught := by
      have hsame : ∀ m' ∈ queue ++ [m], Caught live calls book m' fun _ => book.mem := by
        intro m' hm'
        exact h.caught m' (List.mem_append.mpr (List.mem_append.mp hm').symm)
      cases k <;> exact hsame
    stamped := by cases k <;> nofun
    order := by
      have horder : sent = encoded.map (·.t0) ++ serializer.inHand ++ queue.map (·.t0) := h.order
      change sent ++ [m.t0] = encoded.map (·.t0) ++ serializer.inHand ++ (queue ++ [m]).map (·.t0)
      rw [horder, List.map_append, List.append_assoc]
      rfl
    settled := by
      obtain ⟨ks, hall, hrest⟩ := h.settled
      have hstamped : sent ++ [m.t0] = 0 :: ks := by rwa [← hstamp]
      cases k <;> exact ⟨ks, (List.append_nil _).trans hstamped, hrest⟩ }

/-- The op of an iteration is applied. -/
theorem applying_follows {k : Nat} {op : Op} {book : CowBook} (h : Follows live calls s)
    (hk : s.writer = .applying k) (hop : live.ops[k]? = some op)
    (happly : CowBook.apply op s.book = .ok () book) :
    Follows live (calls ++ [.op op]) { s with book, writer := .checking (k + 1) } := by
  obtain ⟨book₀, busy, queue, closed, buf, encoded, skipped, sent, writer, serializer⟩ := s
  cases hk
  have hcall : CowBook.call (.op op) book₀ = .ok () book := happly
  exact { h with
    shut := h.shut, left := h.left, joined := nofun, inRange := h.inRange
    trace := run_concat h.trace hcall
    played := by
      rw [ops_append, h.played]
      change live.ops.take k ++ [op] = live.ops.take (k + 1)
      rw [List.take_add_one, hop]
      rfl
    captures := by
      rw [captures_append]
      exact h.captures
    caught := fun m hm => ((h.caught m hm).call hcall).fresh, stamped := nofun
    reading := fun m mem hr => (h.reading m mem hr).call hcall }

/-- A turn of the writer. -/
theorem write_follows (h : Follows live calls s) (e : live.write s = some s') :
    ∃ calls', Follows live calls' s' := by
  cases hw : s.writer with
  | storing k =>
    simp only [write, hw, Option.some.injEq] at e
    exact ⟨calls, e ▸ storing_follows h hw⟩
  | capturing k =>
    simp only [write, hw] at e
    split at e
    · next root book hcapture =>
      cases e
      exact ⟨_, capturing_follows h hw hcapture⟩
    · cases e
  | sending k m =>
    simp only [write, hw, Option.ite_none_right_eq_some, Option.some.injEq] at e
    exact ⟨calls, e.2 ▸ sending_follows h hw⟩
  | checking k =>
    simp only [write, hw, Option.some.injEq] at e
    exact ⟨calls, e ▸ check_follows h hw⟩
  | applying k =>
    simp only [write, hw] at e
    split at e
    · next op hop =>
      split at e
      · next a book happly =>
        cases e
        exact ⟨_, applying_follows h hw hop happly⟩
      · cases e
    · cases e
  | spinning =>
    obtain ⟨book, busy, queue, closed, buf, encoded, skipped, sent, writer, serializer⟩ := s
    cases hw
    simp only [write, Option.ite_none_left_eq_some, Option.some.injEq] at e
    obtain ⟨-, rfl⟩ := e
    exact ⟨calls, { h with
      shut := h.shut, left := h.left, joined := nofun, inRange := Nat.zero_le _, stamped := nofun }⟩
  | dropping =>
    obtain ⟨book, busy, queue, closed, buf, encoded, skipped, sent, writer, serializer⟩ := s
    cases hw
    cases e
    exact ⟨calls, { h with
      idle := nofun, shut := ⟨fun _ => rfl, fun _ => rfl⟩, joined := nofun, stamped := nofun
      left := fun hexit => absurd (h.shut.mp (h.left hexit).1) nofun }⟩
  | joining =>
    obtain ⟨book, busy, queue, closed, buf, encoded, skipped, sent, writer, serializer⟩ := s
    cases hw
    simp only [write] at e
    split at e
    · cases e
      exact ⟨calls, { h with shut := h.shut, left := h.left, joined := fun _ => rfl, stamped := nofun }⟩
    · cases e
  | done =>
    simp only [write, hw] at e
    cases e

/-- A turn of the serializer. -/
theorem serialize_follows (h : Follows live calls s) (e : live.serialize s = some s') :
    Follows live calls s' := by
  obtain ⟨book, busy, queue, closed, buf, encoded, skipped, sent, writer, serializer⟩ := s
  cases serializer with
  | receiving =>
    cases queue with
    | cons m queue =>
      cases e
      exact { h with
        token := by
          have htoken : writer.holds + (queue.length + 1) + 0 = if busy then 1 else 0 := h.token
          rw [← htoken]
          rfl
        left := nofun
        joined := fun hdone => absurd (h.joined hdone) nofun
        caught := fun m' hm' => h.caught m' (by
          obtain hm' | hm' := List.mem_append.mp hm'
          · exact List.mem_append_left _ hm'
          · exact List.mem_append_right _ (List.mem_cons_of_mem _ hm'))
        reading := fun m' mem hr => by
          cases hr
          exact h.caught m (List.mem_append_right _ List.mem_cons_self)
        order := by
          have horder : sent = encoded.map (·.t0) ++ [] ++ (m :: queue).map (·.t0) := h.order
          rw [horder, List.append_nil, List.append_assoc]
          rfl }
    | nil =>
      simp only [serialize, Option.ite_none_right_eq_some, Option.some.injEq] at e
      obtain ⟨hclosed, rfl⟩ := e
      exact { h with
        left := fun _ => ⟨hclosed, rfl⟩
        joined := fun _ => rfl
        reading := nofun }
  | encoding m mem =>
    simp only [serialize] at e
    split at e
    · next data len hencode =>
      cases e
      exact { h with
        left := nofun
        joined := fun hdone => absurd (h.joined hdone) nofun
        reading := nofun
        exact := fun entry hentry => by
          obtain hentry | hentry := List.mem_append.mp hentry
          · exact h.exact entry hentry
          · cases List.mem_singleton.mp hentry
            obtain ⟨b, hrun, himage⟩ :=
              (h.reading m mem rfl).image (h.captures.trans (captured_le _ h.inRange))
            exact ⟨b, buf, hrun, (himage buf).symm.trans hencode⟩
        order := by
          have horder : sent = encoded.map (·.t0) ++ [m.t0] ++ queue.map (·.t0) := h.order
          rw [horder, List.map_append, List.append_assoc, List.append_assoc, List.append_assoc]
          rfl }
    · cases e
      exact { h with
        left := nofun
        joined := fun hdone => absurd (h.joined hdone) nofun
        reading := nofun }
  | clearing =>
    cases e
    have htoken : writer.holds + queue.length + 1 = if busy then 1 else 0 := h.token
    exact { h with
      token := by
        change writer.holds + queue.length + 0 = 0
        split at htoken <;> omega
      idle := fun _ => rfl
      left := nofun
      joined := fun hdone => absurd (h.joined hdone) nofun
      reading := nofun }
  | exited | panicked m => cases e

theorem read_follows {which : RootRead → Bool} (h : Follows live calls s)
    (e : read which s = some s') : Follows live calls s' := by
  obtain ⟨book, busy, queue, closed, buf, encoded, skipped, sent, writer, serializer⟩ := s
  cases serializer with
  | encoding m mem =>
    cases e
    exact { h with
      left := nofun
      joined := fun hdone => absurd (h.joined hdone) nofun
      reading := fun m' mem' hr => by
        cases hr
        exact (h.reading m mem rfl).reads which }
  | receiving | clearing | exited | panicked m => cases e

theorem step_follows {turn : Turn} (h : Follows live calls s) (e : live.step turn s = some s') :
    ∃ calls', Follows live calls' s' := by
  cases turn with
  | writer => exact write_follows h e
  | serializer => exact ⟨calls, serialize_follows h e⟩
  | read which => exact ⟨calls, read_follows h e⟩

theorem Reachable.follows (h : Reachable live s) : ∃ calls, Follows live calls s := by
  induction h with
  | start => exact ⟨[], start_follows⟩
  | next _ e ih =>
    obtain ⟨calls, h⟩ := ih
    exact step_follows h e

end HiPerf.Live
