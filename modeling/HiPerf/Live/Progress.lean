import HiPerf.Live.Handoff
import HiPerf.Lib.Turns
import HiPerf.Snapshot.Exact
import HiPerf.Book.History

/-!
Where the ops can be carried out the program comes to its end: no op and no encode
stops, the writer is never left waiting, and every snapshot that is due is counted.
-/

namespace HiPerf.Live

open Machine Exec

variable {live : Live} {s s' : World} {calls : List CowCall} {m : Message} {mem : RootRead → Memory}

/-- The ops are well formed, the pool lasts for them, and a group can count its slots. -/
structure Lasts (live : Live) : Prop where
  grid : live.cfg.grid.Ok
  cap : live.cfg.cap < 4294967296
  wellFormed : WellFormed live.cfg [] (live.before ++ live.ops)
  completes : ∃ b, Book.run (live.before ++ live.ops) (Book.new live.cfg) = .ok () b ∧ b.hwm ≤ 65535

theorem Lasts.upTo (h : live.Lasts) (k : Nat) :
    WellFormed live.cfg [] (live.before ++ live.ops.take k) ∧
    ∃ b, Book.run (live.before ++ live.ops.take k) (Book.new live.cfg) = .ok () b ∧
      b.hwm ≤ 65535 := by
  obtain ⟨b', hrun, hhwm⟩ := h.completes
  have hwf := h.wellFormed
  have hall : live.before ++ live.ops = live.before ++ live.ops.take k ++ live.ops.drop k := by
    rw [List.append_assoc, List.take_append_drop]
  obtain ⟨f', -, -, -, hmarks'⟩ := Book.run_marks h.grid hwf (hwf.slotsFit h.cap) hrun
  rw [hall] at hrun hwf hmarks'
  obtain ⟨b, hrun, -⟩ := runAll_append_eq_ok.mp hrun
  have hwf := (wellFormed_append.mp hwf).1
  obtain ⟨f, -, -, -, hmarks⟩ := Book.run_marks h.grid hwf (hwf.slotsFit h.cap) hrun
  refine ⟨hwf, b, hrun, ?_⟩
  have hle := Book.peak_le_append [] (live.before ++ live.ops.take k) (live.ops.drop k)
  omega

/-- The next op goes through. -/
theorem apply_ok (hl : live.Lasts) (h : Follows live calls s) {k : Nat}
    (hk : s.writer = .applying k) {op : Op} (hop : live.ops[k]? = some op) :
    ∃ book, CowBook.apply op s.book = .ok () book := by
  obtain ⟨w₀, hnew, hbuilt⟩ := live.built
  obtain ⟨w₁, e₁, h₀⟩ := CowBook.new_mirrors live.chunked
  rw [hnew] at e₁
  cases e₁
  obtain ⟨-, b, hrun, -⟩ := hl.upTo (k + 1)
  have hops : CowCall.ops (live.before.map .op ++ (calls ++ [.op op])) =
      live.before ++ live.ops.take (k + 1) := by
    rw [ops_append, ops_append, ops_ops, h.played, hk, List.take_add_one, hop]
    rfl
  rw [← hops] at hrun
  obtain ⟨w, ew, -⟩ := (CowBook.run_tracks _).back hl.cap h₀ hrun
  obtain ⟨v, ev, erest⟩ := runAll_append_eq_ok.mp ew
  have hv : v = live.book := by
    rw [CowBook.run] at hbuilt
    rw [hbuilt] at ev
    cases ev
    rfl
  obtain ⟨v', ev', elast⟩ := runAll_append_eq_ok.mp (hv ▸ erest)
  have hv' : v' = s.book := by
    have htrace := h.trace
    rw [CowBook.run] at htrace
    rw [htrace] at ev'
    cases ev'
    rfl
  obtain ⟨book, ebook, -⟩ := runAll_cons_eq_ok.mp (hv' ▸ elast)
  exact ⟨book, ebook⟩

/-- The size of the serializer's buffer. -/
def bufLen (live : Live) : Nat := 64 + live.cfg.cap * 64 + live.cfg.levels * 2 * 32

/-- A root goes into the buffer, whenever its reads are made. -/
theorem encode_ok (hl : live.Lasts) (h : Follows live calls s) (hm : s.serializer = .encoding m mem)
    {buf : List UInt8} (hbuf : buf.length = live.bufLen) :
    ∃ data len, encodeRoot live.crc32c m.root mem buf = .ok (data, len) ∧
      data.length = live.bufLen := by
  obtain ⟨b, hrun, himage⟩ := (h.reading m mem hm).image (h.captures.trans (captured_le _ h.inRange))
  obtain ⟨hwf, b', hrun', hhwm⟩ := hl.upTo m.t0
  rw [hrun] at hrun'
  cases hrun'
  obtain ⟨f, hf, ⟨q, fl, hrep, -, hle⟩, -⟩ := reached hl.grid hwf (hwf.slotsFit hl.cap) hrun
  obtain ⟨hlen, hencode⟩ := Book.encode_whole hf hrep hle hhwm live.crc32c
  have hfits := Book.image_fits hl.grid hwf (hwf.slotsFit hl.cap) hrun
  rw [bufLen] at hbuf ⊢
  refine ⟨_, _, (himage buf).trans (hencode buf (by omega)), ?_⟩
  rw [List.length_append, List.length_drop]
  omega

/-- Nothing has stopped, and the buffer is as long as ever. -/
structure Sound (live : Live) (s : World) : Prop where
  follows : ∃ calls, Follows live calls s
  buf : s.buf.length = live.bufLen
  running : ∀ m, s.serializer ≠ .panicked m

theorem start_sound : Sound live live.start :=
  ⟨⟨[], start_follows⟩, List.length_replicate, nofun⟩

theorem check_keeps (live : Live) (k : Nat) (s : World) :
    (live.check k s).buf = s.buf ∧ (live.check k s).serializer = s.serializer := by
  rw [check]
  split
  · split
    · split <;> exact ⟨rfl, rfl⟩
    · exact ⟨rfl, rfl⟩
  · exact ⟨rfl, rfl⟩

/-- The writer leaves the serializer and its buffer alone. -/
theorem write_keeps (e : live.write s = some s') :
    s'.buf = s.buf ∧ s'.serializer = s.serializer := by
  rw [write] at e
  split at e
  · cases e
    exact ⟨rfl, rfl⟩
  · cases e
    exact ⟨rfl, rfl⟩
  · split at e
    · cases e
      exact ⟨rfl, rfl⟩
    · cases e
  · split at e
    · cases e
    · cases e
      exact ⟨rfl, rfl⟩
  · cases e
    exact check_keeps live _ s
  · split at e
    · split at e
      · cases e
        exact ⟨rfl, rfl⟩
      · cases e
    · cases e
  · cases e
    exact ⟨rfl, rfl⟩
  · split at e
    · cases e
      exact ⟨rfl, rfl⟩
    · cases e
  · cases e

theorem step_sound (hl : live.Lasts) {turn : Turn} (h : Sound live s)
    (e : live.step turn s = some s') : Sound live s' := by
  obtain ⟨calls, hf⟩ := h.follows
  suffices hkeeps : s'.buf.length = live.bufLen ∧ ∀ m, s'.serializer ≠ .panicked m from
    ⟨step_follows hf e, hkeeps.1, hkeeps.2⟩
  have hbuf := h.buf
  cases turn with
  | writer =>
    obtain ⟨hsame, hser⟩ := write_keeps e
    rw [hsame, hser]
    exact ⟨hbuf, h.running⟩
  | serializer =>
    obtain ⟨book, busy, queue, closed, buf, encoded, skipped, sent, writer, serializer⟩ := s
    cases serializer with
    | receiving =>
      cases queue with
      | cons m queue =>
        cases e
        exact ⟨hbuf, fun m hm => by cases hm⟩
      | nil =>
        simp only [step, serialize, Option.ite_none_right_eq_some, Option.some.injEq] at e
        obtain ⟨-, rfl⟩ := e
        exact ⟨hbuf, fun m hm => by cases hm⟩
    | encoding m mem =>
      obtain ⟨data, len, hencode, hlen⟩ := encode_ok hl hf rfl hbuf
      simp only [step, serialize, hencode, Option.some.injEq] at e
      subst e
      exact ⟨hlen, fun m hm => by cases hm⟩
    | clearing =>
      cases e
      exact ⟨hbuf, fun m hm => by cases hm⟩
    | exited | panicked m => cases e
  | read which =>
    obtain ⟨book, busy, queue, closed, buf, encoded, skipped, sent, writer, serializer⟩ := s
    cases serializer with
    | encoding m mem =>
      cases e
      exact ⟨hbuf, fun m hm => by cases hm⟩
    | receiving | clearing | exited | panicked m => cases e

theorem Reachable.sound (hl : live.Lasts) (h : Reachable live s) : Sound live s := by
  induction h with
  | start => exact start_sound
  | next _ e ih => exact step_sound hl ih e

def Turn.isRead : Turn → Bool
  | .read _ => true
  | _ => false

/-- Until the writer is done one of the two goes on. -/
theorem Sound.moves (hl : live.Lasts) (h : Sound live s) (hopen : s.writer ≠ .done) :
    ∃ turn s', turn.isRead = false ∧ live.step turn s = some s' := by
  obtain ⟨calls, hf⟩ := h.follows
  have hrunning := h.running
  obtain ⟨book, busy, queue, closed, buf, encoded, skipped, sent, writer, serializer⟩ := s
  have htoken := hf.token
  have hshut := hf.shut
  cases serializer with
  | receiving =>
    cases queue with
    | cons m queue => exact ⟨.serializer, _, rfl, rfl⟩
    | nil =>
      cases hclosed : closed with
      | true => exact ⟨.serializer, _, rfl, rfl⟩
      | false =>
        have hwriter : ∃ s', live.write ⟨book, busy, [], false, buf, encoded, skipped, sent, writer,
            .receiving⟩ = some s' := by
          cases writer with
          | storing k | capturing k | sending k m | checking k | dropping => exact ⟨_, rfl⟩
          | spinning =>
            cases busy with
            | true => cases htoken
            | false => exact ⟨_, rfl⟩
          | applying k =>
            obtain ⟨op, hop⟩ : ∃ op, live.ops[k]? = some op := ⟨_, List.getElem?_eq_getElem hf.inRange⟩
            obtain ⟨book', happly⟩ := apply_ok hl hf rfl hop
            simp only [write, hop, happly]
            exact ⟨_, rfl⟩
          | joining | done =>
            rw [hclosed] at hshut
            cases hshut.mpr rfl
        obtain ⟨s', e⟩ := hwriter
        exact ⟨.writer, s', rfl, e⟩
  | encoding m mem =>
    have hbuf : buf.length = live.bufLen := h.buf
    obtain ⟨data, len, hencode, -⟩ := encode_ok hl hf rfl hbuf
    have hencoded : ∃ s', live.serialize ⟨book, busy, queue, closed, buf, encoded, skipped, sent, writer,
        .encoding m mem⟩ = some s' := by
      simp only [serialize, hencode]
      exact ⟨_, rfl⟩
    obtain ⟨s', e⟩ := hencoded
    exact ⟨.serializer, s', rfl, e⟩
  | clearing => exact ⟨.serializer, _, rfl, rfl⟩
  | exited =>
    have hover := hshut.mp (hf.left rfl).1
    cases writer with
    | joining => exact ⟨.writer, _, rfl, rfl⟩
    | done => exact absurd rfl hopen
    | storing k | capturing k | sending k m | spinning | checking k | applying k | dropping =>
      cases hover
  | panicked m => exact absurd rfl (hrunning m)

/-- The turns the writer has left, an iteration being counted with what the
serializer does for it. -/
def Writer.left (n : Nat) : Writer → Nat
  | .storing none => 8 * n + 12
  | .capturing none => 8 * n + 11
  | .sending none _ => 8 * n + 10
  | .spinning => 8 * n + 5
  | .checking k => 8 * (n - k) + 4
  | .storing (some k) => 8 * (n - k) + 3
  | .capturing (some k) => 8 * (n - k) + 2
  | .sending (some k) _ => 8 * (n - k) + 1
  | .applying k => 8 * (n - k) - 3
  | .dropping => 3
  | .joining => 2
  | .done => 1

def Serializer.left : Serializer → Nat
  | .encoding .. => 3
  | .clearing => 2
  | .receiving => 1
  | .exited | .panicked _ => 0

def World.work (live : Live) (s : World) : Nat :=
  s.writer.left live.ops.length + 3 * s.queue.length + s.serializer.left

theorem write_work (h : Follows live calls s) (e : live.write s = some s') :
    s'.work live < s.work live := by
  have hrange := h.inRange
  obtain ⟨book, busy, queue, closed, buf, encoded, skipped, sent, writer, serializer⟩ := s
  cases writer with
  | storing k | capturing k =>
    cases e
    cases k <;> simp only [World.work, Writer.left] <;> omega
  | sending k m =>
    simp only [write, Option.ite_none_right_eq_some, Option.some.injEq] at e
    obtain ⟨-, rfl⟩ := e
    cases k with
    | none =>
      simp only [World.work, Writer.left, afterSend, List.length_append, List.length_singleton]
      omega
    | some k =>
      simp only [Writer.InRange] at hrange
      simp only [World.work, Writer.left, afterSend, List.length_append, List.length_singleton]
      omega
  | spinning =>
    simp only [write] at e
    split at e
    · cases e
    · cases e
      simp only [World.work, Writer.left]
      omega
  | checking k =>
    cases e
    rw [check]
    split
    · split
      · split <;> simp only [World.work, Writer.left] <;> omega
      · simp only [World.work, Writer.left]
        omega
    · simp only [World.work, Writer.left]
      omega
  | applying k =>
    simp only [Writer.InRange] at hrange
    simp only [write] at e
    split at e
    · split at e
      · cases e
        simp only [World.work, Writer.left]
        omega
      · cases e
    · cases e
  | dropping =>
    cases e
    simp only [World.work, Writer.left]
    omega
  | joining =>
    simp only [write] at e
    split at e
    · cases e
      simp only [World.work, Writer.left]
      omega
    · cases e
  | done => cases e

theorem serialize_work (e : live.serialize s = some s') : s'.work live < s.work live := by
  obtain ⟨book, busy, queue, closed, buf, encoded, skipped, sent, writer, serializer⟩ := s
  cases serializer with
  | receiving =>
    cases queue with
    | cons m queue =>
      cases e
      simp only [World.work, Serializer.left, List.length_cons]
      omega
    | nil =>
      simp only [serialize, Option.ite_none_right_eq_some, Option.some.injEq] at e
      obtain ⟨-, rfl⟩ := e
      simp only [World.work, Serializer.left]
      omega
  | encoding m mem =>
    simp only [serialize] at e
    split at e <;> cases e <;> simp only [World.work, Serializer.left] <;> omega
  | clearing =>
    cases e
    simp only [World.work, Serializer.left]
    omega
  | exited | panicked m => cases e

/-- Where the ops can be carried out every run can be completed. -/
theorem Sound.completes (hl : live.Lasts) (h : Sound live s) :
    ∃ turns s', (∀ turn ∈ turns, turn.isRead = false) ∧ Turns.run live.step turns s = some s' ∧
      Sound live s' ∧ s'.writer = .done := by
  have hown : ∀ (turn : Turn) (s s' : World), Sound live s → (!turn.isRead) = true →
      live.step turn s = some s' → s'.work live < s.work live := by
    intro turn s s' h hread e
    obtain ⟨calls, hf⟩ := h.follows
    cases turn with
    | writer => exact write_work hf e
    | serializer => exact serialize_work e
    | read which => cases hread
  obtain ⟨turns, s', hturns, hrun, hsound, hdone⟩ :=
    Turns.completes (fun turn s s' h e => step_sound hl h e) hown (fun s h hopen => by
      obtain ⟨turn, s', hread, e⟩ := h.moves hl hopen
      exact ⟨turn, s', by rw [hread]; rfl, e⟩) h
  exact ⟨turns, s', fun turn hturn => by simpa using hturns turn hturn, hrun, hsound, hdone⟩

/-- What the hand-off guarantees in a state. -/
structure HandsOff (live : Live) (s : World) : Prop where
  /-- one root at most is queued or being encoded -/
  one : s.queue.length + s.serializer.inHand.length ≤ 1
  /-- a send finds room -/
  room : ∀ k m, s.writer = .sending k m → s.queue.length < CHANNEL
  /-- what was sent was encoded, once and in order, or is under way -/
  order : s.sent = s.encoded.map (·.t0) ++ s.serializer.inHand ++ s.queue.map (·.t0)
  exact : ∀ e ∈ s.encoded, e.Exact live
  /-- after the handshake a root is sent at some of the indices that are due -/
  due : s.sent.tail.Sublist (live.due live.ops.length)
  counted : s.writer = .done → s.sent = s.encoded.map (·.t0) ∧
    s.snapCount + s.skipped = (live.due live.ops.length).length

theorem due_mono {j k : Nat} (h : j ≤ k) : (live.due j).Sublist (live.due k) :=
  (List.range_sublist.mpr h).filter _

theorem passed_le (w : Writer) {n : Nat} (h : w.InRange n) : w.passed n ≤ n := by
  cases w with
  | storing k | capturing k | sending k =>
    cases k with
    | none => exact Nat.zero_le n
    | some k => exact h
  | checking k | applying k => exact h
  | spinning => exact Nat.zero_le n
  | dropping | joining | done => exact Nat.le_refl n

theorem Follows.handsOff (h : Follows live calls s) : HandsOff live s := by
  have htoken := h.token
  obtain ⟨ks, hsent, hsub, hlen⟩ := h.settled
  have hhand : s.serializer.inHand.length ≤ s.serializer.holds := by
    cases s.serializer <;> simp [Serializer.inHand, Serializer.holds]
  refine ⟨?_, ?_, h.order, h.exact, ?_, ?_⟩
  · split at htoken <;> omega
  · intro k m hk
    rw [hk] at htoken
    change 1 + s.queue.length + s.serializer.holds = _ at htoken
    change s.queue.length < 1
    split at htoken <;> omega
  · have htail : s.sent.tail.Sublist ks := by
      cases hs : s.sent with
      | nil => exact List.nil_sublist ks
      | cons k rest =>
        rw [hs] at hsent
        rw [← (List.cons.inj hsent).2]
        exact List.sublist_append_left _ _
    exact htail.trans (hsub.trans (due_mono (passed_le _ h.inRange)))
  · intro hdone
    have hexit := h.joined hdone
    have hqueue := (h.left hexit).2
    have horder := h.order
    rw [hexit, hqueue] at horder
    have hall : s.sent = s.encoded.map (·.t0) := by simpa [Serializer.inHand] using horder
    refine ⟨hall, ?_⟩
    rw [hdone] at hsent hlen
    have hcount : s.encoded.length = ks.length + 1 := by
      have hmap := congrArg List.length hsent
      rw [hall] at hmap
      simpa [Writer.pending] using hmap
    rw [World.snapCount, List.length_tail, hcount]
    exact hlen

/-- The live hand-off: under every interleaving one root at a time is under way, the
writer is never blocked by a send, and each root is encoded once, in order, with the
book of its capture; at the end every index that is due was taken or skipped. Where
the ops can be carried out every run comes to that end. -/
theorem hands_off (h : Reachable live s) : HandsOff live s ∧
    (live.Lasts → ∃ turns s', Turns.run live.step turns s = some s' ∧ s'.writer = .done) := by
  obtain ⟨calls, hf⟩ := h.follows
  refine ⟨hf.handsOff, fun hl => ?_⟩
  obtain ⟨turns, s', -, hrun, -, hdone⟩ := (h.sound hl).completes hl
  exact ⟨turns, s', hrun, hdone⟩

/-- The first root is in the channel, and the run goes on to its end. -/
theorem hands_off_smallRun : ∃ (live : Live) (s : World), live.ops = smallRun ∧ s.sent = [0] ∧
    HandsOff live s ∧ ∃ turns s', Turns.run live.step turns s = some s' ∧ s'.writer = .done := by
  obtain ⟨w₀, e₀, -⟩ := CowBook.new_mirrors (show 1 ≤ smallBook.chunk by decide)
  obtain ⟨b, e, -⟩ := (Book.run_holds smallBook_ok rfl (Book.new_holds smallBook_ok)
    smallRun_wellFormed smallRun_fits).1 _ (Book.new_shows smallBook)
  have hhwm : b.hwm ≤ 65535 := by
    obtain ⟨f, hf, ⟨q, fl, -, -, hle⟩, -⟩ := reached smallBook_ok smallRun_wellFormed
      (smallRun_wellFormed.slotsFit (by decide)) e
    exact hf.hwm_eq ▸ Nat.le_trans hle (by decide)
  let live : Live :=
    ⟨smallBook, [], smallRun, 2, Bytes.crc32c, w₀, by decide, by decide, by decide, ⟨w₀, e₀, rfl⟩⟩
  have hcap : smallBook.cap < 4294967296 := by decide
  have hlasts : live.Lasts := ⟨smallBook_ok, hcap, smallRun_wellFormed, b, e, hhwm⟩
  have hstore := @Reachable.next live _ _ .writer .start rfl
  have hcapture := @Reachable.next live _ _ .writer hstore rfl
  have hsend := @Reachable.next live _ _ .writer hcapture rfl
  obtain ⟨hoff, hend⟩ := hands_off hsend
  exact ⟨live, _, rfl, rfl, hoff, hend hlasts⟩

end HiPerf.Live
