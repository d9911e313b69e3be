import HiPerf.Book.Invariant
import HiPerf.Cow.Frozen
import HiPerf.Cow.Mirror
import HiPerf.Snapshot.Encode

/-!
What `encode_root` writes: of a root that was just captured, and of one whose
writer has gone on.
-/

namespace HiPerf

open Machine Exec Epoch

namespace CowBook

/-- Both books show the same orders, levels and scalars. -/
structure Agrees (w : CowBook) (b : Book) : Prop where
  order : ∀ slot, w.order? slot = b.pool[slot]?
  level : ∀ side t, w.level? side t = (b.lane side)[t]?
  hwm : w.hwm = b.hwm
  freeHead : w.freeHead = b.freeHead
  bestBid : w.bestBid = b.bestBid
  bestAsk : w.bestAsk = b.bestAsk
  idmap : w.idmap = b.idmap

theorem Mirrors.agrees {cap : Nat} {w : CowBook} {b : Book} (h : Mirrors cap w b) : w.Agrees b :=
  ⟨h.order, h.level, h.hwm, h.freeHead, h.bestBid, h.bestAsk, h.idmap⟩

/-- A root that shows what its book showed is read as the flat book is. -/
theorem Mirrors.root_source {cap : Nat} {w : CowBook} {b : Book} (h : Mirrors cap w b)
    (hnarrow : b.Narrow) {mem : RootRead → Memory} (ho : ∀ rd slot, w.root.order (mem rd) slot = w.order? slot)
    (hl : ∀ rd side t, w.root.level (mem rd) side t = w.level? side t) :
    w.root.source mem = b.source := by
  simp only [Root.source, Book.source, ho, hl, h.order, h.level, Source.mk.injEq, and_true]
  refine ⟨?_, funext fun side => ?_⟩
  · simp only [CowBook.root, h.priceMin, h.tick, h.nLevels, h.capacity, h.pool, h.hwm, h.bestBid,
      h.bestAsk, h.freeHead]
  · exact h.nLevels.trans (hnarrow.lane_size side).symm

theorem Mirrors.encodeRoot {cap : Nat} {w : CowBook} {b : Book} (h : Mirrors cap w b)
    (hnarrow : b.Narrow) {mem : RootRead → Memory} (ho : ∀ rd slot, w.root.order (mem rd) slot = w.order? slot)
    (hl : ∀ rd side t, w.root.level (mem rd) side t = w.level? side t)
    (crc32c : List UInt8 → UInt32) (buf : List UInt8) :
    HiPerf.encodeRoot crc32c w.root mem buf = b.encode crc32c buf := by
  rw [HiPerf.encodeRoot, h.root_source hnarrow ho hl, Book.encode]

theorem run_narrow {cfg : SmrConfig} {ops : List Op} {b : Book}
    (h : Book.run ops (Book.new cfg) = .ok () b) : b.Narrow := by
  have hshape := Book.run_shaped ops (Book.new cfg)
  rw [last_ok h] at hshape
  exact (Book.new_narrow cfg).of_shape hshape

/-- Call by call the copy-on-write book does what the flat book does, whatever
the chunk size and wherever captures come: each completes the calls the other
completes, both then show the same, and the image of a root captured at that
point is the image of the flat book. -/
theorem simulates {cfg : SmrConfig} (hchunk : 1 ≤ cfg.chunk) (hcap : cfg.cap < 4294967296)
    (calls : List CowCall) :
    ∃ w₀, CowBook.new cfg = .ok w₀ ∧
      (∀ b, Book.run (CowCall.ops calls) (Book.new cfg) = .ok () b →
        ∃ w, CowBook.run calls w₀ = .ok () w) ∧
      (∀ w, CowBook.run calls w₀ = .ok () w →
        ∃ b, Book.run (CowCall.ops calls) (Book.new cfg) = .ok () b ∧ w.Agrees b ∧
          ∃ r w', CowBook.capture w = .ok r w' ∧ ∀ crc32c buf,
            HiPerf.encodeRoot crc32c r (fun _ => w'.mem) buf = b.encode crc32c buf) ∧
      (cfg.grid.Ok → WellFormed cfg [] (CowCall.ops calls) → Fits cfg [] (CowCall.ops calls) →
        ∃ b, Book.run (CowCall.ops calls) (Book.new cfg) = .ok () b) := by
  obtain ⟨w₀, e₀, h₀⟩ := new_mirrors hchunk
  refine ⟨w₀, e₀, fun b e => ?_, fun w e => ?_, fun hg hwf hfit => ?_⟩
  · obtain ⟨w, e', -⟩ := (run_tracks calls).back hcap h₀ e
    exact ⟨w, e'⟩
  · obtain ⟨b, e', h⟩ := (run_tracks calls).forth h₀ e
    exact ⟨b, e', h.agrees, w.root, _, rfl, h.encodeRoot (run_narrow e') (fun _ _ => rfl)
      fun _ _ _ => rfl⟩
  · obtain ⟨b, e, -⟩ := (Book.run_holds hg rfl (Book.new_holds hg) hwf hfit).1 _ (Book.new_shows cfg)
    exact ⟨b, e⟩

/-- A run of the small book with a capture before, between and after its calls. -/
def capturedRun : List CowCall :=
  [.capture, .op (.insert 7 0 30 0), .op (.insert 8 0 20 0), .capture, .op (.insert 9 0 10 0),
    .op (.update 7 12), .capture, .capture, .op (.cancel 8), .op (.insert 11 25 4 1), .op (.fill 9)]

theorem simulates_capturedRun : ∃ w₀ w b, CowBook.new smallBook = .ok w₀ ∧
    CowBook.run capturedRun w₀ = .ok () w ∧
    Book.run smallRun (Book.new smallBook) = .ok () b ∧ w.Agrees b := by
  obtain ⟨w₀, e₀, back, forth, ok⟩ := @simulates smallBook (by decide) (by decide) capturedRun
  obtain ⟨b, e⟩ := ok smallBook_ok smallRun_wellFormed smallRun_fits
  obtain ⟨w, ew⟩ := back b e
  obtain ⟨b', e', hagrees, -⟩ := forth w ew
  exact ⟨w₀, w, b', e₀, ew, e', hagrees⟩

theorem insert_exhausted {w : CowBook} (htick : 0 < w.tick) (hfree : w.freeHead = NIL)
    (hfull : w.hwm = w.capacity) (orderId price qty : Int) (side : Nat) :
    ∃ text, insert orderId price qty side w = .error (.message text) w := by
  have htickOf : ∃ t, tickOf price w = .ok t w := by
    simp only [tickOf, get_bind, gridTick, ite_run]
    rw [if_neg (by omega), if_neg (by omega)]
    exact ⟨_, rfl⟩
  obtain ⟨t, ht⟩ := htickOf
  have halloc : ∃ text, allocSlot w = .error (.message text) w := by
    simp only [allocSlot, get_bind, ite_run]
    rw [if_neg (not_not.mpr hfree), if_pos hfull]
    exact ⟨_, rfl⟩
  obtain ⟨text, ha⟩ := halloc
  refine ⟨text, ?_⟩
  unfold insert
  rw [bind_ok ht, bind_error ha]

/-- The bound on the capacity is needed: at 2^32 it is stored as zero, and the
first insert finds the pool full. -/
theorem not_simulates_hugePool :
    hugePool.grid.Ok ∧ WellFormed hugePool [] [.insert 1 0 1 0] ∧
      (∃ b, Book.run [.insert 1 0 1 0] (Book.new hugePool) = .ok () b) ∧
      ∃ w₀, CowBook.new hugePool = .ok w₀ ∧
        ∃ text, CowBook.run [.op (.insert 1 0 1 0)] w₀ = .error (.message text) w₀ := by
  have hok : hugePool.grid.Ok := ⟨by decide, by decide, by decide, by decide, by decide⟩
  have hwf : WellFormed hugePool [] [.insert 1 0 1 0] := by decide
  have hfit : Fits hugePool [] [.insert 1 0 1 0] := by decide
  obtain ⟨w₀, e₀, h⟩ := new_mirrors (show 1 ≤ hugePool.chunk by decide)
  refine ⟨hok, hwf, ?_, w₀, e₀, ?_⟩
  · obtain ⟨b, e, -⟩ := (Book.run_holds hok rfl (Book.new_holds hok) hwf hfit).1 _
      (Book.new_shows hugePool)
    exact ⟨b, e⟩
  · have hcap : w₀.capacity = 0 := h.capacity.trans (by decide)
    obtain ⟨text, e⟩ := insert_exhausted (w := w₀) (by rw [h.tick]; decide)
      (by rw [h.freeHead]; rfl) (by rw [h.hwm, hcap]; rfl) 1 0 1 0
    exact ⟨text, bind_error e _⟩

/-- The memory after the first `n` of the calls. -/
def memAfter (w : CowBook) (calls : List CowCall) (n : Nat) : Memory :=
  (last (CowBook.run (calls.take n)) w).mem

theorem captures_take_le (calls : List CowCall) (n : Nat) :
    CowCall.captures (calls.take n) ≤ CowCall.captures calls := by
  induction calls generalizing n with
  | nil => simp
  | cons c calls ih =>
    cases n with
    | zero => exact Nat.zero_le _
    | succ n =>
      have := ih n
      cases c with
      | op o => exact this
      | capture => exact Nat.succ_le_succ this

section Captured

variable {cfg : SmrConfig} {before later : List CowCall} {w₀ w w' : CowBook} {r : Root}

/-- A root shows what the book showed at its capture, at every later time. -/
theorem captured_shows (hnew : CowBook.new cfg = .ok w₀) (hrun : CowBook.run before w₀ = .ok () w)
    {b : Book} (h : Mirrors cfg.cap w b) (hcapture : CowBook.capture w = .ok r w')
    (hgen : CowCall.captures before + CowCall.captures later + 2 < 18446744073709551616) (n : Nat) :
    (∀ slot, r.order (w'.memAfter later n) slot = w.order? slot) ∧
      ∀ side t, r.level (w'.memAfter later n) side t = w.level? side t := by
  obtain ⟨hgen₀, haged₀⟩ := new_aged hnew
  have hbefore := run_later before (w := w₀) (by omega)
  rw [last_ok hrun] at hbefore
  have haged := hbefore.keepsAged haged₀
  have hle := hbefore.le_gen
  cases hcapture
  have hbump : u64 ((w.gen : Int) + 1) = w.gen + 1 := by unfold u64; omega
  have hn := captures_take_le later n
  dsimp only
  rw [hbump]
  have hlater := run_later (later.take n) (w := { w with gen := w.gen + 1 })
    (show w.gen + 1 + _ < _ by omega)
  exact root_shows haged hlater h.orders h.lane

/-- The image of a root is that of the flat book at the capture, whenever the reads
are made. -/
theorem captured_image (hchunk : 1 ≤ cfg.chunk) (hnew : CowBook.new cfg = .ok w₀)
    (hrun : CowBook.run before w₀ = .ok () w) (hcapture : CowBook.capture w = .ok r w')
    (hgen : CowCall.captures before + CowCall.captures later + 2 < 18446744073709551616) :
    ∃ b, Book.run (CowCall.ops before) (Book.new cfg) = .ok () b ∧ Mirrors cfg.cap w b ∧
      ∀ (position : RootRead → Nat) crc32c buf,
        HiPerf.encodeRoot crc32c r (fun rd => w'.memAfter later (position rd)) buf =
          b.encode crc32c buf := by
  obtain ⟨w₁, e₁, h₀⟩ := new_mirrors hchunk
  rw [hnew] at e₁
  cases e₁
  obtain ⟨b, eb, h⟩ := (run_tracks before).forth h₀ hrun
  have hshows := captured_shows hnew hrun h hcapture hgen
  cases hcapture
  exact ⟨b, eb, h, fun position => h.encodeRoot (run_narrow eb) (fun rd => (hshows (position rd)).1)
    fun rd => (hshows (position rd)).2⟩

end Captured

/-- A root keeps showing the book of its capture, whatever the writer does
afterwards and whenever each read is made; its image is that of the flat book
at the capture. -/
theorem root_frozen {cfg : SmrConfig} (hchunk : 1 ≤ cfg.chunk) {before later : List CowCall}
    {w₀ w w' : CowBook} {r : Root} (hnew : CowBook.new cfg = .ok w₀)
    (hrun : CowBook.run before w₀ = .ok () w) (hcapture : CowBook.capture w = .ok r w')
    (hgen : CowCall.captures before + CowCall.captures later + 2 < 18446744073709551616) :
    (∀ n slot, r.order (w'.memAfter later n) slot = w.order? slot) ∧
      (∀ n side t, r.level (w'.memAfter later n) side t = w.level? side t) ∧
      ∃ b, Book.run (CowCall.ops before) (Book.new cfg) = .ok () b ∧ w.Agrees b ∧
        ∀ (position : RootRead → Nat) crc32c buf,
          HiPerf.encodeRoot crc32c r (fun rd => w'.memAfter later (position rd)) buf =
            b.encode crc32c buf := by
  obtain ⟨b, eb, h, himage⟩ := captured_image hchunk hnew hrun hcapture hgen
  have hshows := captured_shows hnew hrun h hcapture hgen
  exact ⟨fun n => (hshows n).1, fun n => (hshows n).2, b, eb, h.agrees, himage⟩

/-- A capture in the middle of a run, and what comes after it. -/
theorem root_frozen_capturedRun : ∃ w₀ w w' r, CowBook.new smallBook = .ok w₀ ∧
    CowBook.run capturedRun w₀ = .ok () w ∧ CowBook.capture w = .ok r w' ∧
    ∀ n slot, r.order (w'.memAfter [.op (.cancel 7), .capture, .op (.insert 9 5 1 1)] n) slot =
      w.order? slot := by
  obtain ⟨w₀, e₀, h₀⟩ := new_mirrors (show 1 ≤ smallBook.chunk by decide)
  obtain ⟨b, e, -⟩ := (Book.run_holds smallBook_ok rfl (Book.new_holds smallBook_ok)
    smallRun_wellFormed smallRun_fits).1 _ (Book.new_shows smallBook)
  obtain ⟨w, ew, -⟩ := (run_tracks capturedRun).back (show smallBook.cap < 4294967296 by decide) h₀ e
  exact ⟨w₀, w, _, _, e₀, ew, rfl, (root_frozen (by decide) e₀ ew rfl (by decide)).1⟩

/-- `n` captures in a row. -/
@[irreducible] def captureTimes (n : Nat) : List CowCall := List.replicate n .capture

theorem run_captures {w : CowBook} (hg : w.gen < 18446744073709551616) (n : Nat)
    (calls : List CowCall) : CowBook.run (captureTimes n ++ calls) w =
      CowBook.run calls { w with gen := u64 (w.gen + n) } := by
  unfold captureTimes
  induction n generalizing w with
  | zero =>
    have e : u64 ((w.gen : Int) + (0 : Nat)) = w.gen := by unfold u64; omega
    rw [e]
    rfl
  | succ n ih =>
    have hcall : call .capture w = .ok () { w with gen := u64 (w.gen + 1) } := rfl
    have e : u64 ((u64 ((w.gen : Int) + 1) : Nat) + (n : Nat)) = u64 ((w.gen : Int) + (n + 1 : Nat)) := by
      unfold u64; omega
    have h := @ih { w with gen := u64 (w.gen + 1) } (u64_lt (w.gen + 1))
    rw [CowBook.run] at h
    rw [List.replicate_succ, List.cons_append, CowBook.run, runAll, bind_ok hcall, h, CowBook.run]
    simp only [e]

/-- A book of one slot. -/
def oneSlot : SmrConfig := ⟨1, 1, 1, 0, 1, 1, 100⟩

/-- In generation zero an insert writes slot 0 in place. -/
theorem insert_inPlace : ∃ w₀, CowBook.new oneSlot = .ok w₀ ∧ w₀.gen = 1 ∧
    w₀.order? 0 = some Order.zero ∧ ∃ w, CowBook.run [.op (.insert 1 0 1 0)] { w₀ with gen := 0 } =
      .ok () w ∧ w₀.root.order w.mem 0 = some ⟨1, 0, 1, 0, NIL, NIL, 0⟩ := by
  have h : ((CowBook.new oneSlot).toOption.bind fun w₀ =>
      match CowBook.run [.op (.insert 1 0 1 0)] { w₀ with gen := 0 } with
      | .ok _ w => some (w₀.gen, w₀.order? 0, w₀.root.order w.mem 0)
      | .error _ _ => none) =
      some (1, some Order.zero, some ⟨1, 0, 1, 0, NIL, NIL, 0⟩) := by decide +kernel
  cases e₀ : CowBook.new oneSlot with
  | error p =>
    rw [e₀] at h
    cases h
  | ok w₀ =>
    rw [e₀] at h
    simp only [Except.toOption, Option.bind_some] at h
    cases e : CowBook.run [.op (.insert 1 0 1 0)] { w₀ with gen := 0 } with
    | error p w =>
      rw [e] at h
      cases h
    | ok a w =>
      rw [e] at h
      simp only [Option.some.injEq, Prod.mk.injEq] at h
      exact ⟨w₀, rfl, h.1, h.2.1, w, e, h.2.2⟩

/-- The bound on the captures is needed: the generation is a 64-bit counter, and
once it has come back to zero every chunk is written in place. -/
theorem root_thaws : WellFormed oneSlot [] [.insert 1 0 1 0] ∧
    ∃ w₀ r w' w'', CowBook.new oneSlot = .ok w₀ ∧ CowBook.capture w₀ = .ok r w' ∧
      CowBook.run (captureTimes 18446744073709551614 ++ [.op (.insert 1 0 1 0)]) w' = .ok () w'' ∧
      r.order w'.mem 0 = w₀.order? 0 ∧ r.order w''.mem 0 ≠ w₀.order? 0 := by
  obtain ⟨w₀, e₀, hg, ho, w, e, hw⟩ := insert_inPlace
  have hbump : u64 ((w₀.gen : Int) + 1) = 2 := by rw [hg]; decide
  refine ⟨by decide, w₀, w₀.root, { w₀ with gen := u64 (w₀.gen + 1) }, w, e₀, rfl, ?_, rfl, ?_⟩
  · rw [run_captures (u64_lt (w₀.gen + 1))]
    simp only [hbump]
    exact e
  · rw [hw, ho]
    decide

end CowBook

end HiPerf
