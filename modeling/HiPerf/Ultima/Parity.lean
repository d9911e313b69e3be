import HiPerf.Ultima.Image

/-!
As long as no order is taken out, both stores use the slots one after the other,
and their images are the same bytes.
-/

namespace HiPerf

open Machine Tables Exec Bytes

/-- The call takes no order out. -/
def Op.Keeps : Op → Prop
  | .insert .. => True
  | .update .. => True
  | .cancel _ => False
  | .fill _ => False

instance Op.decidableKeeps : ∀ op : Op, Decidable op.Keeps
  | .insert .. => isTrue trivial
  | .update .. => isTrue trivial
  | .cancel _ => isFalse id
  | .fill _ => isFalse id

/-- No slot was ever given back, and the next order gets the lowest fresh one. -/
structure Tape.Dense (m : Tape) : Prop where
  freeHead : m.flat.freeHead = NIL
  next : m.next = m.flat.hwm

theorem Tape.Dense.step {m : Tape} (h : m.Dense) {op : Op} (hk : op.Keeps)
    (hroom : m.next + op.inserts ≤ NIL) : (m.step op).Dense ∧ (m.step op).flat = m.flat.step op := by
  cases op with
  | insert orderId price qty side =>
    have hslot : m.flat.nextSlot = m.next := by rw [Flat.nextSlot, if_neg (not_not.mpr h.freeHead), h.next]
    have halloc : m.flat.alloc = m.flat.setHwm (u32 (m.next + 1)) := by
      rw [Flat.alloc, if_neg (not_not.mpr h.freeHead), h.next]
      rfl
    have hu : u32 (m.next + 1) = m.next + 1 :=
      u32_eq_self (n := m.next + 1) (by simp only [NIL, Op.inserts] at hroom; omega)
    refine ⟨⟨h.freeHead, hu.symm⟩, ?_⟩
    rw [Flat.step, Flat.insert, hslot, halloc]
    rfl
  | update orderId fillQty =>
    simp only [Tape.step, Flat.step]
    cases m.flat.ids orderId with
    | none => exact ⟨h, rfl⟩
    | some slot => exact ⟨⟨h.freeHead, h.next⟩, rfl⟩
  | cancel orderId => exact hk.elim
  | fill orderId => exact hk.elim

theorem Tape.Dense.steps {m : Tape} (h : m.Dense) {ops : List Op} (hk : ∀ op ∈ ops, op.Keeps)
    (hroom : m.next + inserts ops ≤ NIL) :
    (m.steps ops).Dense ∧ (m.steps ops).flat = m.flat.steps ops := by
  induction ops generalizing m with
  | nil => exact ⟨h, rfl⟩
  | cons op ops ih =>
    rw [inserts, List.map_cons, List.sum_cons] at hroom
    obtain ⟨h₁, e₁⟩ := h.step (hk op (by simp)) (by omega)
    obtain ⟨h', e'⟩ := ih h₁ (fun o ho => hk o (by simp [ho]))
      (by rw [m.step_next]; unfold inserts; omega)
    refine ⟨h', e'.trans ?_⟩
    rw [e₁]
    rfl

/-- With nothing on the free list every slot below the mark is in use. -/
theorem FreeList.slots_eq {f : Flat} {L : Ledger} {fl : List Nat} (h : FreeList f L fl)
    (hf : f.freeHead = NIL) : f.slots = List.range f.hwm := by
  have hnil : fl = [] := h.chain.eq_nil_iff.mp hf
  have hlive : ∀ s ∈ List.range' 0 f.hwm, decide ((f.ord s).orderId ≠ 0) = true := by
    intro s hs
    rw [decide_eq_true_eq]
    intro h0
    have := (h.mem_iff s).mpr ⟨by simpa using hs, h0⟩
    rw [hnil] at this
    cases this
  rw [Flat.slots, Digest.liveSlots, List.filter_eq_self.mpr hlive, List.range_eq_range']

theorem slotsFit_of_inserts {L : Ledger} {ops : List Op} (hins : L.length + inserts ops ≤ NIL) :
    SlotsFit L ops := by
  induction ops generalizing L with
  | nil => trivial
  | cons op ops ih =>
    have hle := L.length_apply_le op
    rw [inserts, List.map_cons, List.sum_cons] at hins
    refine ⟨?_, ih (by unfold inserts; omega)⟩
    cases op with
    | insert orderId price qty side =>
      simp only [Op.inserts] at hins
      exact (by omega : L.length < NIL)
    | update orderId n => trivial
    | cancel orderId => trivial
    | fill orderId => trivial

/-- The offsets of the prices are what `Fits` adds to the room for the slot numbers. -/
theorem SlotsFit.fits {cfg : SmrConfig} {L : Ledger} {ops : List Op} (h : SlotsFit L ops)
    (hoff : ∀ op ∈ ops, op.OffsetFits cfg) : Fits cfg L ops := by
  induction ops generalizing L with
  | nil => trivial
  | cons op ops ih =>
    refine ⟨?_, ih h.2 fun o ho => hoff o (by simp [ho])⟩
    have hop := hoff op (by simp)
    cases op with
    | insert orderId price qty side => exact ⟨hop, h.1⟩
    | update orderId n => trivial
    | cancel orderId => trivial
    | fill orderId => trivial

namespace UltimaBook

/-- After every call of a well-formed stream of inserts and updates whose price offsets are
64-bit values, the image of the book of rows is that of the flat book, byte for byte. -/
theorem images_agree {db : Db} {u₀ : UltimaBook db} {cfg : SmrConfig} {ops pre : List Op}
    (hdb : db.Lawful) (hg : cfg.grid.Ok) (h₀ : new db cfg = .ok u₀) (hwf : WellFormed cfg [] ops)
    (hoff : ∀ op ∈ ops, op.OffsetFits cfg) (hkeep : ∀ op ∈ ops, op.Keeps)
    (hins : inserts ops ≤ min cfg.cap 65535) (hpre : pre <+: ops) (hne : 1 ≤ inserts pre)
    (crc32c : List UInt8 → UInt32) :
    ∃ b u, Book.run pre (Book.new cfg) = .ok () b ∧ run pre u₀ = .ok () u ∧
      ∀ buf buf', b.source.room ≤ buf.length → b.source.room ≤ buf'.length →
        ∃ data len data' len', b.encode crc32c buf = .ok (data, len) ∧
          encodeAt crc32c u.store u.version buf' = .ok (data', len') ∧
          data'.take len' = data.take len := by
  have hins' : inserts pre ≤ 65535 := by
    obtain ⟨post, rfl⟩ := hpre
    rw [inserts_append] at hins
    omega
  have hnil : inserts pre ≤ NIL := hins'.trans (by decide)
  have hpre' : pre ≠ [] := by
    rintro rfl
    cases hne
  have hwfp := hwf.prefix_of hpre
  have hoffp : ∀ op ∈ pre, op.OffsetFits cfg := fun op hop => hoff op (hpre.subset hop)
  have hfit : Fits cfg [] pre := (slotsFit_of_inserts (by simpa using hnil)).fits hoffp
  obtain ⟨hruns, ⟨q, fl, hrep, hfl, hcap⟩, -⟩ := Book.run_holds hg rfl (Book.new_holds hg) hwfp hfit
  obtain ⟨b, eb, hb⟩ := hruns _ (Book.new_shows cfg)
  obtain ⟨u, eu, hu, ⟨q', hs⟩, -⟩ := run_new hdb hg h₀ (hwfp.admitted_of hg hoffp) hnil
  obtain ⟨hdense, hflat⟩ := @Tape.Dense.steps (blankTape cfg) ⟨rfl, rfl⟩ pre
    (fun op hop => hkeep op (hpre.subset hop)) (by simpa [blankTape] using hnil)
  have hnext := (blankTape cfg).steps_next pre
  have hu := hu hpre'
  generalize (blankTape cfg).steps pre = m at hu hs hdense hflat hnext
  obtain ⟨f, n⟩ := m
  have hf : f = (Book.new cfg).view.steps pre := hflat
  rw [← hf] at hb hrep hfl hcap
  have hhwm : f.hwm ≤ 65535 := by
    have hn : n = f.hwm := hdense.next
    have hn' : n = 0 + inserts pre := hnext
    omega
  have hcount := hfl.count
  have hslots := hfl.slots_eq hdense.freeHead
  have hnarrow := CowBook.run_narrow eb
  have himage := hb.image_eq hnarrow hrep hcap hhwm
  have hroom : b.source.room = 60 + LEVELS_BLOCK * f.levelRecs.length + ORDERS_BLOCK * f.hwm := by
    rw [Source.room, hb.levelRecs_eq hnarrow, Book.hwm_source hb]
  refine ⟨b, u, eb, eu, fun buf buf' hbuf hbuf' => ?_⟩
  obtain ⟨data, e, hdata⟩ := Encoder.encode_ok crc32c (Book.source_readable hb hrep hcap)
    (Book.noEmptyGroup hb hrep hhwm) hbuf
  obtain ⟨data', len', e', hdata'⟩ := hu.encodeAt hdb hs (by omega) crc32c
    (show _ ≤ buf'.length by
      have := Nat.mul_le_mul_left ORDERS_BLOCK (show (Ledger.after [] pre).length ≤ f.hwm by omega)
      dsimp only
      omega)
  refine ⟨data, _, data', len', e, e', ?_⟩
  rw [hdata, hdata', himage]
  exact congrArg (fun slots => Encoder.sealed crc32c (f.image (u32 cfg.cap) slots)) hslots

/-- A price offset beyond 64 bits stops the flat book, and there is no image of it. -/
theorem images_stop_wideLadder :
    wideLadder.grid.Ok ∧ WellFormed wideLadder [] [.insert 1 4611686018427387904 1 0] ∧
      (∀ op ∈ [Op.insert 1 4611686018427387904 1 0], op.Keeps) ∧
      inserts [.insert 1 4611686018427387904 1 0] ≤ min wideLadder.cap 65535 ∧
      ∃ b, Book.run [.insert 1 4611686018427387904 1 0] (Book.new wideLadder) =
        .error .indexOutOfBounds b :=
  ⟨⟨by decide, by decide, by decide, by decide, by decide⟩, by decide, by decide, by decide, _, rfl⟩

/-- Three orders come to rest, and one of them is partly filled. -/
def restingRun : List Op := smallRun.take 4

theorem images_agree_restingRun : ∃ u₀ b u, new reference smallBook = .ok u₀ ∧
    Book.run restingRun (Book.new smallBook) = .ok () b ∧ run restingRun u₀ = .ok () u ∧
    ∀ buf buf', b.source.room ≤ buf.length → b.source.room ≤ buf'.length →
      ∃ data len data' len', b.encode crc32c buf = .ok (data, len) ∧
        encodeAt crc32c u.store u.version buf' = .ok (data', len') ∧
        data'.take len' = data.take len := by
  obtain ⟨u₀, e₀, -⟩ := new_opens reference_lawful smallBook
  have hwf : WellFormed smallBook [] restingRun := by decide
  obtain ⟨b, u, h⟩ := images_agree reference_lawful smallBook_ok e₀ hwf (by decide) (by decide)
    (by decide) List.prefix_rfl (by decide) crc32c
  exact ⟨u₀, b, u, e₀, h⟩

end UltimaBook

end HiPerf
