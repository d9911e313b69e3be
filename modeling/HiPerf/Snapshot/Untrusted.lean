import HiPerf.Snapshot.Head
import HiPerf.Snapshot.Mismatch

/-!
Any bytes whatever, given to the decoders. Behind a checksum that is right they
take lengths, counts, levels and slots from the bytes as they are, so they stop
exactly when one of these leads out of the buffer or out of the book.
-/

namespace HiPerf

open Machine Exec Bytes

namespace Decoder

/-- A group lies in the buffer: every block it declares has `size` bytes there,
and the index at offset `key` of the block is below `bound`. -/
structure GroupFits (buf : List UInt8) (start size key bound : Nat) : Prop where
  header : start + 4 ≤ buf.length
  room : ∀ i < fieldAt buf (start + 2) 2,
    start + 4 + fieldAt buf start 2 * i + size ≤ buf.length
  index : ∀ i < fieldAt buf (start + 2) 2,
    fieldAt buf (start + 4 + fieldAt buf start 2 * i + key) 4 < bound

/-- Where the group behind the one at `start` begins. -/
def groupEnd (buf : List UInt8) (start : Nat) : Nat :=
  start + 4 + fieldAt buf start 2 * fieldAt buf (start + 2) 2

/-- Both groups, wherever the header puts them. -/
def GroupsFit (buf : List UInt8) (levels cap : Nat) : Prop :=
  GroupFits buf (HEADER_LEN + fieldAt buf 0 2) LEVELS_BLOCK 1 levels ∧
    GroupFits buf (groupEnd buf (HEADER_LEN + fieldAt buf 0 2)) ORDERS_BLOCK 0 cap

/-- As far as a decoder reads the message, it finds what it reads. -/
def Legible (buf : List UInt8) (levels cap : Nat) : Prop :=
  8 ≤ buf.length ∧ (fieldAt buf 6 2 = 2 → 44 ≤ buf.length ∧
    (fieldAt buf (HEADER_LEN + 20) 4 = cap → 48 ≤ buf.length ∧ GroupsFit buf levels cap))

variable {σ α β : Type} {buf : List UInt8} {s : σ}

/-- The decoder panics. -/
def Stops (x : Restoring σ α) (s : σ) : Prop := ∃ p s', x s = .error (.panic p) s'

theorem Stops.bind {x : Restoring σ α} (h : Stops x s) (f : α → Restoring σ β) :
    Stops (x >>= f) s := by
  obtain ⟨p, s', e⟩ := h
  exact ⟨p, s', bind_error e f⟩

theorem Stops.after {x : Restoring σ α} {a : α} {s₁ : σ} (hx : x s = .ok a s₁)
    {f : α → Restoring σ β} (h : Stops (f a) s₁) : Stops (x >>= f) s := by
  obtain ⟨p, s', e⟩ := h
  exact ⟨p, s', (bind_ok hx f).trans e⟩

/-- A read that finds its bytes, or stops. -/
def Reads (buf : List UInt8) (index k : Nat) (x : Restoring σ α) (s : σ) : Prop :=
  if index + k ≤ buf.length then ∃ a, x s = .ok a s else Stops x s

theorem Reads.ok {x : Restoring σ α} {index k : Nat} (h : Reads buf index k x s)
    (hlen : index + k ≤ buf.length) : ∃ a, x s = .ok a s := by
  rwa [Reads, if_pos hlen] at h

/-- One read after the other stops when the later one does. -/
theorem Reads.stops {x : Restoring σ α} {index k : Nat} (h : Reads buf index k x s)
    {f : α → Restoring σ β} (hf : index + k ≤ buf.length → ∀ a, Stops (f a) s) :
    Stops (x >>= f) s := by
  by_cases hlen : index + k ≤ buf.length
  · obtain ⟨a, e⟩ := h.ok hlen
    exact Stops.after e (hf hlen a)
  · rw [Reads, if_neg hlen] at h
    exact h.bind f

theorem get_reads (index k : Nat) (g : List UInt8 → α) (s : σ) :
    Reads buf index k (get buf index k >>= fun bs => pure (g bs)) s := by
  unfold Reads
  split
  · exact ⟨_, bind_ok (get_run ‹_› s) _⟩
  · exact ⟨_, _, bind_error (get_stops ‹_› s) _⟩

theorem getU8_reads (index : Nat) (s : σ) : Reads buf index 1 (getU8 buf index) s :=
  get_reads index 1 unle s

theorem getU16_reads (index : Nat) (s : σ) : Reads buf index 2 (getU16 buf index) s :=
  get_reads index 2 unle s

theorem getU32_reads (index : Nat) (s : σ) : Reads buf index 4 (getU32 buf index) s :=
  get_reads index 4 unle s

theorem getI32_reads (index : Nat) (s : σ) : Reads buf index 4 (getI32 buf index) s :=
  get_reads index 4 (fun bs => i32 (unle bs)) s

theorem getI64_reads (index : Nat) (s : σ) : Reads buf index 8 (getI64 buf index) s :=
  get_reads index 8 (fun bs => i64 (unle bs)) s

theorem sideU8_le (v : Nat) : sideU8 v ≤ 1 := by
  unfold sideU8
  split <;> omega

/-- The level in the block at `off`. -/
def levelOf (buf : List UInt8) (off : Nat) : LevelRec :=
  (sideU8 (fieldAt buf off 1), fieldAt buf (off + 1) 4,
    { head := fieldAt buf (off + 17) 4
      tail := fieldAt buf (off + 21) 4
      qtyTotal := i64 (fieldAt buf (off + 5) 8)
      count := fieldAt buf (off + 13) 4 })

/-- The slot in the block at `off`. -/
def orderOf (buf : List UInt8) (off : Nat) : OrderRec :=
  (fieldAt buf off 4,
    { orderId := i64 (fieldAt buf (off + 4) 8)
      price := i64 (fieldAt buf (off + 12) 8)
      qty := i64 (fieldAt buf (off + 20) 8)
      filled := i64 (fieldAt buf (off + 28) 8)
      next := fieldAt buf (off + 37) 4
      prev := fieldAt buf (off + 41) 4
      side := sideU8 (fieldAt buf (off + 36) 1) })

theorem getLevel_run {off : Nat} (h : off + LEVELS_BLOCK ≤ buf.length) (s : σ) :
    getLevel buf off s = .ok (levelOf buf off) s := by
  simp only [LEVELS_BLOCK] at h
  rw [getLevel, bind_ok (getU8_run (by omega) s), bind_ok (@getU32_run _ _ (off + 1) (by omega) s),
    bind_ok (@getU32_run _ _ (off + 17) (by omega) s),
    bind_ok (@getU32_run _ _ (off + 21) (by omega) s),
    bind_ok (@getI64_run _ _ (off + 5) (by omega) s),
    bind_ok (@getU32_run _ _ (off + 13) (by omega) s)]
  rfl

theorem getLevel_stops {off : Nat} (h : ¬ off + LEVELS_BLOCK ≤ buf.length) (s : σ) :
    Stops (getLevel buf off) s := by
  refine (getU8_reads off s).stops fun _ _ => (getU32_reads _ s).stops fun _ _ =>
    (getU32_reads _ s).stops fun _ _ => (getU32_reads _ s).stops fun hlen _ => absurd hlen h

theorem getOrder_run {off : Nat} (h : off + ORDERS_BLOCK ≤ buf.length) (s : σ) :
    getOrder buf off s = .ok (orderOf buf off) s := by
  simp only [ORDERS_BLOCK] at h
  rw [getOrder, bind_ok (getU32_run (by omega) s), bind_ok (@getI64_run _ _ (off + 4) (by omega) s),
    bind_ok (@getI64_run _ _ (off + 12) (by omega) s),
    bind_ok (@getI64_run _ _ (off + 20) (by omega) s),
    bind_ok (@getI64_run _ _ (off + 28) (by omega) s),
    bind_ok (@getU32_run _ _ (off + 37) (by omega) s),
    bind_ok (@getU32_run _ _ (off + 41) (by omega) s),
    bind_ok (@getU8_run _ _ (off + 36) (by omega) s)]
  rfl

theorem getOrder_stops {off : Nat} (h : ¬ off + ORDERS_BLOCK ≤ buf.length) (s : σ) :
    Stops (getOrder buf off) s := by
  refine (getU32_reads off s).stops fun _ _ => (getI64_reads _ s).stops fun _ _ =>
    (getI64_reads _ s).stops fun _ _ => (getI64_reads _ s).stops fun _ _ =>
      (getI64_reads _ s).stops fun _ _ => (getU32_reads _ s).stops fun _ _ =>
        (getU32_reads _ s).stops fun hlen _ => absurd hlen h

/-- A book under way takes the levels and slots it has, and stops at any other. -/
structure Bounds (S : Sink σ) (good : σ → Prop) (levels cap : Nat) : Prop where
  setHead : ∀ {s : σ}, good s → ∀ p t n {h : Nat}, h < 4294967296 → ∀ b a,
    good (S.setHead p t n h b a s)
  setFreeHead : ∀ {s : σ}, good s → ∀ f, good (S.setFreeHead f s)
  putLevel : ∀ {s : σ}, good s → ∀ {side : Nat}, side ≤ 1 → ∀ {t : Nat}, t < levels → ∀ l,
    ∃ s', S.putLevel side t l s = .ok () s' ∧ good s'
  putLevel_stops : ∀ {s : σ}, good s → ∀ {t : Nat}, ¬ t < levels → ∀ side l,
    ∃ p s', S.putLevel side t l s = .error p s'
  putOrder : ∀ {s : σ}, good s → ∀ {slot : Nat}, slot < cap → ∀ o,
    ∃ s', S.putOrder slot o s = .ok () s' ∧ good s'
  putOrder_stops : ∀ {s : σ}, good s → ∀ {slot : Nat}, ¬ slot < cap → ∀ o,
    ∃ p s', S.putOrder slot o s = .error p s'

theorem lift_ok {x : Run σ α} {a : α} {s' : σ} (h : x s = .ok a s') : lift x s = .ok a s' := by
  simp only [lift, h]

theorem lift_stops {x : Run σ α} (h : ∃ p s', x s = .error p s') : Stops (lift x) s := by
  obtain ⟨p, s', e⟩ := h
  exact ⟨p, s', by simp only [lift, e]⟩

variable {S : Sink σ} {good : σ → Prop} {levels cap : Nat}

/-- The blocks from the `k`th on: the `k`th, and the rest. -/
theorem forall_from {p : Nat → Prop} {k count : Nat} (hk : k < count) :
    (∀ i, k ≤ i → i < count → p i) ↔ p k ∧ ∀ i, k + 1 ≤ i → i < count → p i := by
  refine ⟨fun h => ⟨h k (Nat.le_refl k) hk, fun i h₁ h₂ => h i (by omega) h₂⟩, fun h i h₁ h₂ => ?_⟩
  obtain rfl | hlt := Nat.eq_or_lt_of_le h₁
  · exact h.1
  · exact h.2 i hlt h₂

/-- The blocks of the levels group from the `k`th on. -/
theorem readLevels_settles (hS : Bounds S good levels cap) {base size count : Nat}
    (hc : count < 65536) (n : Nat) {k : Nat} (hk : k + n = count) {s : σ} (hs : good s) :
    let Fit := ∀ i, k ≤ i → i < count → base + size * i + LEVELS_BLOCK ≤ buf.length ∧
      fieldAt buf (base + size * i + 1) 4 < levels
    (Fit → ∃ s', readLevels S buf n (Group.at base size count k) s =
      .ok (Group.at base size count count) s' ∧ good s') ∧
    (¬ Fit → Stops (readLevels S buf n (Group.at base size count k)) s) := by
  induction n generalizing k s with
  | zero =>
    obtain rfl : k = count := hk
    exact ⟨fun _ => ⟨s, rfl, hs⟩, fun h => absurd (fun i h₁ h₂ => absurd h₁ (by omega)) h⟩
  | succ n ih =>
    have hoff : (Group.at base size count (k + 1)).offset = base + size * k := by simp [Group.at]
    dsimp only
    rw [forall_from (by omega)]
    simp only [readLevels, @Group.advance_at base size count k (by omega) hc, hoff]
    by_cases hroom : base + size * k + LEVELS_BLOCK ≤ buf.length
    · have eget := getLevel_run hroom s
      by_cases hidx : fieldAt buf (base + size * k + 1) 4 < levels
      · obtain ⟨s₁, eput, hs₁⟩ := hS.putLevel hs (sideU8_le _) hidx (levelOf buf (base + size * k)).2.2
        obtain ⟨hok, hstop⟩ := ih (k := k + 1) (by omega) hs₁
        refine ⟨fun h => ?_, fun h => ?_⟩
        · obtain ⟨s', e, hs'⟩ := hok h.2
          exact ⟨s', (bind_ok eget _).trans ((bind_ok (lift_ok eput) _).trans e), hs'⟩
        · exact Stops.after eget (Stops.after (lift_ok eput) (hstop fun h' => h ⟨⟨hroom, hidx⟩, h'⟩))
      · refine ⟨fun h => absurd h.1.2 hidx, fun _ => ?_⟩
        exact Stops.after eget (Stops.bind (lift_stops (hS.putLevel_stops hs hidx _ _)) _)
    · exact ⟨fun h => absurd h.1.1 hroom, fun _ => (getLevel_stops hroom s).bind _⟩

/-- The same of the orders group. -/
theorem readOrders_settles (hS : Bounds S good levels cap) {base size count : Nat}
    (hc : count < 65536) (n : Nat) {k : Nat} (hk : k + n = count) {s : σ} (hs : good s) :
    let Fit := ∀ i, k ≤ i → i < count → base + size * i + ORDERS_BLOCK ≤ buf.length ∧
      fieldAt buf (base + size * i + 0) 4 < cap
    (Fit → ∃ s', readOrders S buf n (Group.at base size count k) s =
      .ok (Group.at base size count count) s' ∧ good s') ∧
    (¬ Fit → Stops (readOrders S buf n (Group.at base size count k)) s) := by
  induction n generalizing k s with
  | zero =>
    obtain rfl : k = count := hk
    exact ⟨fun _ => ⟨s, rfl, hs⟩, fun h => absurd (fun i h₁ h₂ => absurd h₁ (by omega)) h⟩
  | succ n ih =>
    have hoff : (Group.at base size count (k + 1)).offset = base + size * k := by simp [Group.at]
    dsimp only
    rw [forall_from (by omega)]
    simp only [readOrders, @Group.advance_at base size count k (by omega) hc, hoff]
    by_cases hroom : base + size * k + ORDERS_BLOCK ≤ buf.length
    · have eget := getOrder_run hroom s
      by_cases hidx : fieldAt buf (base + size * k + 0) 4 < cap
      · obtain ⟨s₁, eput, hs₁⟩ := hS.putOrder hs hidx (orderOf buf (base + size * k)).2
        obtain ⟨hok, hstop⟩ := ih (k := k + 1) (by omega) hs₁
        refine ⟨fun h => ?_, fun h => ?_⟩
        · obtain ⟨s', e, hs'⟩ := hok h.2
          exact ⟨s', (bind_ok eget _).trans ((bind_ok (lift_ok eput) _).trans e), hs'⟩
        · exact Stops.after eget (Stops.after (lift_ok eput) (hstop fun h' => h ⟨⟨hroom, hidx⟩, h'⟩))
      · refine ⟨fun h => absurd h.1.2 hidx, fun _ => ?_⟩
        exact Stops.after eget (Stops.bind (lift_stops (hS.putOrder_stops hs hidx _)) _)
    · exact ⟨fun h => absurd h.1.1 hroom, fun _ => (getOrder_stops hroom s).bind _⟩

theorem groupWrap_run {start : Nat} (h : start + 4 ≤ buf.length) (s : σ) :
    groupWrap buf start s =
      .ok (Group.at (start + 4) (fieldAt buf start 2) (fieldAt buf (start + 2) 2) 0) s := by
  rw [groupWrap, bind_ok (getU16_run (by omega) s), bind_ok (getU16_run (by omega) s)]
  rfl

theorem groupWrap_stops {start : Nat} (h : ¬ start + 4 ≤ buf.length) (s : σ) :
    Stops (groupWrap buf start) s :=
  (getU16_reads start s).stops fun _ _ => (getU16_reads (start + 2) s).stops fun hlen _ => absurd hlen h

theorem fieldAt_lt (buf : List UInt8) (index k : Nat) : fieldAt buf index k < 256 ^ k := by
  have h := unle_lt (Bytes.get buf index k)
  refine Nat.lt_of_lt_of_le h (Nat.pow_le_pow_right (by decide) ?_)
  rw [Bytes.get, List.length_take]
  exact Nat.min_le_left _ _

/-- A group fits when its header and each of its blocks do. -/
theorem groupFits_iff {start size key bound : Nat} (h : start + 4 ≤ buf.length) :
    GroupFits buf start size key bound ↔ ∀ i, 0 ≤ i → i < fieldAt buf (start + 2) 2 →
      start + 4 + fieldAt buf start 2 * i + size ≤ buf.length ∧
        fieldAt buf (start + 4 + fieldAt buf start 2 * i + key) 4 < bound :=
  ⟨fun hf i _ hi => ⟨hf.room i hi, hf.index i hi⟩,
    fun hf => ⟨h, fun i hi => (hf i (Nat.zero_le i) hi).1, fun i hi => (hf i (Nat.zero_le i) hi).2⟩⟩

theorem groups_settle (hS : Bounds S good levels cap) {start : Nat} {s : σ} (hs : good s) :
    let Fit := GroupFits buf start LEVELS_BLOCK 1 levels ∧
      GroupFits buf (groupEnd buf start) ORDERS_BLOCK 0 cap
    (Fit → ∃ s', groups S buf start s = .ok () s') ∧ (¬ Fit → Stops (groups S buf start) s) := by
  have hcount : ∀ i, fieldAt buf i 2 < 65536 := fun i => fieldAt_lt buf i 2
  dsimp only
  unfold groups
  by_cases h₁ : start + 4 ≤ buf.length
  · have ewrap := groupWrap_run h₁ s
    obtain ⟨hok, hstop⟩ := @readLevels_settles _ buf _ _ _ _ hS (start + 4) (fieldAt buf start 2) _
      (hcount (start + 2)) (fieldAt buf (start + 2) 2) 0 (Nat.zero_add _) s hs
    rw [← groupFits_iff h₁] at hok hstop
    by_cases hlevels : GroupFits buf start LEVELS_BLOCK 1 levels
    · obtain ⟨s₁, elevels, hs₁⟩ := hok hlevels
      by_cases h₂ : groupEnd buf start + 4 ≤ buf.length
      · have ewrap' := groupWrap_run h₂ s₁
        obtain ⟨hok', hstop'⟩ := @readOrders_settles _ buf _ _ _ _ hS (groupEnd buf start + 4)
          (fieldAt buf (groupEnd buf start) 2) _ (hcount (groupEnd buf start + 2))
          (fieldAt buf (groupEnd buf start + 2) 2) 0 (Nat.zero_add _) s₁ hs₁
        rw [← groupFits_iff h₂] at hok' hstop'
        refine ⟨fun h => ?_, fun h => ?_⟩
        · obtain ⟨s₂, eorders, -⟩ := hok' h.2
          exact ⟨s₂, (bind_ok ewrap _).trans ((bind_ok elevels _).trans ((bind_ok ewrap' _).trans
            (bind_ok eorders _)))⟩
        · exact Stops.after ewrap (Stops.after elevels (Stops.after ewrap'
            ((hstop' fun h' => h ⟨hlevels, h'⟩).bind _)))
      · exact ⟨fun h => absurd h.2.header h₂,
          fun _ => Stops.after ewrap (Stops.after elevels ((groupWrap_stops h₂ s₁).bind _))⟩
    · exact ⟨fun h => absurd h.1 hlevels, fun _ => Stops.after ewrap ((hstop hlevels).bind _)⟩
  · exact ⟨fun h => absurd h.1.header h₁, fun _ => (groupWrap_stops h₁ s).bind _⟩

/-- A message of the right version with no room for the scalars. -/
theorem message_stops (hlen : ¬ 44 ≤ buf.length) (hv : fieldAt buf 6 2 = 2) (s : σ) :
    Stops (message S buf cap) s := by
  unfold message
  by_cases h₈ : 8 ≤ buf.length
  · refine Stops.after (getU16_run h₈ s) ?_
    dsimp only
    rw [if_neg (not_not.mpr hv)]
    exact (getU16_reads 0 s).stops fun _ _ => (getI64_reads _ s).stops fun _ _ =>
      (getI64_reads _ s).stops fun _ _ => (getU32_reads _ s).stops fun _ _ =>
        (getU32_reads _ s).stops fun _ _ => (getI32_reads _ s).stops fun _ _ =>
          (getI32_reads _ s).stops fun h _ => absurd h hlen
  · exact (getU16_reads 6 s).stops fun h => absurd h h₈

/-- A message that a decoder can read to the end, or to the field it refuses,
makes a book or an error; any other stops the decoder. -/
theorem message_settles (hS : cap < 4294967296 → Bounds S good levels cap)
    (hhead : ∀ {s : σ}, good s → ∀ p t n {h : Nat}, h < 4294967296 → ∀ b a,
      good (S.setHead p t n h b a s)) {s : σ} (hs : good s) :
    (Legible buf levels cap → (∃ s', message S buf cap s = .ok () s') ∨
      ∃ text s', message S buf cap s = .error (.err text) s') ∧
    (¬ Legible buf levels cap → Stops (message S buf cap) s) := by
  by_cases hv : fieldAt buf 6 2 = 2
  · by_cases h₄₄ : 44 ≤ buf.length
    · have h₈ : 8 ≤ buf.length := (by decide : 8 ≤ 44).trans h₄₄
      have hfront := @message_front _ S buf cap h₄₄ hv s
      by_cases hcap : fieldAt buf (HEADER_LEN + 20) 4 = cap
      · have hlt : cap < 4294967296 := hcap ▸ fieldAt_lt buf _ 4
        have hgood : good (setFront S buf s) := hhead hs _ _ _ (fieldAt_lt buf _ 4) _ _
        rw [if_neg (not_not.mpr hcap)] at hfront
        by_cases h₄₈ : 48 ≤ buf.length
        · rw [bind_ok (@getU32_run _ buf (HEADER_LEN + 36) h₄₈ _), modify_bind] at hfront
          obtain ⟨hok, hstop⟩ := @groups_settle _ buf _ _ _ _ (hS hlt) (HEADER_LEN + fieldAt buf 0 2) _
            ((hS hlt).setFreeHead hgood (fieldAt buf (HEADER_LEN + 36) 4))
          refine ⟨fun h => ?_, fun h => ?_⟩
          · obtain ⟨s', e⟩ := hok ((h.2 hv).2 hcap).2
            exact .inl ⟨s', hfront.trans e⟩
          · obtain ⟨p, s', e⟩ := hstop fun hfit => h ⟨h₈, fun _ => ⟨h₄₄, fun _ => ⟨h₄₈, hfit⟩⟩⟩
            exact ⟨p, s', hfront.trans e⟩
        · refine ⟨fun h => absurd ((h.2 hv).2 hcap).1 h₄₈, fun _ => ?_⟩
          obtain ⟨p, s', e⟩ := (@getU32_reads _ buf (HEADER_LEN + 36) (setFront S buf s)).stops
            (f := fun freeHead => do
              modify (S.setFreeHead freeHead)
              groups S buf (HEADER_LEN + fieldAt buf 0 2)) fun hlen => absurd hlen h₄₈
          exact ⟨p, s', hfront.trans e⟩
      · refine ⟨fun _ => .inr ?_, fun h => absurd ⟨h₈, fun _ => ⟨h₄₄, fun h => absurd h hcap⟩⟩ h⟩
        obtain ⟨text, e⟩ := message_capacity S h₄₄ hv hcap s
        exact ⟨text, _, e⟩
    · exact ⟨fun h => absurd (h.2 hv).1 h₄₄, fun _ => message_stops h₄₄ hv s⟩
  · by_cases h₈ : 8 ≤ buf.length
    · obtain ⟨text, e⟩ := @message_version _ S buf cap h₈ hv s
      exact ⟨fun _ => .inr ⟨text, s, e⟩, fun h => absurd ⟨h₈, fun h => absurd h hv⟩ h⟩
    · exact ⟨fun h => absurd h.1 h₈, fun _ => (getU16_reads 6 s).stops fun hlen => absurd hlen h₈⟩

/-- What the decoders make an error of, or can read: too few bytes for a
checksum, a checksum that is wrong, or a legible message behind one that is right. -/
def Handled (crc32c : List UInt8 → UInt32) (image : List UInt8) (levels cap : Nat) : Prop :=
  image.length < 4 ∨
    (crc32c (image.take (image.length - 4))).toNat ≠ unle (image.drop (image.length - 4)) ∨
    Legible (image.take (image.length - 4)) levels cap

/-- A result that is no panic. -/
def Settled {σ : Type} (r : Except Fault σ) : Prop := (∃ x, r = .ok x) ∨ ∃ text, r = .error (.err text)

theorem into_settled_iff (hS : cap < 4294967296 → Bounds S good levels cap)
    (hhead : ∀ {s : σ}, good s → ∀ p t n {h : Nat}, h < 4294967296 → ∀ b a,
      good (S.setHead p t n h b a s)) {s : σ} (hs : good s) (crc32c : List UInt8 → UInt32)
    (image : List UInt8) :
    Settled (checked crc32c image >>= fun buf => into S buf cap s) ↔
      Handled crc32c image levels cap := by
  unfold checked Handled
  by_cases hshort : image.length < 4
  · rw [if_pos hshort]
    exact iff_of_true (.inr ⟨_, rfl⟩) (.inl hshort)
  rw [if_neg hshort]
  dsimp only
  by_cases hcrc : (crc32c (image.take (image.length - 4))).toNat ≠ unle (image.drop (image.length - 4))
  · rw [if_pos hcrc]
    exact iff_of_true (.inr ⟨_, rfl⟩) (.inr (.inl hcrc))
  rw [if_neg hcrc]
  obtain ⟨hok, hstop⟩ := @message_settles _ (image.take (image.length - 4)) _ _ _ _ hS hhead s hs
  change Settled (into S _ cap s) ↔ _
  unfold into
  by_cases hleg : Legible (image.take (image.length - 4)) levels cap
  · refine iff_of_true ?_ (.inr (.inr hleg))
    obtain ⟨s', e⟩ | ⟨text, s', e⟩ := hok hleg
    · rw [e]
      exact .inl ⟨s', rfl⟩
    · rw [e]
      exact .inr ⟨text, rfl⟩
  · refine iff_of_false ?_ fun h => hleg ((h.resolve_left hshort).resolve_left hcrc)
    obtain ⟨p, s', e⟩ := hstop hleg
    rw [e]
    rintro (⟨x, e⟩ | ⟨text, e⟩)
    · cases e
    · cases e

end Decoder

open Decoder

/-- A flat book under way. -/
def Book.Sized (cfg : SmrConfig) (b : Book) : Prop :=
  b.bids.size = cfg.levels ∧ b.asks.size = cfg.levels ∧ b.pool.size = cfg.cap

variable {cfg : SmrConfig}

theorem Book.Sized.lane {b : Book} (h : b.Sized cfg) (side : Nat) : (b.lane side).size = cfg.levels := by
  unfold Book.lane
  split
  · exact h.1
  · exact h.2.1

theorem Book.bounds (cfg : SmrConfig) : Bounds Book.sink (Book.Sized cfg) cfg.levels cfg.cap where
  setHead h _ _ _ _ _ _ _ := h
  setFreeHead h _ := h
  putLevel {b} h side hs t ht l := by
    have hlt : t < (b.lane side).size := by rw [h.lane]; exact ht
    refine ⟨_, by simp only [Book.sink, Book.setLevel, hlt, if_true]; rfl, ?_⟩
    obtain ⟨h₁, h₂, h₃⟩ := h
    split
    · exact ⟨by simpa using h₁, h₂, h₃⟩
    · exact ⟨h₁, by simpa using h₂, h₃⟩
  putLevel_stops {b} h t ht side l := by
    have hlt : ¬ t < (b.lane side).size := by rw [h.lane]; exact ht
    exact ⟨_, _, by simp only [Book.sink, Book.setLevel, hlt, if_false]; rfl⟩
  putOrder {b} h slot hs o := by
    have hlt : slot < b.pool.size := by rw [h.2.2]; exact hs
    have e : Book.setOrder slot o b = .ok () { b with pool := b.pool.setIfInBounds slot o } := by
      simp only [Book.setOrder, hlt, if_true]
    obtain ⟨h₁, h₂, h₃⟩ := h
    simp only [Book.sink, bind_ok e, ite_run]
    split
    · exact ⟨_, rfl, h₁, h₂, by simpa using h₃⟩
    · exact ⟨_, rfl, h₁, h₂, by simpa using h₃⟩
  putOrder_stops {b} h slot hs o := by
    have hlt : ¬ slot < b.pool.size := by rw [h.2.2]; exact hs
    have e : Book.setOrder slot o b = .error .indexOutOfBounds b := by
      simp only [Book.setOrder, hlt, if_false]
    exact ⟨_, _, bind_error e _⟩

theorem Book.new_sized (cfg : SmrConfig) : (Book.new cfg).Sized cfg :=
  ⟨Array.size_replicate, Array.size_replicate, Array.size_replicate⟩

/-- A copy-on-write book under way shows a flat one. -/
def CowBook.Sized (cfg : SmrConfig) (w : CowBook) : Prop :=
  ∃ b, CowBook.Mirrors cfg.cap w b ∧ b.Sized cfg

theorem CowBook.setHead_sized {w : CowBook} (hw : w.Sized cfg) (p t : Int) (n : Nat) {h : Nat}
    (hh : h < 4294967296) (bb ba : Int) : (CowBook.sink.setHead p t n h bb ba w).Sized cfg := by
  obtain ⟨b, hm, hb⟩ := hw
  exact ⟨Book.sink.setHead p t n h bb ba b, { hm with
    priceMin := rfl
    tick := rfl
    nLevels := rfl
    hwm := rfl
    hwm_lt := hh
    bestBid := rfl
    bestAsk := rfl }, hb⟩

theorem CowBook.bounds (hcap : cfg.cap < 4294967296) :
    Bounds CowBook.sink (CowBook.Sized cfg) cfg.levels cfg.cap where
  setHead h _ _ _ _ hh _ _ := CowBook.setHead_sized h _ _ _ hh _ _
  setFreeHead := by
    rintro w ⟨b, hm, hb⟩ f
    exact ⟨Book.sink.setFreeHead f b, { hm with freeHead := rfl }, hb⟩
  putLevel := by
    rintro w ⟨b, hm, hb⟩ side hs t ht l
    obtain ⟨b', e, hb'⟩ := (Book.bounds cfg).putLevel hb hs ht l
    obtain ⟨w', e', hm'⟩ := (CowBook.putLevel_tracks side t l).back hcap hm e
    exact ⟨w', e', b', hm', hb'⟩
  putLevel_stops := by
    rintro w ⟨b, hm, hb⟩ t ht side l
    obtain ⟨p, b', e⟩ := (Book.bounds cfg).putLevel_stops hb ht side l
    cases e' : CowBook.sink.putLevel side t l w with
    | error p w' => exact ⟨p, w', rfl⟩
    | ok a w' =>
      obtain ⟨b'', e'', -⟩ := (CowBook.putLevel_tracks side t l).forth hm e'
      rw [e] at e''
      cases e''
  putOrder := by
    rintro w ⟨b, hm, hb⟩ slot hs o
    obtain ⟨b', e, hb'⟩ := (Book.bounds cfg).putOrder hb hs o
    obtain ⟨w', e', hm'⟩ := (CowBook.putOrder_tracks slot o).back hcap hm e
    exact ⟨w', e', b', hm', hb'⟩
  putOrder_stops := by
    rintro w ⟨b, hm, hb⟩ slot hs o
    obtain ⟨p, b', e⟩ := (Book.bounds cfg).putOrder_stops hb hs o
    cases e' : CowBook.sink.putOrder slot o w with
    | error p w' => exact ⟨p, w', rfl⟩
    | ok a w' =>
      obtain ⟨b'', e'', -⟩ := (CowBook.putOrder_tracks slot o).forth hm e'
      rw [e] at e''
      cases e''

/-- On any bytes, under every configuration the loader lets through, either
decoder returns a book or an error exactly when the bytes are handled; on all
others it panics. -/
theorem restore_settled_iff (hcfg : cfg.Accepted) (crc32c : List UInt8 → UInt32)
    (image : List UInt8) :
    (Settled (Book.restore crc32c image cfg) ↔ Handled crc32c image cfg.levels cfg.cap) ∧
      (Settled (restoreCow crc32c image cfg) ↔ Handled crc32c image cfg.levels cfg.cap) := by
  refine ⟨?_, ?_⟩
  · exact into_settled_iff (fun _ => Book.bounds cfg) (fun h _ _ _ _ _ _ _ => h) (Book.new_sized cfg)
      crc32c image
  · obtain ⟨w₀, e₀, h₀⟩ := CowBook.new_mirrors hcfg.chunk_pos
    have e : restoreCow crc32c image cfg =
        checked crc32c image >>= fun buf => into CowBook.sink buf cfg.cap w₀ := by
      rw [restoreCow, e₀]
    rw [e]
    exact into_settled_iff CowBook.bounds (fun h _ _ _ _ hh _ _ => CowBook.setHead_sized h _ _ _ hh _ _)
      ⟨_, h₀, Book.new_sized cfg⟩ crc32c image

/-- An image of a version that is no longer read. -/
theorem restore_settled_iff_oldVersion :
    Settled (Book.restore crc32c (([40, 0, 1, 0, 8, 0, 1, 0] : List UInt8) ++
      le 4 (crc32c [40, 0, 1, 0, 8, 0, 1, 0]).toNat) smallBook) := by
  refine ((restore_settled_iff smallBook_accepted crc32c _).1).mpr (.inr (.inr ⟨by decide, fun h => ?_⟩))
  exact absurd h (by decide)

/-- Four zero bytes are an empty message behind a right checksum. The first read
of either decoder is then out of bounds. -/
theorem restore_panics_empty :
    smallBook.Accepted ∧
      Book.restore crc32c [0, 0, 0, 0] smallBook = .error (.panic .indexOutOfBounds) ∧
      restoreCow crc32c [0, 0, 0, 0] smallBook = .error (.panic .indexOutOfBounds) := by
  have hchecked : checked crc32c [0, 0, 0, 0] = .ok [] := by decide +kernel
  refine ⟨smallBook_accepted, ?_, ?_⟩
  · rw [Book.restore, hchecked]
    rfl
  · obtain ⟨w₀, e₀, -⟩ := CowBook.new_mirrors smallBook_accepted.chunk_pos
    rw [restoreCow, hchecked, e₀]
    rfl

end HiPerf
