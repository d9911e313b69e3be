import HiPerf.Lib.Along
import HiPerf.Snapshot.RoundTrip

/-!
The front of an image. Whatever happens in the groups, an encoder that ends has
written the header and the scalars, and a decoder looks at these first.
-/

namespace HiPerf

open Machine Exec Bytes

/-- The fields every image starts with. -/
def Source.head (v : Source) : List Field := headerFields ++ v.scalars.fields

namespace Encoder

variable {v : Source} {e e' : Encoder}

theorem head_width (v : Source) : width v.head = 48 := rfl

theorem put_keeps {pre buf bs : List UInt8} {i : Nat} (h : pre <+: buf) (hi : pre.length ≤ i) :
    pre <+: Bytes.put buf i bs := by
  have htake : pre <+: buf.take i := by
    rw [List.prefix_iff_eq_take] at h ⊢
    rw [List.take_take, Nat.min_eq_left hi]
    exact h
  rw [Bytes.put, List.append_assoc]
  exact htake.trans (List.prefix_append _ _)

theorem put_ok {i : Nat} {bs : List UInt8} (h : put i bs e = .ok () e') :
    i + bs.length ≤ e.data.length ∧ e' = { e with data := Bytes.put e.data i bs } := by
  unfold put at h
  split at h
  · rename_i hb
    cases h
    exact ⟨hb.2, rfl⟩
  · cases h

/-- Fields written right behind others. -/
theorem putAll_ok {fs : List Field} {before : List Field} {i : Nat} (hpre : bytes before <+: e.data)
    (hi : i = width before) (h : putAll i fs e = .ok () e') :
    bytes (before ++ fs) <+: e'.data ∧ e'.limit = e.limit := by
  induction fs generalizing e before i with
  | nil =>
    cases h
    rw [List.append_nil]
    exact ⟨hpre, rfl⟩
  | cons f fs ih =>
    obtain ⟨_, e₁, h₁, h₂⟩ := bind_eq_ok.mp h
    obtain ⟨-, rfl⟩ := put_ok h₁
    have hput := put_prefix (le f.1 f.2) hpre
    rw [bytes_length, ← hi] at hput
    have hpre' : bytes (before ++ [f]) <+: Bytes.put e.data i (le f.1 f.2) := by
      simpa [bytes_append, bytes_cons] using hput
    have := ih hpre' (by rw [width_append, ← hi]; simp) h₂
    rwa [List.append_assoc] at this

/-- The front is written, and what is claimed next lies behind it. -/
structure Fronted (v : Source) (e : Encoder) : Prop where
  front : bytes v.head <+: e.data
  limit : 48 ≤ e.limit

structure Headed (v : Source) (e : Encoder) : Prop extends Fronted v e where
  offset : 48 ≤ e.offset

theorem put_headed {i : Nat} (hi : 48 ≤ i) (bs : List UInt8) : Preserves (Headed v) (put i bs) := by
  intro e _ e' he h
  obtain ⟨-, rfl⟩ := put_ok h
  exact ⟨⟨put_keeps he.front (by rw [bytes_length, head_width]; exact hi), he.limit⟩, he.offset⟩

theorem putAll_headed {i : Nat} (hi : 48 ≤ i) (fs : List Field) :
    Preserves (Headed v) (putAll i fs) := by
  induction fs generalizing i with
  | nil => exact Preserves.pure _
  | cons f fs ih => exact (put_headed hi _).bind fun _ => ih (by omega)

theorem groupWrap_headed {size count : Nat} (he : Fronted v e)
    (h : groupWrap size count e = .ok () e') : Headed v e' := by
  simp only [groupWrap, get_bind, setLimit, modify_bind] at h
  obtain ⟨_, e₁, h₁, h⟩ := bind_eq_ok.mp h
  obtain ⟨_, e₂, h₂, h⟩ := bind_eq_ok.mp h
  obtain ⟨-, rfl⟩ := put_ok h₁
  obtain ⟨-, rfl⟩ := put_ok h₂
  cases h
  have hlen : (bytes v.head).length = 48 := by rw [bytes_length, head_width]
  have hlimit := he.limit
  have hmax : 48 ≤ USIZE_MAX := by decide
  refine ⟨⟨put_keeps (put_keeps he.front ?_) ?_, Nat.le_add_right_of_le hlimit⟩, hmax⟩
  · rw [hlen]; exact hlimit
  · rw [hlen]; omega

theorem advance_headed (size : Nat) : Preserves (Headed v) (advance size) := by
  refine Preserves.get_bind fun e _ => Preserves.ite (fun _ => Preserves.pure _) fun _ => ?_
  intro e₁ _ e' he₁ h
  cases h
  exact ⟨⟨he₁.front, Nat.le_add_right_of_le he₁.limit⟩, he₁.limit⟩

theorem block_headed (size : Nat) (fs : List Field) : Preserves (Headed v)
    (advance size >>= fun _ => get >>= fun e => putAll e.offset fs) :=
  (advance_headed size).bind fun _ => Preserves.get_bind fun _ he => putAll_headed he.offset fs

theorem read_headed {α : Type} (a : Option α) : Preserves (Headed v) (read a) := by
  cases a with
  | none => exact Preserves.throw _
  | some a => exact Preserves.pure a

theorem putLane_headed (side : Nat) (level : Nat → Option PriceLevel) (t n : Nat) :
    Preserves (Headed v) (putLane side level t n) := by
  induction n generalizing t with
  | zero => exact Preserves.pure _
  | succ n ih =>
    refine (read_headed _).bind fun lvl => Preserves.ite (fun _ => ih _) fun _ => ?_
    rw [putLevel_eq]
    exact (block_headed _ _).bind fun _ => ih _

theorem putOrders_headed (order : Nat → Option Order) (slot n : Nat) :
    Preserves (Headed v) (putOrders order slot n) := by
  induction n generalizing slot with
  | zero => exact Preserves.pure _
  | succ n ih =>
    refine (read_headed _).bind fun o => ?_
    rw [putOrder_eq]
    exact (block_headed _ _).bind fun _ => ih _

theorem countLane_keeps {level : Nat → Option PriceLevel} {t n c k : Nat}
    (h : countLane level t n c e = .ok k e') : e' = e := by
  induction n generalizing t c with
  | zero => cases h; rfl
  | succ n ih =>
    cases hl : level t with
    | none => rw [countLane, hl] at h; cases h
    | some l =>
      rw [countLane, hl] at h
      simp only [read, pure_bind] at h
      exact ih h

/-- An encoder that ends has written the front, its length and its checksum. -/
theorem encode_head {crc32c : List UInt8 → UInt32} {buf data : List UInt8} {len : Nat}
    (h : encode crc32c v buf = .ok (data, len)) :
    ∃ body, data.take len = body ++ le 4 (crc32c body).toNat ∧ bytes v.head <+: body := by
  cases hrun : (message v >>= trailer crc32c) ⟨buf, 0, 0, 0, 0⟩ with
  | error p e => rw [encode, hrun] at h; cases h
  | ok n e =>
    rw [encode, hrun] at h
    cases h
    obtain ⟨m, e₁, hmsg, htrail⟩ := bind_eq_ok.mp hrun
    have hmessage : m = e₁.limit ∧ Headed v e₁ := by
      unfold message at hmsg
      obtain ⟨c₀, s₀, h₀, hmsg⟩ := bind_eq_ok.mp hmsg
      obtain rfl := countLane_keeps h₀
      obtain ⟨c₁, s₁, h₁, hmsg⟩ := bind_eq_ok.mp hmsg
      obtain rfl := countLane_keeps h₁
      rw [setLimit, modify_bind] at hmsg
      obtain ⟨_, s₂, h₂, hmsg⟩ := bind_eq_ok.mp hmsg
      obtain ⟨_, s₃, h₃, hmsg⟩ := bind_eq_ok.mp hmsg
      obtain ⟨_, s₄, h₄, hmsg⟩ := bind_eq_ok.mp hmsg
      obtain ⟨_, s₅, h₅, hmsg⟩ := bind_eq_ok.mp hmsg
      obtain ⟨_, s₆, h₆, hmsg⟩ := bind_eq_ok.mp hmsg
      obtain ⟨_, s₇, h₇, hmsg⟩ := bind_eq_ok.mp hmsg
      obtain ⟨_, s₈, h₈, hmsg⟩ := bind_eq_ok.mp hmsg
      cases hmsg
      rw [header_eq] at h₂
      rw [scalars_eq] at h₃
      obtain ⟨hp₂, hl₂⟩ := @putAll_ok _ _ headerFields [] 0 List.nil_prefix rfl h₂
      obtain ⟨hp₃, hl₃⟩ := @putAll_ok _ _ _ headerFields _ hp₂ rfl h₃
      have hfront : Fronted v s₃ := ⟨hp₃, by rw [hl₃, hl₂]; exact Nat.le_refl 48⟩
      have hlevels := putLane_headed 1 _ _ _ _ _ _ (putLane_headed 0 _ _ _ _ _ _
        (groupWrap_headed hfront h₄) h₅) h₆
      exact ⟨rfl, putOrders_headed _ _ _ _ _ _ (groupWrap_headed hlevels.toFronted h₇) h₈⟩
    obtain ⟨rfl, hhead⟩ := hmessage
    simp only [trailer, get_bind] at htrail
    by_cases hlt : e₁.data.length < e₁.limit
    · rw [if_pos hlt] at htrail
      cases htrail
    · rw [if_neg hlt] at htrail
      obtain ⟨_, e₂, hput, hend⟩ := bind_eq_ok.mp htrail
      obtain ⟨hbound, rfl⟩ := put_ok hput
      cases hend
      rw [le_length] at hbound
      refine ⟨e₁.data.take e₁.limit, ?_, ?_⟩
      · have hlen : (e₁.data.take e₁.limit).length = e₁.limit := by
          rw [List.length_take]
          omega
        rw [Bytes.put, List.take_left']
        rw [List.length_append, hlen, le_length]
      · have hfront := hhead.front
        rw [List.prefix_iff_eq_take] at hfront ⊢
        rw [List.take_take, Nat.min_eq_left (by rw [bytes_length, head_width]; exact hhead.limit)]
        exact hfront

end Encoder

namespace Decoder

variable {σ : Type} (S : Sink σ) {buf : List UInt8} {cap : Nat}

/-- A read of `k` bytes at `index`. -/
def fieldAt (buf : List UInt8) (index k : Nat) : Nat := unle (Bytes.get buf index k)

theorem get_run {index k : Nat} (h : index + k ≤ buf.length) (s : σ) :
    get buf index k s = .ok (Bytes.get buf index k) s := by
  rw [get, if_pos h]
  rfl

theorem get_stops {index k : Nat} (h : ¬ index + k ≤ buf.length) (s : σ) :
    get buf index k s = .error (.panic .indexOutOfBounds) s := by
  rw [get, if_neg h]
  rfl

theorem getU8_run {index : Nat} (h : index + 1 ≤ buf.length) (s : σ) :
    getU8 buf index s = .ok (fieldAt buf index 1) s := bind_ok (get_run h s) _

theorem getU16_run {index : Nat} (h : index + 2 ≤ buf.length) (s : σ) :
    getU16 buf index s = .ok (fieldAt buf index 2) s := bind_ok (get_run h s) _

theorem getU32_run {index : Nat} (h : index + 4 ≤ buf.length) (s : σ) :
    getU32 buf index s = .ok (fieldAt buf index 4) s := bind_ok (get_run h s) _

theorem getI32_run {index : Nat} (h : index + 4 ≤ buf.length) (s : σ) :
    getI32 buf index s = .ok (i32 (fieldAt buf index 4)) s := bind_ok (get_run h s) _

theorem getI64_run {index : Nat} (h : index + 8 ≤ buf.length) (s : σ) :
    getI64 buf index s = .ok (i64 (fieldAt buf index 8)) s := bind_ok (get_run h s) _

/-- The scalars a decoder stores before it looks at the capacity. -/
def setFront (buf : List UInt8) (s : σ) : σ :=
  S.setHead (i64 (fieldAt buf HEADER_LEN 8)) (i64 (fieldAt buf (HEADER_LEN + 8) 8))
    (fieldAt buf (HEADER_LEN + 16) 4) (fieldAt buf (HEADER_LEN + 24) 4)
    (i32 (fieldAt buf (HEADER_LEN + 28) 4)) (i32 (fieldAt buf (HEADER_LEN + 32) 4)) s

/-- The version is looked at first. -/
theorem message_version (hlen : 8 ≤ buf.length) (hv : fieldAt buf 6 2 ≠ 2) (s : σ) :
    ∃ text, message S buf cap s = .error (.err text) s := by
  unfold message
  rw [bind_ok (getU16_run hlen s), ite_run, if_pos hv]
  exact ⟨_, rfl⟩

/-- Then the capacity. -/
theorem message_front (hlen : 44 ≤ buf.length) (hv : fieldAt buf 6 2 = 2) (s : σ) :
    message S buf cap s =
      if fieldAt buf (HEADER_LEN + 20) 4 ≠ cap then
        .error (.err s!"snapshot capacity {fieldAt buf (HEADER_LEN + 20) 4} != SMRC_CAP {cap}")
          (setFront S buf s)
      else (do
        let freeHead ← getU32 buf (HEADER_LEN + 36)
        modify (S.setFreeHead freeHead)
        groups S buf (HEADER_LEN + fieldAt buf 0 2)) (setFront S buf s) := by
  have hlt : ∀ {i : Nat}, i ≤ 44 → i ≤ buf.length := fun h => h.trans hlen
  unfold message
  rw [bind_ok (getU16_run (hlt (by decide)) s), ite_run, if_neg (not_not.mpr hv)]
  dsimp only
  rw [bind_ok (getU16_run (hlt (by decide)) s), bind_ok (getI64_run (hlt (by decide)) s),
    bind_ok (getI64_run (hlt (by decide)) s), bind_ok (getU32_run (hlt (by decide)) s),
    bind_ok (getU32_run (hlt (by decide)) s), bind_ok (getI32_run (hlt (by decide)) s),
    bind_ok (getI32_run (hlt (by decide)) s), modify_bind, bind_ok (getU32_run (hlt (by decide)) _),
    ite_run]
  rfl

theorem message_capacity (hlen : 44 ≤ buf.length) (hv : fieldAt buf 6 2 = 2)
    (hc : fieldAt buf (HEADER_LEN + 20) 4 ≠ cap) (s : σ) :
    ∃ text, message S buf cap s = .error (.err text) (setFront S buf s) :=
  ⟨_, (message_front S hlen hv s).trans (if_pos hc)⟩

/-- The front of an encoded image: its version and its capacity. -/
theorem front_fields {v : Source} {body : List UInt8} (h : bytes v.head <+: body) :
    48 ≤ body.length ∧ fieldAt body 6 2 = 2 ∧
      fieldAt body (HEADER_LEN + 20) 4 = v.scalars.capacity % 4294967296 := by
  obtain ⟨rest, rfl⟩ := h
  have hholds : Holds (bytes v.head ++ rest) 0 v.head := ⟨[], rest, rfl, rfl⟩
  have h₆ : Holds (bytes v.head ++ rest) 6 _ := hholds.tail.tail.tail
  have hscal : Holds (bytes v.head ++ rest) HEADER_LEN v.scalars.fields := hholds.append_right
  have h₂₈ : Holds (bytes v.head ++ rest) (HEADER_LEN + 20) _ := hscal.tail.tail.tail
  refine ⟨?_, ?_, ?_⟩
  · rw [List.length_append, bytes_length, Encoder.head_width]
    exact Nat.le_add_right _ _
  · rw [fieldAt, h₆.get.2]
    rfl
  · rw [fieldAt, h₂₈.get.2, unle_le]
    rfl

/-- A decoder refuses an image with another capacity, whatever else is in it. -/
theorem refuses {crc32c : List UInt8 → UInt32} {v : Source} {data : List UInt8} {len : Nat}
    (hcap : v.scalars.capacity % 4294967296 ≠ cap)
    (h : Encoder.encode crc32c v buf = .ok (data, len)) :
    ∃ body, checked crc32c (data.take len) = .ok body ∧
      ∀ s, ∃ text, into S body cap s = .error (.err text) := by
  obtain ⟨body, e, hpre⟩ := Encoder.encode_head h
  obtain ⟨hlen, hversion, hcapacity⟩ := front_fields hpre
  refine ⟨body, by rw [e, checked_body], fun s => ?_⟩
  obtain ⟨text, hmsg⟩ :=
    @message_capacity _ S body cap (by omega) hversion (by rw [hcapacity]; exact hcap) s
  refine ⟨text, ?_⟩
  rw [into, hmsg]
  rfl

end Decoder

end HiPerf
