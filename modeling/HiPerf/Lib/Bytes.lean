import Mathlib.Algebra.Order.Group.Nat
import Mathlib.Data.List.Basic
import Mathlib.Tactic.Ring
import Mathlib.Tactic.NormNum

/-!
Fixed-width little-endian fields laid end to end. A field is its width in bytes
and its value; a layout is a list of fields, and a buffer is a list of bytes.
At the end, the checksum such buffers carry.
-/

namespace Bytes

/-- The low `w` bytes of `n`, least significant first. -/
def le : Nat → Nat → List UInt8
  | 0, _ => []
  | w + 1, n => UInt8.ofNat n :: le w (n / 256)

def unle : List UInt8 → Nat
  | [] => 0
  | b :: bs => b.toNat + 256 * unle bs

/-- Overwrite the bytes from `i` on. -/
def put (buf : List UInt8) (i : Nat) (bs : List UInt8) : List UInt8 :=
  buf.take i ++ bs ++ buf.drop (i + bs.length)

/-- The `k` bytes from `i` on. -/
def get (buf : List UInt8) (i k : Nat) : List UInt8 := (buf.drop i).take k

@[simp] theorem le_length (w n : Nat) : (le w n).length = w := by
  induction w generalizing n with
  | zero => rfl
  | succ w ih => simp only [le, List.length_cons, ih]

theorem unle_le (w n : Nat) : unle (le w n) = n % 256 ^ w := by
  induction w generalizing n with
  | zero => simp only [le, unle, Nat.pow_zero, Nat.mod_one]
  | succ w ih =>
    have hb : (UInt8.ofNat n).toNat = n % 256 := UInt8.toNat_ofNat'
    rw [le, unle, ih, hb, Nat.pow_succ', Nat.mod_mul]

theorem unle_le_of_lt {w n : Nat} (h : n < 256 ^ w) : unle (le w n) = n := by
  rw [unle_le, Nat.mod_eq_of_lt h]

theorem unle_lt (bs : List UInt8) : unle bs < 256 ^ bs.length := by
  induction bs with
  | nil => simp [unle]
  | cons b bs ih =>
    have := b.toNat_lt
    rw [unle, List.length_cons, Nat.pow_succ]
    omega

@[simp] theorem put_length {buf bs : List UInt8} {i : Nat} (h : i + bs.length ≤ buf.length) :
    (put buf i bs).length = buf.length := by
  simp only [put, List.length_append, List.length_take, List.length_drop]
  omega

/-- Writing just behind a prefix extends it. -/
theorem put_prefix {pre buf : List UInt8} (bs : List UInt8) (h : pre <+: buf) :
    pre ++ bs <+: put buf pre.length bs := by
  obtain ⟨rest, rfl⟩ := h
  simp only [put, List.take_left]
  exact List.prefix_append _ _

/-- A field: its width in bytes and its value. -/
abbrev Field := Nat × Nat

def width (fs : List Field) : Nat := (fs.map Prod.fst).sum

def bytes (fs : List Field) : List UInt8 := fs.flatMap fun f => le f.1 f.2

@[simp] theorem width_nil : width [] = 0 := rfl

@[simp] theorem width_cons (f : Field) (fs : List Field) : width (f :: fs) = f.1 + width fs := by
  simp [width]

@[simp] theorem width_append (fs gs : List Field) : width (fs ++ gs) = width fs + width gs := by
  simp [width]

@[simp] theorem bytes_nil : bytes [] = [] := rfl

@[simp] theorem bytes_append (fs gs : List Field) : bytes (fs ++ gs) = bytes fs ++ bytes gs := by
  simp [bytes]

theorem bytes_cons (f : Field) (fs : List Field) : bytes (f :: fs) = le f.1 f.2 ++ bytes fs := by
  simp [bytes]

@[simp] theorem bytes_length (fs : List Field) : (bytes fs).length = width fs := by
  induction fs with
  | nil => rfl
  | cons f fs ih => rw [bytes_cons, List.length_append, le_length, ih, width_cons]

theorem width_flatten (size : Nat) {blocks : List (List Field)} (h : ∀ b ∈ blocks, width b = size) :
    width blocks.flatten = size * blocks.length := by
  induction blocks with
  | nil => simp
  | cons b blocks ih =>
    rw [List.flatten_cons, width_append, h b (by simp), ih fun b hb => h b (by simp [hb]),
      List.length_cons]
    ring

/-- The buffer holds the fields `fs` from `i` on. -/
def Holds (buf : List UInt8) (i : Nat) (fs : List Field) : Prop :=
  ∃ pre post, buf = pre ++ bytes fs ++ post ∧ pre.length = i

theorem Holds.append_left {buf : List UInt8} {i : Nat} {fs gs : List Field}
    (h : Holds buf i (fs ++ gs)) : Holds buf i fs := by
  obtain ⟨pre, post, rfl, rfl⟩ := h
  exact ⟨pre, bytes gs ++ post, by simp, rfl⟩

theorem Holds.append_right {buf : List UInt8} {i : Nat} {fs gs : List Field}
    (h : Holds buf i (fs ++ gs)) : Holds buf (i + width fs) gs := by
  obtain ⟨pre, post, rfl, rfl⟩ := h
  exact ⟨pre ++ bytes fs, post, by simp, by simp⟩

theorem Holds.length {buf : List UInt8} {i : Nat} {fs : List Field} (h : Holds buf i fs) :
    i + width fs ≤ buf.length := by
  obtain ⟨pre, post, rfl, rfl⟩ := h
  simp

theorem Holds.tail {buf : List UInt8} {i : Nat} {f : Field} {fs : List Field}
    (h : Holds buf i (f :: fs)) : Holds buf (i + f.1) fs := by
  have h' : Holds buf i ([f] ++ fs) := h
  have := h'.append_right
  rwa [width_cons, width_nil, Nat.add_zero] at this

/-- Reading a field back. -/
theorem Holds.get {buf : List UInt8} {i w v : Nat} {fs : List Field}
    (h : Holds buf i ((w, v) :: fs)) : i + w ≤ buf.length ∧ Bytes.get buf i w = le w v := by
  obtain ⟨pre, post, e, hl⟩ := h
  rw [bytes_cons] at e
  subst e
  refine ⟨by simp only [List.length_append, le_length, hl]; omega, ?_⟩
  rw [Bytes.get, ← hl, List.append_assoc, List.drop_left, List.append_assoc]
  exact List.take_left' (le_length w v)

/-- A value its width has room for. -/
def Field.Fits (f : Field) : Prop := f.2 < 256 ^ f.1

/-- Where two runs of fields of the same widths differ. -/
theorem differ_append {fs fs' gs gs' : List Field} (h : width fs = width fs') {i : Nat}
    (hne : (bytes (fs ++ gs))[i]? ≠ (bytes (fs' ++ gs'))[i]?) :
    (i < width fs ∧ (bytes fs)[i]? ≠ (bytes fs')[i]?) ∨
      (width fs ≤ i ∧ (bytes gs)[i - width fs]? ≠ (bytes gs')[i - width fs]?) := by
  have hl := bytes_length fs
  have hl' := bytes_length fs'
  rw [bytes_append, bytes_append] at hne
  by_cases hi : i < width fs
  · rw [List.getElem?_append_left (by omega), List.getElem?_append_left (by omega)] at hne
    exact .inl ⟨hi, hne⟩
  · rw [List.getElem?_append_right (by omega), List.getElem?_append_right (by omega), hl, hl', ← h]
      at hne
    exact .inr ⟨by omega, hne⟩

/-- Fields of known widths can be told from what follows them. -/
theorem bytes_inj {fs gs : List Field} {x y : List UInt8}
    (hw : fs.map Prod.fst = gs.map Prod.fst) (hfs : ∀ f ∈ fs, f.Fits) (hgs : ∀ g ∈ gs, g.Fits)
    (e : bytes fs ++ x = bytes gs ++ y) : fs = gs ∧ x = y := by
  induction fs generalizing gs with
  | nil =>
    cases gs with
    | nil => exact ⟨rfl, e⟩
    | cons g gs => cases hw
  | cons f fs ih =>
    cases gs with
    | nil => cases hw
    | cons g gs =>
      obtain ⟨hfg, hw⟩ := List.cons.inj hw
      rw [bytes_cons, bytes_cons, List.append_assoc, List.append_assoc] at e
      obtain ⟨ehead, etail⟩ := List.append_inj e (by rw [le_length, le_length]; exact hfg)
      have hf := hfs f (by simp)
      have hg := hgs g (by simp)
      have hval : f.2 = g.2 := by
        rw [← unle_le_of_lt hf, ← unle_le_of_lt hg, ehead]
      obtain ⟨rfl, rfl⟩ := ih hw (fun f hf => hfs f (by simp [hf])) (fun g hg => hgs g (by simp [hg]))
        etail
      exact ⟨by rw [Prod.ext hfg hval], rfl⟩

section Readable

variable {α : Type} {good : α → Prop} {enc : α → List UInt8}

/-- What `enc` writes for a good value can be told from what follows it. -/
def Readable (good : α → Prop) (enc : α → List UInt8) : Prop :=
  ∀ a b x y, good a → good b → enc a ++ x = enc b ++ y → a = b ∧ x = y

/-- A sequence of such values that fills the rest of the buffer. -/
theorem Readable.flatMap (h : Readable good enc) (hne : ∀ a, enc a ≠ []) {l l' : List α}
    (hl : ∀ a ∈ l, good a) (hl' : ∀ a ∈ l', good a) (e : l.flatMap enc = l'.flatMap enc) :
    l = l' := by
  induction l generalizing l' with
  | nil =>
    cases l' with
    | nil => rfl
    | cons b l' => exact absurd (List.append_eq_nil_iff.mp e.symm).1 (hne b)
  | cons a l ih =>
    cases l' with
    | nil => exact absurd (List.append_eq_nil_iff.mp e).1 (hne a)
    | cons b l' =>
      rw [List.flatMap_cons, List.flatMap_cons] at e
      obtain ⟨rfl, erest⟩ := h a b _ _ (hl a (by simp)) (hl' b (by simp)) e
      rw [ih (fun a ha => hl a (by simp [ha])) (fun a ha => hl' a (by simp [ha])) erest]

end Readable

/-- One bit of a CRC-32C, lowest first. -/
def crcBit (c : UInt32) : UInt32 := if c &&& 1 = 1 then (c >>> 1) ^^^ 0x82F63B78 else c >>> 1

def crcByte (c : UInt32) (b : UInt8) : UInt32 := crcBit^[8] (c ^^^ b.toUInt32)

/-- CRC-32C, the Castagnoli checksum. -/
def crc32c (bs : List UInt8) : UInt32 := bs.foldl crcByte 0xFFFFFFFF ^^^ 0xFFFFFFFF

example : crc32c [0x31, 0x32, 0x33, 0x34, 0x35, 0x36, 0x37, 0x38, 0x39] = 0xE3069283 := by
  decide +kernel

end Bytes
