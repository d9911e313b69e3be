import HiPerf.Lib.Bytes
import Mathlib.Logic.Function.Iterate

/-!
Cyclic checksums as a shift register that takes the lowest bit first. From one
and the same state, two runs of bits of one length that differ in no more
consecutive bits than the register has lead to different states.
-/

namespace Crc

variable {w : Nat} {p : BitVec w}

/-- Out goes the lowest bit, and in comes the polynomial if it was set. -/
def shift (p c : BitVec w) : BitVec w := if c.getLsbD 0 then (c >>> 1) ^^^ p else c >>> 1

def bit (w : Nat) (b : Bool) : BitVec w := BitVec.setWidth w (BitVec.ofBool b)

/-- The register after some bits. -/
def feed (p c : BitVec w) (bits : List Bool) : BitVec w :=
  bits.foldl (fun c b => shift p (c ^^^ bit w b)) c

/-- Bits as a register has them, the first one lowest. -/
def pack (w : Nat) : List Bool → BitVec w
  | [] => 0
  | b :: bits => bit w b ^^^ (pack w bits <<< 1)

theorem feed_append (p c : BitVec w) (xs ys : List Bool) :
    feed p c (xs ++ ys) = feed p (feed p c xs) ys := List.foldl_append

theorem shift_xor (p a b : BitVec w) : shift p (a ^^^ b) = shift p a ^^^ shift p b := by
  unfold shift
  rw [BitVec.getLsbD_xor, BitVec.ushiftRight_xor_distrib]
  cases a.getLsbD 0 <;> cases b.getLsbD 0
  · rfl
  · exact BitVec.xor_assoc _ _ _
  · simp only [Bool.true_xor, Bool.not_false, if_true, Bool.false_eq_true, if_false]
    rw [BitVec.xor_assoc, BitVec.xor_assoc, BitVec.xor_comm p]
  · simp only [Bool.true_xor, Bool.not_true, Bool.false_eq_true, if_false, if_true]
    rw [BitVec.xor_assoc, BitVec.xor_comm (b >>> 1) p, ← BitVec.xor_assoc p p, BitVec.xor_self,
      BitVec.zero_xor]

/-- Nothing is lost in a step: the top bit tells whether the polynomial came in. -/
theorem shift_eq_zero (hp : p.getLsbD (w - 1) = true) {c : BitVec w} (h : shift p c = 0) : c = 0 := by
  have hbit : ∀ i, (shift p c).getLsbD i = false := fun i => by rw [h]; exact BitVec.getLsbD_zero
  have hw : 0 < w := by
    by_contra h0
    rw [BitVec.getLsbD_of_ge _ _ (by omega)] at hp
    cases hp
  have hlow : c.getLsbD 0 = false := by
    cases hc : c.getLsbD 0 with
    | false => rfl
    | true =>
      have := hbit (w - 1)
      rw [shift, if_pos hc, BitVec.getLsbD_xor, hp, BitVec.getLsbD_ushiftRight,
        BitVec.getLsbD_of_ge _ _ (by omega)] at this
      cases this
  refine BitVec.eq_of_getLsbD_eq fun i _ => ?_
  cases i with
  | zero => rw [hlow]; exact BitVec.getLsbD_zero.symm
  | succ i =>
    have := hbit i
    rw [shift, hlow, if_neg (by simp), BitVec.getLsbD_ushiftRight, Nat.add_comm] at this
    rw [this]
    exact BitVec.getLsbD_zero.symm

theorem shift_injective (hp : p.getLsbD (w - 1) = true) : Function.Injective (shift p) := by
  intro a b h
  refine BitVec.xor_eq_zero_iff.mp (shift_eq_zero hp ?_)
  rw [shift_xor, h]
  exact BitVec.xor_self

theorem feed_injective (hp : p.getLsbD (w - 1) = true) (bits : List Bool) :
    Function.Injective fun c => feed p c bits := by
  induction bits with
  | nil => exact fun _ _ h => h
  | cons b bits ih =>
    intro c d h
    have := shift_injective hp (ih h)
    simpa using congrArg (· ^^^ bit w b) this

theorem bit_getLsbD (b : Bool) (i : Nat) : (bit w b).getLsbD i = (decide (i < w ∧ i = 0) && b) := by
  rw [bit, BitVec.getLsbD_setWidth, BitVec.getLsbD_ofBool]
  cases b <;> simp

theorem pack_getLsbD (bits : List Bool) (i : Nat) :
    (pack w bits).getLsbD i = (decide (i < w) && bits[i]?.getD false) := by
  induction bits generalizing i with
  | nil => simp [pack]
  | cons b bits ih =>
    rw [pack, BitVec.getLsbD_xor, bit_getLsbD, BitVec.getLsbD_shiftLeft, ih]
    cases i with
    | zero => cases b <;> simp
    | succ i =>
      by_cases hi : i + 1 < w
      · simp [hi, show i < w by omega]
      · simp [hi]

/-- Bits that the register still has room for may be added all at once. -/
theorem feed_eq {bits : List Bool} (h : bits.length ≤ w) (c : BitVec w) :
    feed p c bits = (shift p)^[bits.length] (c ^^^ pack w bits) := by
  induction bits generalizing c with
  | nil => exact BitVec.xor_zero.symm
  | cons b bits ih =>
    rw [List.length_cons] at h
    have hshift : shift p (pack w bits <<< 1) = pack w bits := by
      have hlow : (pack w bits <<< 1).getLsbD 0 = false := by simp
      rw [shift, hlow, if_neg (by simp)]
      refine BitVec.eq_of_getLsbD_eq fun i hi => ?_
      rw [BitVec.getLsbD_ushiftRight, BitVec.getLsbD_shiftLeft, Nat.add_comm 1 i, Nat.add_sub_cancel]
      by_cases hlast : i + 1 < w
      · simp [hlast]
      · have hnone : bits[i]? = none := List.getElem?_eq_none (by omega)
        simp [hlast, pack_getLsbD, hnone]
    change feed p (shift p (c ^^^ bit w b)) bits = _
    rw [ih (by omega), List.length_cons, Function.iterate_succ_apply, pack, ← BitVec.xor_assoc,
      shift_xor p (c ^^^ bit w b), hshift]

theorem pack_injective {xs ys : List Bool} (hx : xs.length ≤ w) (hlen : xs.length = ys.length)
    (h : pack w xs = pack w ys) : xs = ys := by
  refine List.ext_getElem hlen fun i hi hi' => ?_
  have := congrArg (·.getLsbD i) h
  simp only [pack_getLsbD, List.getElem?_eq_getElem hi, List.getElem?_eq_getElem hi'] at this
  simpa [show i < w by omega] using this

/-- A burst no longer than the register changes what the register ends as. -/
theorem burst (hp : p.getLsbD (w - 1) = true) (c : BitVec w) {xs ys : List Bool}
    (hlen : xs.length = ys.length) {k : Nat}
    (hsame : ∀ i, xs[i]? ≠ ys[i]? → k ≤ i ∧ i < k + w) (h : feed p c xs = feed p c ys) : xs = ys := by
  have hpre : xs.take k = ys.take k := by
    refine List.ext_getElem? fun i => ?_
    by_cases hi : i < k
    · rw [List.getElem?_take_of_lt hi, List.getElem?_take_of_lt hi]
      by_contra hne
      have := hsame i hne
      omega
    · rw [List.getElem?_take_eq_none (by omega), List.getElem?_take_eq_none (by omega)]
  have hpost : (xs.drop k).drop w = (ys.drop k).drop w := by
    refine List.ext_getElem? fun i => ?_
    rw [List.drop_drop, List.drop_drop, List.getElem?_drop, List.getElem?_drop]
    by_contra hne
    have := hsame _ hne
    omega
  have hsplit : ∀ zs : List Bool, zs = zs.take k ++ ((zs.drop k).take w ++ (zs.drop k).drop w) := by
    intro zs
    rw [List.take_append_drop, List.take_append_drop]
  have hwin : ∀ zs : List Bool, ((zs.drop k).take w).length = min w (zs.length - k) := by
    intro zs
    rw [List.length_take, List.length_drop]
  rw [hsplit xs, hsplit ys, feed_append, feed_append, feed_append, feed_append, hpre, hpost] at h
  have hmid := feed_injective hp _ h
  generalize feed p c (ys.take k) = d at hmid
  simp only [feed_eq ((hwin xs).trans_le (Nat.min_le_left _ _)),
    feed_eq ((hwin ys).trans_le (Nat.min_le_left _ _)), hwin, hlen] at hmid
  have hxor : pack w ((xs.drop k).take w) = pack w ((ys.drop k).take w) := by
    simpa using congrArg (d ^^^ ·) ((shift_injective hp).iterate _ hmid)
  have hmiddle : (xs.drop k).take w = (ys.drop k).take w :=
    pack_injective (by rw [hwin]; exact Nat.min_le_left _ _) (by rw [hwin, hwin, hlen]) hxor
  rw [hsplit xs, hsplit ys, hpre, hpost, hmiddle]

end Crc

namespace Bytes

/-- The bits of some bytes, the lowest of each byte first. -/
def bits (bs : List UInt8) : List Bool := bs.flatMap fun b => (List.range 8).map b.toNat.testBit

theorem bits_cons (b : UInt8) (bs : List UInt8) :
    bits (b :: bs) = (List.range 8).map b.toNat.testBit ++ bits bs := List.flatMap_cons

theorem bits_append (xs ys : List UInt8) : bits (xs ++ ys) = bits xs ++ bits ys :=
  List.flatMap_append

@[simp] theorem bits_length (bs : List UInt8) : (bits bs).length = 8 * bs.length := by
  induction bs with
  | nil => rfl
  | cons b bs ih =>
    rw [bits_cons, List.length_append, ih, List.length_map, List.length_range, List.length_cons]
    omega

/-- They are the bits of the number the bytes stand for. -/
theorem bits_testBit (bs : List UInt8) (i : Nat) : (bits bs)[i]?.getD false = (unle bs).testBit i := by
  induction bs generalizing i with
  | nil => simp [bits, unle]
  | cons b bs ih =>
    have hb : b.toNat < 2 ^ 8 := b.toNat_lt
    rw [bits_cons, unle, Nat.add_comm, show 256 = 2 ^ 8 by rfl, Nat.testBit_two_pow_mul_add _ hb]
    by_cases hi : i < 8
    · rw [if_pos hi, List.getElem?_append_left (by simpa using hi), List.getElem?_map,
        List.getElem?_range hi]
      rfl
    · rw [if_neg hi, List.getElem?_append_right (by simpa using hi), ih]
      simp

theorem bits_injective {xs ys : List UInt8} (h : bits xs = bits ys) : xs = ys := by
  have hlen : xs.length = ys.length := by
    have := congrArg List.length h
    rw [bits_length, bits_length] at this
    omega
  have hnum : unle xs = unle ys := by
    refine Nat.eq_of_testBit_eq fun i => ?_
    rw [← bits_testBit, ← bits_testBit, h]
  induction xs generalizing ys with
  | nil => exact (List.eq_nil_of_length_eq_zero hlen.symm).symm
  | cons x xs ih =>
    cases ys with
    | nil => cases hlen
    | cons y ys =>
      rw [bits_cons, bits_cons] at h
      obtain ⟨-, hrest⟩ := List.append_inj h (by simp)
      have hx : x.toNat < 256 := x.toNat_lt
      have hy : y.toNat < 256 := y.toNat_lt
      simp only [unle] at hnum
      have hxy : x.toNat = y.toNat := by omega
      rw [UInt8.toNat_inj.mp hxy, ih hrest (by simpa using hlen) (by omega)]

theorem pack_bits (w : Nat) (bs : List UInt8) :
    Crc.pack w (bits bs) = BitVec.ofNat w (unle bs) := by
  refine BitVec.eq_of_getLsbD_eq fun i hi => ?_
  rw [Crc.pack_getLsbD, bits_testBit, BitVec.getLsbD_ofNat]

/-- The polynomial of CRC-32C, lowest power in the top bit. -/
def castagnoli : BitVec 32 := 0x82F63B78#32

theorem castagnoli_top : castagnoli.getLsbD 31 = true := by decide

theorem crcBit_toBitVec (c : UInt32) : (crcBit c).toBitVec = Crc.shift castagnoli c.toBitVec := by
  have hlow : c &&& 1 = 1 ↔ c.toBitVec.getLsbD 0 = true := by
    have hand : (c &&& 1).toBitVec = BitVec.setWidth 32 (BitVec.ofBool (c.toBitVec.getLsbD 0)) := by
      rw [UInt32.toBitVec_and]
      exact BitVec.and_one_eq_setWidth_ofBool_getLsbD
    rw [← UInt32.toBitVec_inj, hand]
    cases c.toBitVec.getLsbD 0 <;> decide
  unfold crcBit Crc.shift
  by_cases h : c &&& 1 = 1
  · rw [if_pos h, if_pos (hlow.mp h)]
    rfl
  · rw [if_neg h, if_neg (mt hlow.mpr h)]
    rfl

theorem crcByte_toBitVec (c : UInt32) (b : UInt8) :
    (crcByte c b).toBitVec = Crc.feed castagnoli c.toBitVec (bits [b]) := by
  have hiter : ∀ (n : Nat) (c : UInt32),
      (crcBit^[n] c).toBitVec = (Crc.shift castagnoli)^[n] c.toBitVec := by
    intro n
    induction n with
    | zero => exact fun _ => rfl
    | succ n ih =>
      intro c
      rw [Function.iterate_succ_apply, Function.iterate_succ_apply, ih, crcBit_toBitVec]
  have hlen : (bits [b]).length = 8 := bits_length [b]
  have hxor : (c ^^^ b.toUInt32).toBitVec = c.toBitVec ^^^ BitVec.ofNat 32 (unle [b]) := by
    rw [UInt32.toBitVec_xor]
    refine congrArg (c.toBitVec ^^^ ·) (BitVec.eq_of_toNat_eq ?_)
    have := b.toNat_lt
    simp [unle]
  rw [Crc.feed_eq (by rw [hlen]; decide), pack_bits, crcByte, hiter, hlen, hxor]

/-- The checksum is the register after the bits of the bytes. -/
theorem crc_feed (bs : List UInt8) (c : UInt32) :
    (bs.foldl crcByte c).toBitVec = Crc.feed castagnoli c.toBitVec (bits bs) := by
  induction bs generalizing c with
  | nil => rfl
  | cons b bs ih =>
    rw [List.foldl_cons, ih, crcByte_toBitVec, ← Crc.feed_append, ← bits_append]
    rfl

/-- Bytes with their own checksum behind them always lead to the same register. -/
theorem crc32c_residue {body t : List UInt8} (ht : t.length = 4)
    (h : (crc32c body).toNat = unle t) :
    Crc.feed castagnoli (BitVec.allOnes 32) (bits (body ++ t)) =
      (Crc.shift castagnoli)^[32] (BitVec.allOnes 32) := by
  have hreg : Crc.feed castagnoli (BitVec.allOnes 32) (bits body) ^^^ BitVec.ofNat 32 (unle t) =
      BitVec.allOnes 32 := by
    have hreg : (crc32c body).toBitVec =
        Crc.feed castagnoli (BitVec.allOnes 32) (bits body) ^^^ BitVec.allOnes 32 := by
      rw [crc32c, UInt32.toBitVec_xor, crc_feed]
      rfl
    have hsum : BitVec.ofNat 32 (unle t) = (crc32c body).toBitVec := by
      rw [← h]
      exact BitVec.ofNat_toNat _ _
    rw [hsum, hreg, ← BitVec.xor_assoc, BitVec.xor_self, BitVec.zero_xor]
  rw [bits_append, Crc.feed_append, Crc.feed_eq (by rw [bits_length, ht]), pack_bits, hreg,
    bits_length, ht]

/-- Of two runs of bytes, each with its checksum behind it, that differ in no more
than 32 consecutive bits, one is the other. -/
theorem crc32c_burst {x y s t : List UInt8} (hs : s.length = 4) (ht : t.length = 4)
    (hlen : x.length = y.length) (hx : (crc32c x).toNat = unle s) (hy : (crc32c y).toNat = unle t)
    {k : Nat} (hsame : ∀ i, (bits (x ++ s))[i]? ≠ (bits (y ++ t))[i]? → k ≤ i ∧ i < k + 32) :
    x ++ s = y ++ t :=
  bits_injective (Crc.burst castagnoli_top (BitVec.allOnes 32) (by simp [hs, ht, hlen]) hsame
    ((crc32c_residue hs hx).trans (crc32c_residue ht hy).symm))

end Bytes
