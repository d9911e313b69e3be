import Mathlib.Data.Int.Basic
import Mathlib.Tactic.Linarith

/-!
Fixed-width integers as `Int` and `Nat` with explicit wrapping: the values an
optimised build computes, where an overflow wraps and is not reported.
-/

namespace Machine

/-- The least and greatest 64-bit signed values. -/
def InI64 (x : Int) : Prop := -9223372036854775808 ≤ x ∧ x ≤ 9223372036854775807

instance (x : Int) : Decidable (InI64 x) := inferInstanceAs (Decidable (_ ∧ _))

def InI32 (x : Int) : Prop := -2147483648 ≤ x ∧ x ≤ 2147483647

instance (x : Int) : Decidable (InI32 x) := inferInstanceAs (Decidable (_ ∧ _))

/-- Signed 64-bit arithmetic wraps. -/
def i64 (x : Int) : Int :=
  (x + 9223372036854775808) % 18446744073709551616 - 9223372036854775808

/-- A cast to a signed 32-bit integer keeps the low 32 bits. -/
def i32 (x : Int) : Int := (x + 2147483648) % 4294967296 - 2147483648

/-- A cast to an unsigned integer keeps the low bits of the two's complement. -/
def u64 (x : Int) : Nat := (x % 18446744073709551616).toNat

def u32 (x : Int) : Nat := (x % 4294967296).toNat

def u16 (n : Nat) : Nat := n % 65536

theorem i64_eq_self {x : Int} (h : InI64 x) : i64 x = x := by
  unfold InI64 at h; unfold i64; omega

theorem inI64_i64 (x : Int) : InI64 (i64 x) := by
  unfold InI64 i64; omega

theorem i32_eq_self {x : Int} (h : InI32 x) : i32 x = x := by
  unfold InI32 at h; unfold i32; omega

theorem i32_ofNat {n : Nat} (h : n ≤ 2147483647) : i32 n = n :=
  i32_eq_self ⟨by omega, by omega⟩

theorem u32_eq_self {n : Nat} (h : n < 4294967296) : u32 n = n := by
  unfold u32; omega

theorem u32_lt (x : Int) : u32 x < 4294967296 := by unfold u32; omega

theorem u16_lt (n : Nat) : u16 n < 65536 := Nat.mod_lt _ (by decide)

theorem u64_lt (x : Int) : u64 x < 18446744073709551616 := by unfold u64; omega

/-- The bits of a signed value give it back. -/
theorem i64_u64 {x : Int} (h : InI64 x) : i64 (u64 x) = x := by
  unfold InI64 at h; unfold i64 u64; omega

theorem i32_u32 {x : Int} (h : InI32 x) : i32 (u32 x) = x := by
  unfold InI32 at h; unfold i32 u32; omega

/-- Positions less than a lap apart have different slots. -/
theorem slot_ne {cap i j : Nat} (hij : i < j) (hj : j < i + cap) : i % cap ≠ j % cap := by
  intro e
  have hmod : (j - i) % cap = 0 := Nat.sub_mod_eq_zero_of_mod_eq e.symm
  rw [Nat.mod_eq_of_lt (by omega)] at hmod
  omega

theorem u64_add {a b : Nat} (h : a + b < 18446744073709551616) : u64 ((a : Int) + b) = a + b := by
  unfold u64; omega

end Machine
