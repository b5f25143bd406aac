import Mathlib.Data.Rat.Defs
import Mathlib.Data.List.Basic
import Mathlib.Algebra.Group.Nat.Basic
import Mathlib.Algebra.Group.Int
import Mathlib.Algebra.Order.Ring.Nat

/-!
# Bytes, C strings and machine words

Memory reached through a `const char*` is the list of bytes from the pointer to
the end of the buffer it points into.  A C string is the prefix before the first
NUL.  Unsigned machine words are natural numbers below `2 ^ w`; where the code
can wrap, the wrap is written as `% 2 ^ w`.  A `double` is an exact rational:
IEEE rounding is outside this model.
-/

set_option autoImplicit false

namespace Hft.Bytes

/-- The C string at a pointer: the bytes before the first NUL. -/
def cStr (p : List UInt8) : List UInt8 :=
  p.takeWhile (· != 0)

/-- `std::strncpy(dst, src, n)`: at most `n` bytes of the C string `src`, padded
with NULs up to `n`; `dst` beyond `n` is untouched. -/
def strncpy (dst src : List UInt8) (n : Nat) : List UInt8 :=
  let copied := (cStr src).take n
  copied ++ List.replicate (n - copied.length) 0 ++ dst.drop n

/-- `std::strcmp(a, b) == 0`. -/
def strEq (a b : List UInt8) : Bool :=
  cStr a == cStr b

/-- `static_cast<uint64_t>(c)` for a `char` `c`; `char` is signed on x86-64, so
bytes from `0x80` are sign-extended. -/
def charToU64 (c : UInt8) : Nat :=
  if c.toNat < 128 then c.toNat else c.toNat + (2 ^ 64 - 256)

/-- The little-endian word of `width` bytes at offset `o`: a field of a packed
record read in native (x86-64) order. -/
def leWord (p : List UInt8) (o width : Nat) : Nat :=
  ((List.range width).map fun i => (p.getD (o + i) 0).toNat * 256 ^ i).sum

/-- The value of a binary64 bit pattern.  The exponent field 2047 (infinities
and NaNs) has no rational value; it is read by the normal-number formula, and
no result of this development depends on those patterns. -/
def f64Value (bits : Nat) : ℚ :=
  let negative : Bool := bits / 2 ^ 63 % 2 == 1
  let exponent : Nat := bits / 2 ^ 52 % 2 ^ 11
  let fraction : Nat := bits % 2 ^ 52
  let magnitude : ℚ :=
    if exponent = 0 then (fraction : ℚ) / 2 ^ 1074
    else ((2 ^ 52 + fraction : Nat) : ℚ) * 2 ^ exponent / 2 ^ 1075
  if negative then -magnitude else magnitude

/-- `std::numeric_limits<double>::max()`. -/
def dblMax : ℚ :=
  (2 ^ 53 - 1) * 2 ^ 971

theorem mask_eq_mod {size : Nat} (pow : size.isPowerOfTwo) (x : Nat) : x &&& (size - 1) = x % size := by
  obtain ⟨k, rfl⟩ := pow
  exact Nat.and_pow_two_sub_one_eq_mod x k

theorem add_mod_ne {n a i j : Nat} (lt : i < j) (lt_n : j < n) : (a + i) % n ≠ (a + j) % n := by
  intro same
  have := Nat.sub_mod_eq_zero_of_mod_eq same.symm
  rw [show a + j - (a + i) = j - i by omega] at this
  exact absurd (Nat.le_of_dvd (by omega) (Nat.dvd_of_mod_eq_zero this)) (by omega)

theorem cStr_append_nul (p rest : List UInt8) (nul : 0 ∉ p) :
    cStr (p ++ 0 :: rest) = p := by
  induction p with
  | nil => rfl
  | cons c more ih =>
      have hc : c ≠ 0 := fun e => nul (e ▸ List.mem_cons_self c more)
      have hmore : 0 ∉ more := fun m => nul (List.mem_cons_of_mem c m)
      simp [cStr, hc] at ih ⊢
      exact ih hmore

theorem zero_not_mem_cStr (p : List UInt8) : 0 ∉ cStr p := by
  intro member
  simpa using List.mem_takeWhile_imp member

theorem cStr_cStr (p : List UInt8) : cStr (cStr p) = cStr p := by
  induction p with
  | nil => rfl
  | cons c rest ih =>
      by_cases hc : c = 0
      · simp [cStr, hc]
      · simpa [cStr, hc] using ih

theorem cStr_strncpy_short (dst src : List UInt8) (n : Nat)
    (short : (cStr src).length ≤ n) (terminated : dst.drop n = 0 :: dst.drop (n + 1)) :
    cStr (strncpy dst src n) = cStr src := by
  obtain ⟨rest, padded⟩ : ∃ rest,
      List.replicate (n - (cStr src).length) 0 ++ dst.drop n = 0 :: rest := by
    cases gap : n - (cStr src).length with
    | zero => exact ⟨_, terminated⟩
    | succ k => exact ⟨_, rfl⟩
  rw [strncpy, List.take_of_length_le short, List.append_assoc, padded,
    cStr_append_nul _ _ (zero_not_mem_cStr src)]

theorem le_length_cStr_iff (p : List UInt8) (len : Nat) (inside : len ≤ p.length) :
    len ≤ (cStr p).length ↔ 0 ∉ p.take len := by
  induction p generalizing len with
  | nil => simp_all
  | cons c rest ih =>
      cases len with
      | zero => simp
      | succ len =>
          by_cases hc : c = 0
          · simp [cStr, hc]
          · have head : cStr (c :: rest) = c :: cStr rest := by simp [cStr, hc]
            rw [head, List.length_cons, Nat.add_le_add_iff_right, ih len (by simpa using inside),
              List.take_succ_cons]
            simp [Ne.symm hc]

end Hft.Bytes
