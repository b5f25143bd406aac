import HftSystem.Common.Binary64
import Mathlib.Data.Nat.Size
import Mathlib.Data.Rat.Floor

/-!
# Power-of-two rounding

`count_leading_zeros`, `log2_ceil` and `next_power_of_2` of `bit_utils.h` on
`uint64_t` values, as `Nat` below `2 ^ 64`.  `count_leading_zeros` is the
portable loop of the header; `__builtin_clzll` returns the same on every
nonzero argument, and `log2_ceil` passes it only nonzero ones.

`next_power_of_2(x)` decrements `x`, smears its highest set bit into every
lower position with six shift-or steps, and adds one back.  Bit by bit, the
smeared word has bit `i` set when `x - 1` has a set bit in `[i, i + 64)`
(`testBit_smear`), so it is `2 ^ size (x - 1) - 1` (`smear_eq`): up to
`x = 2 ^ 63` the result is the least power of two at or above `x`, and
`1 << log2_ceil(x)` (`next_power_of_2_least`).  Above `2 ^ 63` the final
increment wraps to 0 (`next_power_of_2_wraps`).
-/

set_option autoImplicit false

namespace Hft.Bits

/-- The loop of `count_leading_zeros`:
`while ((x & (1ULL << 63)) == 0) { x <<= 1; count++; }`, for at most `fuel`
rounds. -/
def clzLoop : Nat → Nat → Nat → Nat
  | 0, _, count => count
  | fuel + 1, x, count =>
      if x &&& 1 <<< 63 = 0 then clzLoop fuel ((x <<< 1) % 2 ^ 64) (count + 1) else count

/-- `count_leading_zeros(x)`: 64 for 0, otherwise the loop, which ends within
63 rounds. -/
def countLeadingZeros (x : Nat) : Nat :=
  if x = 0 then 64 else clzLoop 64 x 0

/-- The loop of `count_trailing_zeros`:
`while ((x & 1) == 0) { x >>= 1; count++; }`, for at most `fuel` rounds. -/
def ctzLoop : Nat → Nat → Nat → Nat
  | 0, _, count => count
  | fuel + 1, x, count => if x &&& 1 = 0 then ctzLoop fuel (x >>> 1) (count + 1) else count

/-- `count_trailing_zeros(x)`: 64 for 0, otherwise the loop, which ends within
63 rounds. -/
def countTrailingZeros (x : Nat) : Nat :=
  if x = 0 then 64 else ctzLoop 64 x 0

def popLoop : Nat → Nat → Nat → Nat
  | 0, _, count => count
  | fuel + 1, x, count => if x = 0 then count else popLoop fuel (x &&& (x - 1)) (count + 1)

/-- `popcount(x)`: each round of the loop clears a set bit, and a word has 64. -/
def popcount (x : Nat) : Nat :=
  popLoop 64 x 0

/-- `log2_floor(x)`, an `int`: -1 for 0. -/
def log2Floor (x : Nat) : Int :=
  63 - countLeadingZeros x

/-- `log2_ceil(x)`. -/
def log2Ceil (x : Nat) : Nat :=
  if x ≤ 1 then 0 else 64 - countLeadingZeros (x - 1)

/-- `is_power_of_2(x)`. -/
def isPowerOf2 (x : Nat) : Bool :=
  x != 0 && x &&& (x - 1) == 0

/-- `next_power_of_2(x)`; only the final increment can wrap. -/
def nextPowerOf2 (x : Nat) : Nat :=
  if x = 0 then 1
  else
    let x := x - 1
    let x := x ||| x >>> 1
    let x := x ||| x >>> 2
    let x := x ||| x >>> 4
    let x := x ||| x >>> 8
    let x := x ||| x >>> 16
    let x := x ||| x >>> 32
    (x + 1) % 2 ^ 64

/-! ## Leading zeros -/

theorem and_top_eq_zero {x : Nat} (word : x < 2 ^ 64) : x &&& 1 <<< 63 = 0 ↔ x < 2 ^ 63 := by
  rw [Nat.one_shiftLeft]
  constructor
  · intro clear
    refine Nat.lt_pow_two_of_testBit x fun i ge => ?_
    by_cases top : i = 63
    · subst top
      have bit := congrArg (Nat.testBit · 63) clear
      simp only [Nat.testBit_and, Nat.testBit_two_pow_self, Bool.and_true, Nat.zero_testBit] at bit
      exact bit
    · exact Nat.testBit_lt_two_pow (lt_of_lt_of_le word (Nat.pow_le_pow_right (by omega) (by omega)))
  · intro low
    refine Nat.eq_of_testBit_eq fun i => ?_
    rw [Nat.testBit_and, Nat.testBit_two_pow, Nat.zero_testBit]
    by_cases top : 63 = i
    · subst top
      rw [Nat.testBit_lt_two_pow low, Bool.false_and]
    · rw [decide_eq_false top, Bool.and_false]

theorem clzLoop_eq : ∀ (fuel x count : Nat), 0 < x → x < 2 ^ 64 → 64 - x.size ≤ fuel →
    clzLoop fuel x count = count + (64 - x.size) := by
  intro fuel
  induction fuel with
  | zero =>
      intro x count _ _ full
      rw [clzLoop]
      omega
  | succ fuel ih =>
      intro x count pos word short
      have size_le : x.size ≤ 64 := Nat.size_le.2 word
      rw [clzLoop]
      split_ifs with clear
      · -- bit 63 is clear: the shift doubles the word and its size grows by one
        have low := (and_top_eq_zero word).1 clear
        have fits : x <<< 1 < 2 ^ 64 := by
          rw [Nat.shiftLeft_eq]
          omega
        have grown : (x <<< 1).size = x.size + 1 := Nat.size_shiftLeft (by omega) 1
        have below : x.size ≤ 63 := Nat.size_le.2 low
        rw [Nat.mod_eq_of_lt fits, ih _ _ (Nat.size_pos.1 (by omega)) fits (by omega), grown]
        omega
      · -- bit 63 is set: the word already fills 64 bits
        have high : 2 ^ 63 ≤ x := Nat.le_of_not_lt fun low => clear ((and_top_eq_zero word).2 low)
        have full : 63 < x.size := Nat.lt_size.2 high
        omega

theorem countLeadingZeros_eq {x : Nat} (pos : 0 < x) (word : x < 2 ^ 64) :
    countLeadingZeros x = 64 - x.size := by
  rw [countLeadingZeros, if_neg (by omega), clzLoop_eq 64 x 0 pos word (by omega), Nat.zero_add]

theorem log2Ceil_eq {x : Nat} (word : x < 2 ^ 64) : log2Ceil x = (x - 1).size := by
  unfold log2Ceil
  split_ifs with small
  · rw [show x - 1 = 0 by omega, Nat.size_zero]
  · rw [countLeadingZeros_eq (by omega) (by omega)]
    have : (x - 1).size ≤ 64 := Nat.size_le.2 (by omega)
    omega

/-! ## Smearing the highest bit -/

theorem testBit_or_shiftRight {x y w : Nat}
    (window : ∀ i, x.testBit i = true ↔ ∃ j, i ≤ j ∧ j < i + w ∧ y.testBit j = true) (i : Nat) :
    (x ||| x >>> w).testBit i = true ↔ ∃ j, i ≤ j ∧ j < i + 2 * w ∧ y.testBit j = true := by
  rw [Nat.testBit_or, Nat.testBit_shiftRight, Bool.or_eq_true, window, window]
  constructor
  · rintro (⟨j, low, high, set⟩ | ⟨j, low, high, set⟩)
    · exact ⟨j, low, by omega, set⟩
    · exact ⟨j, by omega, by omega, set⟩
  · rintro ⟨j, low, high, set⟩
    by_cases first : j < i + w
    · exact .inl ⟨j, low, first, set⟩
    · exact .inr ⟨j, by omega, by omega, set⟩

/-- The six steps of `next_power_of_2` on `y = x - 1`. -/
def smear (y : Nat) : Nat :=
  let x := y ||| y >>> 1
  let x := x ||| x >>> 2
  let x := x ||| x >>> 4
  let x := x ||| x >>> 8
  let x := x ||| x >>> 16
  x ||| x >>> 32

theorem testBit_smear (y i : Nat) :
    (smear y).testBit i = true ↔ ∃ j, i ≤ j ∧ j < i + 64 ∧ y.testBit j = true := by
  have start : ∀ i, y.testBit i = true ↔ ∃ j, i ≤ j ∧ j < i + 1 ∧ y.testBit j = true := fun i =>
    ⟨fun set => ⟨i, le_rfl, by omega, set⟩, fun ⟨j, low, high, set⟩ => by rwa [show i = j by omega]⟩
  exact testBit_or_shiftRight (testBit_or_shiftRight (testBit_or_shiftRight (testBit_or_shiftRight
    (testBit_or_shiftRight (testBit_or_shiftRight start))))) i

theorem smear_eq {y : Nat} (word : y < 2 ^ 64) : smear y = 2 ^ y.size - 1 := by
  apply Nat.eq_of_testBit_eq
  intro i
  rw [Nat.testBit_two_pow_sub_one, Bool.eq_iff_iff, testBit_smear, decide_eq_true_iff, Nat.lt_size]
  constructor
  · rintro ⟨j, low, -, set⟩
    exact le_trans (Nat.pow_le_pow_right (by omega) low) (Nat.testBit_implies_ge set)
  · intro above
    by_contra none
    refine absurd (Nat.lt_pow_two_of_testBit y fun j ge => ?_) (Nat.not_lt.2 above)
    by_contra set
    have high : j < 64 := by
      by_contra big
      exact set (Nat.testBit_lt_two_pow (lt_of_lt_of_le word (Nat.pow_le_pow_right (by omega) (by omega))))
    exact none ⟨j, ge, by omega, Bool.not_eq_false _ ▸ set⟩

/-! ## The least power of two at or above -/

theorem nextPowerOf2_eq {x : Nat} (pos : 0 < x) : nextPowerOf2 x = (smear (x - 1) + 1) % 2 ^ 64 := by
  simp only [nextPowerOf2, if_neg (Nat.pos_iff_ne_zero.1 pos), smear]

theorem nextPowerOf2_eq_two_pow {x : Nat} (le : x ≤ 2 ^ 63) : nextPowerOf2 x = 2 ^ (x - 1).size := by
  by_cases zero : x = 0
  · subst zero
    simp [nextPowerOf2]
  have small : (x - 1).size ≤ 63 := Nat.size_le.2 (by omega)
  rw [nextPowerOf2_eq (by omega), smear_eq (by omega), Nat.sub_add_cancel Nat.one_le_two_pow,
    Nat.mod_eq_of_lt (Nat.pow_lt_pow_right (by omega) (by omega))]

/-- For every `x ≤ 2 ^ 63`, `next_power_of_2(x)` is the least power of two at
or above `x` (1 for 0), equal to `1 << log2_ceil(x)`, and `x` itself when `x`
is a power of two. -/
theorem next_power_of_2_least (x : Nat) (le : x ≤ 2 ^ 63) :
    (nextPowerOf2 x).isPowerOfTwo ∧ x ≤ nextPowerOf2 x ∧
      (∀ p : Nat, p.isPowerOfTwo → x ≤ p → nextPowerOf2 x ≤ p) ∧
      nextPowerOf2 x = 1 <<< log2Ceil x ∧
      (x.isPowerOfTwo → nextPowerOf2 x = x) := by
  rw [nextPowerOf2_eq_two_pow le]
  have above : x ≤ 2 ^ (x - 1).size := by
    have := Nat.lt_size_self (x - 1)
    omega
  have least : ∀ p : Nat, p.isPowerOfTwo → x ≤ p → 2 ^ (x - 1).size ≤ p := by
    rintro p ⟨m, rfl⟩ at_least
    have := Nat.two_pow_pos m
    exact Nat.pow_le_pow_right (by omega) (Nat.size_le.2 (by omega))
  refine ⟨⟨_, rfl⟩, above, least, by rw [Nat.one_shiftLeft, log2Ceil_eq (by omega)], fun power => ?_⟩
  exact le_antisymm (least x power le_rfl) above

theorem next_power_of_2_fifteen : (15 : Nat) ≤ 2 ^ 63 ∧ (nextPowerOf2 15).isPowerOfTwo ∧ 15 ≤ nextPowerOf2 15 ∧
    (∀ p : Nat, p.isPowerOfTwo → 15 ≤ p → nextPowerOf2 15 ≤ p) ∧ nextPowerOf2 15 = 1 <<< log2Ceil 15 ∧
    ((15 : Nat).isPowerOfTwo → nextPowerOf2 15 = 15) :=
  ⟨by decide, next_power_of_2_least 15 (by decide)⟩

example : nextPowerOf2 15 = 16 ∧ nextPowerOf2 16 = 16 ∧ log2Ceil 15 = 4 ∧ log2Ceil 16 = 4 := by decide

/-- Above `2 ^ 63` the final increment wraps: `next_power_of_2(x)` is 0. -/
theorem next_power_of_2_wraps {x : Nat} (big : 2 ^ 63 < x) (word : x < 2 ^ 64) : nextPowerOf2 x = 0 := by
  have full : (x - 1).size = 64 :=
    le_antisymm (Nat.size_le.2 (by omega)) (Nat.lt_size.2 (by omega))
  rw [nextPowerOf2_eq (by omega), smear_eq (by omega), full, Nat.sub_add_cancel Nat.one_le_two_pow, Nat.mod_self]

theorem next_power_of_2_wraps_top : 2 ^ 63 < 2 ^ 64 - 1 ∧ 2 ^ 64 - 1 < 2 ^ 64 ∧ nextPowerOf2 (2 ^ 64 - 1) = 0 :=
  ⟨by decide, by decide, next_power_of_2_wraps (by decide) (by decide)⟩

/-! ## The lowest set bit -/

def TrailingZeros (x k : Nat) : Prop :=
  ∃ m, x = 2 ^ k * (2 * m + 1)

theorem ctzLoop_eq : ∀ (fuel x count : Nat), 0 < x → x < 2 ^ fuel →
    ∃ k, ctzLoop fuel x count = count + k ∧ TrailingZeros x k := by
  intro fuel
  induction fuel with
  | zero => intro x count pos small; simp at small; omega
  | succ fuel ih =>
      intro x count pos small
      rw [ctzLoop, Nat.and_one_is_mod, Nat.shiftRight_one]
      split_ifs with even
      · -- bit 0 is clear: one more trailing zero
        obtain ⟨k, loop, m, half⟩ := ih (x / 2) (count + 1) (by omega) (by rw [Nat.pow_succ] at small; omega)
        refine ⟨k + 1, by rw [loop]; omega, m, ?_⟩
        rw [Nat.pow_succ, Nat.mul_comm (2 ^ k) 2, Nat.mul_assoc, ← half]
        omega
      · exact ⟨0, rfl, x / 2, by omega⟩

theorem exists_trailingZeros {x : Nat} (pos : 0 < x) : ∃ k, TrailingZeros x k :=
  (ctzLoop_eq x x 0 pos (Nat.lt_two_pow x)).imp fun _ spec => spec.2

theorem countTrailingZeros_spec {x : Nat} (pos : 0 < x) (word : x < 2 ^ 64) :
    TrailingZeros x (countTrailingZeros x) := by
  obtain ⟨k, loop, spec⟩ := ctzLoop_eq 64 x 0 pos word
  rw [countTrailingZeros, if_neg (by omega), loop, Nat.zero_add]
  exact spec

theorem testBit_of_trailingZeros {x k m : Nat} (split : x = 2 ^ k * (2 * m + 1)) (j : Nat) :
    x.testBit j = (decide (k = j) || (decide (k < j) && (2 * m + 1).testBit (j - k))) := by
  have bits := Nat.testBit_mul_pow_two_add (2 * m + 1) (Nat.two_pow_pos k) j
  rw [Nat.add_zero, ← split, Nat.zero_testBit] at bits
  rw [bits]
  by_cases below : j < k
  · simp [below, show k ≠ j by omega, show ¬k < j by omega]
  · by_cases same : k = j
    · subst same
      simp [Nat.testBit_zero]
      omega
    · simp [below, same, show k < j by omega]

/-- `count_trailing_zeros(x)` of a nonzero word is the index of its lowest set
bit: the same count `__builtin_ctzll` returns. -/
theorem count_trailing_zeros_lowest {x : Nat} (pos : 0 < x) (word : x < 2 ^ 64) :
    x.testBit (countTrailingZeros x) = true ∧ ∀ i < countTrailingZeros x, x.testBit i = false := by
  obtain ⟨m, split⟩ := countTrailingZeros_spec pos word
  refine ⟨by simp [testBit_of_trailingZeros split], fun i below => ?_⟩
  simp [testBit_of_trailingZeros split, show countTrailingZeros x ≠ i by omega,
    show ¬countTrailingZeros x < i by omega]

theorem count_trailing_zeros_forty :
    0 < 40 ∧ 40 < 2 ^ 64 ∧
      (40 : Nat).testBit (countTrailingZeros 40) = true ∧ ∀ i < countTrailingZeros 40, (40 : Nat).testBit i = false :=
  ⟨by decide, by decide, count_trailing_zeros_lowest (by decide) (by decide)⟩

theorem and_sub_one {x k m : Nat} (split : x = 2 ^ k * (2 * m + 1)) : x &&& (x - 1) = 2 ^ (k + 1) * m := by
  have high : x = 2 ^ (k + 1) * m + 2 ^ k := by
    rw [split, Nat.pow_succ, Nat.mul_add, Nat.mul_one, Nat.mul_assoc]
  have low : x - 1 = 2 ^ (k + 1) * m + (2 ^ k - 1) := by have := Nat.two_pow_pos k; omega
  apply Nat.eq_of_testBit_eq
  intro j
  have fits : 2 ^ k < 2 ^ (k + 1) := Nat.pow_lt_pow_right (by omega) (by omega)
  rw [Nat.testBit_and, low, high, Nat.testBit_mul_pow_two_add m fits,
    Nat.testBit_mul_pow_two_add m (by omega : 2 ^ k - 1 < 2 ^ (k + 1)),
    ← Nat.add_zero (2 ^ (k + 1) * m), Nat.testBit_mul_pow_two_add m (Nat.two_pow_pos _)]
  split_ifs with below
  · simp only [Nat.testBit_two_pow, Nat.testBit_two_pow_sub_one, Nat.zero_testBit]
    by_cases same : k = j <;> simp [same]
  · simp

/-! ## Counting set bits -/

def bitCount (x : Nat) : Nat → Nat
  | 0 => 0
  | n + 1 => bitCount x n + (x.testBit n).toNat

theorem bitCount_le (x n : Nat) : bitCount x n ≤ n := by
  induction n with
  | zero => rfl
  | succ n ih => cases h : x.testBit n <;> simp [bitCount, h] <;> omega

theorem bitCount_zero (n : Nat) : bitCount 0 n = 0 := by
  induction n with
  | zero => rfl
  | succ n ih => simp [bitCount, ih]

theorem bitCount_and_sub_one {x k m : Nat} (split : x = 2 ^ k * (2 * m + 1)) (n : Nat) :
    bitCount x n = bitCount (x &&& (x - 1)) n + if k < n then 1 else 0 := by
  rw [and_sub_one split]
  induction n with
  | zero => rfl
  | succ n ih =>
      have cleared : (2 ^ (k + 1) * m).testBit n = (decide (k < n) && (2 * m + 1).testBit (n - k)) := by
        have bits := Nat.testBit_mul_pow_two_add m (Nat.two_pow_pos (k + 1)) n
        rw [Nat.add_zero, Nat.zero_testBit] at bits
        rw [bits]
        by_cases below : n < k + 1
        · simp [below, show ¬k < n by omega]
        · have step : n - k = n - (k + 1) + 1 := by omega
          simp [below, show k < n by omega, step, Nat.testBit_succ, Nat.mul_add_div]
      simp only [bitCount, ih, testBit_of_trailingZeros split, cleared]
      by_cases same : k = n
      · subst same
        simp
      · by_cases below : k < n
        · simp [same, below, show k < n + 1 by omega]
          omega
        · simp [same, below, show ¬k < n + 1 by omega]

theorem popLoop_eq : ∀ (fuel x count : Nat), x < 2 ^ 64 → bitCount x 64 ≤ fuel →
    popLoop fuel x count = count + bitCount x 64 := by
  intro fuel
  induction fuel with
  | zero => intro x count _ none; rw [popLoop]; omega
  | succ fuel ih =>
      intro x count word few
      rw [popLoop]
      split_ifs with zero
      · simp [zero, bitCount_zero]
      · obtain ⟨k, m, split⟩ := exists_trailingZeros (Nat.pos_of_ne_zero zero)
        have inside : k < 64 := by
          have : 2 ^ k ≤ x := by rw [split]; exact Nat.le_mul_of_pos_right _ (by omega)
          exact (Nat.pow_lt_pow_iff_right (by omega)).1 (lt_of_le_of_lt this word)
        have count := bitCount_and_sub_one split 64
        rw [if_pos inside] at count
        rw [ih _ _ (lt_of_le_of_lt Nat.and_le_left word) (by omega), count]
        omega

/-- The portable `popcount` loop counts the set bits of every word, as
`__builtin_popcountll` does. -/
theorem popcount_eq_bitCount {x : Nat} (word : x < 2 ^ 64) : popcount x = bitCount x 64 := by
  rw [popcount, popLoop_eq 64 x 0 word (bitCount_le x 64), Nat.zero_add]

theorem popcount_all_ones : 2 ^ 64 - 1 < 2 ^ 64 ∧ popcount (2 ^ 64 - 1) = bitCount (2 ^ 64 - 1) 64 :=
  ⟨by decide, popcount_eq_bitCount (by decide)⟩

/-! ## Powers of two -/

/-- `is_power_of_2(x)` holds exactly of the powers of two. -/
theorem is_power_of_2_iff (x : Nat) : isPowerOf2 x = true ↔ x.isPowerOfTwo := by
  constructor
  · intro test
    simp only [isPowerOf2, Bool.and_eq_true, bne_iff_ne, beq_iff_eq] at test
    obtain ⟨nonzero, cleared⟩ := test
    obtain ⟨k, m, split⟩ := exists_trailingZeros (Nat.pos_of_ne_zero nonzero)
    rw [and_sub_one split, Nat.mul_eq_zero] at cleared
    have : m = 0 := cleared.resolve_left (Nat.pos_iff_ne_zero.1 (Nat.two_pow_pos _))
    exact ⟨k, by rw [split, this, Nat.mul_zero, Nat.zero_add, Nat.mul_one]⟩
  · rintro ⟨k, rfl⟩
    have cleared : 2 ^ k &&& (2 ^ k - 1) = 0 := and_sub_one (show 2 ^ k = 2 ^ k * (2 * 0 + 1) by simp)
    simp [isPowerOf2, cleared]

/-! ## `log2_floor` against `log2_ceil` -/

theorem log2Floor_eq {x : Nat} (pos : 0 < x) (word : x < 2 ^ 64) : log2Floor x = ((x.size - 1 : Nat) : Int) := by
  have := Nat.size_le.2 word
  have := Nat.size_pos.2 pos
  rw [log2Floor, countLeadingZeros_eq pos word]
  omega

theorem size_two_pow_sub_one (k : Nat) : (2 ^ k - 1).size = k := by
  refine le_antisymm (Nat.size_le.2 (by have := Nat.two_pow_pos k; omega)) ?_
  cases k with
  | zero => exact Nat.zero_le _
  | succ k =>
      have : 2 ^ k ≤ 2 ^ (k + 1) - 1 := by rw [Nat.pow_succ]; have := Nat.two_pow_pos k; omega
      exact Nat.lt_size.2 this

/-- For every nonzero word, `log2_floor(x)` and `log2_ceil(x)` bracket it:
`2 ^ floor ≤ x < 2 ^ (floor + 1)`, and the ceiling is the floor exactly when
`is_power_of_2(x)` holds, and one more otherwise. -/
theorem log2_floor_ceil {x : Nat} (pos : 0 < x) (word : x < 2 ^ 64) :
    2 ^ (log2Floor x).toNat ≤ x ∧ x < 2 ^ ((log2Floor x).toNat + 1) ∧
      (log2Ceil x : Int) = log2Floor x + if isPowerOf2 x then 0 else 1 := by
  have size_pos := Nat.size_pos.2 pos
  have low : 2 ^ (x.size - 1) ≤ x := Nat.lt_size.1 (by omega)
  rw [log2Floor_eq pos word, Int.toNat_ofNat, log2Ceil_eq word]
  refine ⟨low, by rw [Nat.sub_add_cancel size_pos]; exact Nat.lt_size_self x, ?_⟩
  by_cases power : isPowerOf2 x
  · obtain ⟨k, rfl⟩ := (is_power_of_2_iff _).1 power
    rw [if_pos power, size_two_pow_sub_one, Nat.size_pow]
    simp
  · -- above a power of two, `x - 1` keeps the bit length of `x`
    have strict : 2 ^ (x.size - 1) < x :=
      lt_of_le_of_ne low fun same => power ((is_power_of_2_iff x).2 ⟨_, same.symm⟩)
    have kept : (x - 1).size = x.size :=
      le_antisymm (Nat.size_le_size (Nat.sub_le x 1)) (by
        have := Nat.lt_size.2 (show 2 ^ (x.size - 1) ≤ x - 1 by omega)
        omega)
    rw [if_neg power, kept]
    omega

theorem log2_floor_ceil_forty :
    0 < 40 ∧ 40 < 2 ^ 64 ∧ 2 ^ (log2Floor 40).toNat ≤ 40 ∧ 40 < 2 ^ ((log2Floor 40).toNat + 1) ∧
      (log2Ceil 40 : Int) = log2Floor 40 + if isPowerOf2 40 then 0 else 1 :=
  ⟨by decide, by decide, log2_floor_ceil (by decide) (by decide)⟩

example : countTrailingZeros 40 = 3 ∧ popcount 40 = 2 ∧ isPowerOf2 64 = true ∧ isPowerOf2 40 = false ∧
    log2Floor 40 = 5 ∧ log2Ceil 40 = 6 := by
  decide

/-! ## Prices as ticks -/

/-- `CompactPrice`: a price as a count of ticks. -/
structure CompactPrice where
  ticks : Nat

/-- `CompactPrice::from_double(price, tick_size)`:
`static_cast<uint64_t>(price / tick_size + 0.5)`, the division and the
addition each rounded to a double.  The cast truncates toward zero, and is
undefined when the truncated value does not fit in `uint64_t`, or when
`tick_size` is 0 (an infinity or a NaN). -/
def CompactPrice.fromDouble (price tickSize : ℚ) : Option CompactPrice :=
  let v := Binary64.round (Binary64.round (price / tickSize) + 1 / 2)
  if tickSize ≠ 0 ∧ -1 < v ∧ v < 2 ^ 64 then some ⟨⌊v⌋₊⟩ else none

/-- `CompactPrice::to_double(tick_size)`: the count converted to a double,
times `tick_size`, rounded. -/
def CompactPrice.toDouble (p : CompactPrice) (tickSize : ℚ) : ℚ :=
  Binary64.round (Binary64.round p.ticks * tickSize)

/-- `operator<`. -/
def CompactPrice.lt (a b : CompactPrice) : Bool :=
  a.ticks < b.ticks

section Ticks

open Binary64 hiding round

theorem isDouble_count_add_eighths {t : ℕ} (small : t < 2 ^ 50) {k : ℕ} (k_lt : k < 8) :
    IsDouble ((t : ℚ) + k / 8) := by
  refine ⟨8 * t + k, -3, ?_, by norm_num, ?_⟩
  · rw [abs_of_nonneg (by positivity)]
    omega
  · rw [show (2 : ℚ) ^ (-3 : ℤ) = 1 / 8 by norm_num]
    push_cast
    ring

theorem fromDouble_of_near {price tickSize : ℚ} (tick : tickSize ≠ 0) {t : ℕ} (small : t < 2 ^ 50)
    (near : |Binary64.round (price / tickSize) - t| ≤ 3 / 8) :
    CompactPrice.fromDouble price tickSize = some ⟨t⟩ := by
  simp only [CompactPrice.fromDouble]
  generalize Binary64.round (price / tickSize) = r at near ⊢
  obtain ⟨low, high⟩ := abs_le.1 near
  have above : (t : ℚ) + 1 / 8 ≤ Binary64.round (r + 1 / 2) :=
    le_round_of_le (by simpa using isDouble_count_add_eighths small (by norm_num : 1 < 8)) (by linarith only [low])
  have below : Binary64.round (r + 1 / 2) ≤ t + 7 / 8 :=
    round_le_of_le (by simpa using isDouble_count_add_eighths small (by norm_num : 7 < 8)) (by linarith only [high])
  have count : (0 : ℚ) ≤ t ∧ (t : ℚ) < 2 ^ 50 := ⟨Nat.cast_nonneg t, by exact_mod_cast small⟩
  generalize Binary64.round (r + 1 / 2) = v at above below ⊢
  rw [if_pos ⟨tick, by linarith only [above, count.1], by linarith only [below, count.2]⟩,
    (Nat.floor_eq_iff (by linarith only [above, count.1])).2 ⟨by linarith only [above], by linarith only [below]⟩]

theorem toDouble_near {tickSize : ℚ} (low : 2 ^ (-1000 : ℤ) ≤ tickSize) (high : tickSize ≤ 2 ^ (900 : ℤ))
    {t : ℕ} (small : t < 2 ^ 50) :
    |(⟨t⟩ : CompactPrice).toDouble tickSize - t * tickSize| ≤ t * tickSize / 2 ^ 53 ∧
      (⟨t⟩ : CompactPrice).toDouble tickSize ≤ 2 ^ (950 : ℤ) := by
  have tick : 0 < tickSize := lt_of_lt_of_le (two_zpow_pos _) low
  have exact : Binary64.round (t : ℚ) = t := round_eq_self (isDouble_natCast (small.trans (by norm_num)))
  have fits : (t : ℚ) * tickSize ≤ 2 ^ (950 : ℤ) :=
    calc (t : ℚ) * tickSize ≤ 2 ^ 50 * 2 ^ 900 := mul_le_mul (by exact_mod_cast small.le) high tick.le (by positivity)
      _ = 2 ^ (950 : ℤ) := by norm_num
  simp only [CompactPrice.toDouble, exact]
  refine ⟨?_, round_le_of_le (isDouble_two_zpow (by norm_num)) fits⟩
  rcases Nat.eq_zero_or_pos t with rfl | pos
  · simp
  have product : 0 < (t : ℚ) * tickSize := by positivity
  have normal : 2 ^ (-1022 : ℤ) ≤ |(t : ℚ) * tickSize| := by
    rw [abs_of_pos product]
    calc (2 : ℚ) ^ (-1022 : ℤ) ≤ 2 ^ (-1000 : ℤ) := two_zpow_le_two_zpow (by norm_num)
      _ ≤ 1 * tickSize := by rw [one_mul]; exact low
      _ ≤ t * tickSize := mul_le_mul_of_nonneg_right (by exact_mod_cast pos) tick.le
  simpa [abs_of_pos product] using abs_round_sub_le_of_normal normal

theorem fromDouble_toDouble {tickSize : ℚ} (low : 2 ^ (-1000 : ℤ) ≤ tickSize) (high : tickSize ≤ 2 ^ (900 : ℤ))
    {t : ℕ} (small : t < 2 ^ 50) :
    CompactPrice.fromDouble ((⟨t⟩ : CompactPrice).toDouble tickSize) tickSize = some ⟨t⟩ := by
  have tick : 0 < tickSize := lt_of_lt_of_le (two_zpow_pos _) low
  have fits : (t : ℚ) ≤ 2 ^ 50 := by exact_mod_cast small.le
  obtain ⟨near, -⟩ := toDouble_near low high small
  generalize (⟨t⟩ : CompactPrice).toDouble tickSize = v at near ⊢
  have quotient : |v / tickSize - t| ≤ t / 2 ^ 53 := by
    rw [show v / tickSize - t = (v - t * tickSize) / tickSize by rw [sub_div, mul_div_cancel_right₀ _ tick.ne'],
      abs_div, abs_of_pos tick, div_le_iff₀ tick, div_mul_eq_mul_div]
    exact near
  obtain ⟨qlow, qhigh⟩ := abs_le.1 quotient
  apply fromDouble_of_near tick.ne' small
  generalize v / tickSize = x at qlow qhigh ⊢
  rcases Nat.eq_zero_or_pos t with rfl | pos
  · have zero : x = 0 := by push_cast at qlow qhigh; linarith only [qlow, qhigh]
    norm_num [zero]
  have one : (1 : ℚ) ≤ t := by exact_mod_cast pos
  have positive : 0 < x := by linarith only [qlow, one]
  have normal : 2 ^ (-1022 : ℤ) ≤ |x| := by
    rw [abs_of_pos positive]
    calc (2 : ℚ) ^ (-1022 : ℤ) ≤ 2 ^ (-1 : ℤ) := two_zpow_le_two_zpow (by norm_num)
      _ ≤ x := by rw [zpow_neg_one]; linarith only [qlow, one]
  have rounded := abs_le.1 (abs_round_sub_le_of_normal normal)
  rw [abs_of_pos positive] at rounded
  rw [abs_le]
  constructor <;> linarith only [rounded.1, rounded.2, qlow, qhigh, fits]

/-- For a tick size in `[2 ^ -1000, 2 ^ 900]`: `to_double` gives a finite double
for every count below `2 ^ 50`, from which `from_double` gives the count back;
where neither `price / tick_size` nor that quotient plus `0.5` rounds (both are
doubles), `from_double` returns the count nearest the quotient, a tie rounding
up; and it never orders two prices the other way round. -/
theorem compact_price_nearest_tick {tickSize : ℚ} (low : 2 ^ (-1000 : ℤ) ≤ tickSize) (high : tickSize ≤ 2 ^ (900 : ℤ)) :
    (∀ t : Nat, t < 2 ^ 50 → (⟨t⟩ : CompactPrice).toDouble tickSize ≤ 2 ^ (950 : ℤ) ∧
      CompactPrice.fromDouble ((⟨t⟩ : CompactPrice).toDouble tickSize) tickSize = some ⟨t⟩) ∧
    (∀ (price : ℚ) (p : CompactPrice), 0 ≤ price → IsDouble (price / tickSize) →
      IsDouble (price / tickSize + 1 / 2) → CompactPrice.fromDouble price tickSize = some p →
      price / tickSize - 1 / 2 < p.ticks ∧ (p.ticks : ℚ) ≤ price / tickSize + 1 / 2) ∧
    (∀ (price price' : ℚ) (p p' : CompactPrice), price ≤ price' →
      CompactPrice.fromDouble price tickSize = some p → CompactPrice.fromDouble price' tickSize = some p' →
      (p'.lt p) = false) := by
  have tick : 0 < tickSize := lt_of_lt_of_le (two_zpow_pos _) low
  refine ⟨fun t small => ⟨(toDouble_near low high small).2, fromDouble_toDouble low high small⟩,
    fun price p nonneg quotient half encoded => ?_, fun price price' p p' le encoded encoded' => ?_⟩
  · simp only [CompactPrice.fromDouble, round_eq_self quotient, round_eq_self half] at encoded
    split_ifs at encoded
    obtain rfl := Option.some.inj encoded
    have v_nonneg : 0 ≤ price / tickSize + 1 / 2 := add_nonneg (div_nonneg nonneg tick.le) (by norm_num)
    exact ⟨by linarith [Nat.sub_one_lt_floor (price / tickSize + 1 / 2)], Nat.floor_le v_nonneg⟩
  · simp only [CompactPrice.fromDouble] at encoded encoded'
    split_ifs at encoded encoded'
    obtain rfl := Option.some.inj encoded
    obtain rfl := Option.some.inj encoded'
    have quotients : price / tickSize ≤ price' / tickSize := div_le_div_of_nonneg_right le tick.le
    simp only [CompactPrice.lt, decide_eq_false_iff_not, not_lt]
    exact Nat.floor_mono (round_mono (add_le_add_right (round_mono quotients) _))

end Ticks

theorem compact_price_cents :
    (2 : ℚ) ^ (-1000 : ℤ) ≤ Binary64.round (1 / 100) ∧ Binary64.round (1 / 100) ≤ 2 ^ (900 : ℤ) ∧
    (∀ t : Nat, t < 2 ^ 50 → (⟨t⟩ : CompactPrice).toDouble (Binary64.round (1 / 100)) ≤ 2 ^ (950 : ℤ) ∧
      CompactPrice.fromDouble ((⟨t⟩ : CompactPrice).toDouble (Binary64.round (1 / 100))) (Binary64.round (1 / 100)) =
        some ⟨t⟩) ∧
    (∀ (price : ℚ) (p : CompactPrice), 0 ≤ price → Binary64.IsDouble (price / Binary64.round (1 / 100)) →
      Binary64.IsDouble (price / Binary64.round (1 / 100) + 1 / 2) →
      CompactPrice.fromDouble price (Binary64.round (1 / 100)) = some p →
      price / Binary64.round (1 / 100) - 1 / 2 < p.ticks ∧ (p.ticks : ℚ) ≤ price / Binary64.round (1 / 100) + 1 / 2) ∧
    (∀ (price price' : ℚ) (p p' : CompactPrice), price ≤ price' →
      CompactPrice.fromDouble price (Binary64.round (1 / 100)) = some p →
      CompactPrice.fromDouble price' (Binary64.round (1 / 100)) = some p' → (p'.lt p) = false) :=
  have low : (2 : ℚ) ^ (-1000 : ℤ) ≤ Binary64.round (1 / 100) :=
    Binary64.le_round_of_le (Binary64.isDouble_two_zpow (by norm_num)) (by norm_num)
  have high : Binary64.round (1 / 100) ≤ 2 ^ (900 : ℤ) :=
    Binary64.round_le_of_le (Binary64.isDouble_two_zpow (by norm_num)) (by norm_num)
  ⟨low, high, compact_price_nearest_tick low high⟩

end Hft.Bits
