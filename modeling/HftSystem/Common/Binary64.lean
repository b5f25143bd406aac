import Mathlib.Data.Int.Log
import Mathlib.Data.Rat.Floor
import Mathlib.Algebra.Order.Field.Power
import Mathlib.Tactic.Linarith
import Mathlib.Tactic.Positivity

/-!
# Binary64 arithmetic

A `double` operation of the source computes its exact result and rounds it to
the nearest binary64 value, a tie going to the even significand.  `round` keeps
53 significant bits and floors the quantum at the subnormal `2 ^ -1074`.  Its
exponent is unbounded above: binary64 overflows to an infinity from `2 ^ 1024`
on, and the results that use `round` keep their values below that.

`IsDouble` is the binary64 grid.  `round_eq_self` fixes every point of it and
`isDouble_round` puts every result on it; `round_le_of_le` and `le_round_of_le`
say that rounding never crosses a grid point, `round_mono` that it keeps order,
and `abs_round_sub_le_of_normal` bounds the error by `2 ^ -53` of the value in
the normal range.
-/

set_option autoImplicit false

namespace Hft.Binary64

/-- Rounding to an integer: to the nearest one, a tie to the even one. -/
def roundEven (q : ℚ) : ℤ :=
  if q - ⌊q⌋ < 1 / 2 then ⌊q⌋
  else if 1 / 2 < q - ⌊q⌋ then ⌊q⌋ + 1
  else if ⌊q⌋ % 2 = 0 then ⌊q⌋ else ⌊q⌋ + 1

/-- The exponent of the last significant bit of a double near `x`: `e - 52`
for `2 ^ e ≤ |x| < 2 ^ (e + 1)`, and never below the subnormal `-1074`. -/
def quantum (x : ℚ) : ℤ :=
  if x = 0 then -1074 else max (Int.log 2 |x| - 52) (-1074)

/-- The binary64 value nearest `x`, ties to even. -/
def round (x : ℚ) : ℚ :=
  roundEven (x / 2 ^ quantum x) * 2 ^ quantum x

/-- The binary64 grid: a significand of at most 53 bits times a power of two
no finer than the subnormal quantum. -/
def IsDouble (g : ℚ) : Prop :=
  ∃ m q : ℤ, |m| < 2 ^ 53 ∧ -1074 ≤ q ∧ g = m * 2 ^ q

/-! ## Rounding to an integer -/

theorem roundEven_cases (q : ℚ) :
    (roundEven q = ⌊q⌋ ∧ q - ⌊q⌋ ≤ 1 / 2) ∨ (roundEven q = ⌊q⌋ + 1 ∧ 1 / 2 ≤ q - ⌊q⌋) := by
  unfold roundEven
  split_ifs with below above
  · exact Or.inl ⟨rfl, below.le⟩
  · exact Or.inr ⟨rfl, above.le⟩
  · exact Or.inl ⟨rfl, not_lt.1 above⟩
  · exact Or.inr ⟨rfl, not_lt.1 below⟩

theorem floor_le_roundEven (q : ℚ) : ⌊q⌋ ≤ roundEven q := by
  rcases roundEven_cases q with ⟨rounded, -⟩ | ⟨rounded, -⟩ <;> omega

theorem roundEven_le_ceil (q : ℚ) : roundEven q ≤ ⌈q⌉ := by
  rcases roundEven_cases q with ⟨rounded, -⟩ | ⟨rounded, up⟩
  · exact rounded ▸ Int.floor_le_ceil q
  · exact rounded ▸ Int.lt_ceil.2 (by linarith only [up])

theorem roundEven_le {q : ℚ} {n : ℤ} (h : q ≤ n) : roundEven q ≤ n :=
  (roundEven_le_ceil q).trans (Int.ceil_le.2 h)

theorem le_roundEven {q : ℚ} {n : ℤ} (h : (n : ℚ) ≤ q) : n ≤ roundEven q :=
  (Int.le_floor.2 h).trans (floor_le_roundEven q)

theorem roundEven_mono {a b : ℚ} (h : a ≤ b) : roundEven a ≤ roundEven b := by
  rcases lt_or_eq_of_le (Int.floor_mono h) with lower | same
  · calc roundEven a ≤ ⌈a⌉ := roundEven_le_ceil a
      _ ≤ ⌊a⌋ + 1 := Int.ceil_le_floor_add_one a
      _ ≤ ⌊b⌋ := lower
      _ ≤ roundEven b := floor_le_roundEven b
  rcases roundEven_cases a with ⟨ra, -⟩ | ⟨ra, up⟩ <;> rcases roundEven_cases b with ⟨rb, down⟩ | ⟨rb, -⟩
  · omega
  · omega
  · -- a rounds up and b down with one floor: both sit on the tie, so they are equal
    have tie : a = b := by
      rw [same] at up
      linarith only [h, up, down]
    exact (congrArg roundEven tie).le
  · omega

theorem abs_sub_roundEven_le (q : ℚ) : |(roundEven q : ℚ) - q| ≤ 1 / 2 := by
  have low := Int.floor_le q
  have high := Int.lt_floor_add_one q
  rw [abs_le]
  rcases roundEven_cases q with ⟨rounded, near⟩ | ⟨rounded, near⟩ <;> rw [rounded] <;> push_cast <;>
    exact ⟨by linarith only [low, high, near], by linarith only [low, high, near]⟩

/-! ## The quantum -/

theorem two_zpow_pos (e : ℤ) : (0 : ℚ) < 2 ^ e := zpow_pos (by norm_num) e

theorem two_zpow_add (a b : ℤ) : (2 : ℚ) ^ (a + b) = 2 ^ a * 2 ^ b := zpow_add₀ two_ne_zero a b

theorem two_zpow_le_two_zpow {a b : ℤ} (h : a ≤ b) : (2 : ℚ) ^ a ≤ 2 ^ b := zpow_le_zpow_right₀ (by norm_num) h

theorem lt_two_zpow_iff {r : ℚ} (pos : 0 < r) (e : ℤ) : r < 2 ^ e ↔ Int.log 2 r < e := by
  have := @Int.lt_zpow_iff_log_lt ℚ _ _ 2 (by norm_num) e r pos
  rwa [Nat.cast_ofNat] at this

theorem two_zpow_le_iff {r : ℚ} (pos : 0 < r) (e : ℤ) : 2 ^ e ≤ r ↔ e ≤ Int.log 2 r := by
  have := @Int.zpow_le_iff_le_log ℚ _ _ 2 (by norm_num) e r pos
  rwa [Nat.cast_ofNat] at this

theorem quantum_ge (x : ℚ) : -1074 ≤ quantum x := by
  unfold quantum
  split_ifs
  · exact le_rfl
  · exact le_max_right _ _

theorem abs_lt_two_zpow_quantum (x : ℚ) : |x| < 2 ^ (quantum x + 53) := by
  unfold quantum
  split_ifs with zero
  · rw [zero, abs_zero]
    exact two_zpow_pos _
  · rw [lt_two_zpow_iff (abs_pos.2 zero)]
    omega

theorem quantum_le {x : ℚ} {q : ℤ} (h : |x| < 2 ^ (q + 53)) (hq : -1074 ≤ q) : quantum x ≤ q := by
  unfold quantum
  split_ifs with zero
  · exact hq
  · have := (lt_two_zpow_iff (abs_pos.2 zero) _).1 h
    omega

theorem two_zpow_quantum_le_of_normal {x : ℚ} (h : 2 ^ (-1022 : ℤ) ≤ |x|) : 2 ^ (quantum x + 52) ≤ |x| := by
  have pos : 0 < |x| := lt_of_lt_of_le (two_zpow_pos _) h
  have log := (two_zpow_le_iff pos _).1 h
  have nonzero : x ≠ 0 := abs_pos.1 pos
  rw [two_zpow_le_iff pos]
  unfold quantum
  rw [if_neg nonzero]
  omega

theorem two_zpow_quantum_le {x : ℚ} (normal : -1074 < quantum x) : 2 ^ (quantum x + 52) ≤ |x| := by
  have nonzero : x ≠ 0 := fun zero => by simp [quantum, zero] at normal
  have pos : 0 < |x| := abs_pos.2 nonzero
  apply two_zpow_quantum_le_of_normal
  rw [two_zpow_le_iff pos]
  unfold quantum at normal
  rw [if_neg nonzero] at normal
  omega

theorem two_zpow_add_fifty_two (e : ℤ) : (2 : ℚ) ^ (e + 52) = ((2 ^ 52 : ℤ) : ℚ) * 2 ^ e := by
  rw [two_zpow_add, mul_comm]
  norm_num

theorem abs_div_quantum_lt (x : ℚ) : |x / 2 ^ quantum x| < 2 ^ 53 := by
  have pos := two_zpow_pos (quantum x)
  have bound := abs_lt_two_zpow_quantum x
  rw [two_zpow_add, show (2 : ℚ) ^ (53 : ℤ) = 2 ^ 53 by norm_num] at bound
  rwa [abs_div, abs_of_pos pos, div_lt_iff₀ pos, mul_comm]

theorem abs_lt_of_quantum_gt {x : ℚ} {m q : ℤ} (small : |m| < 2 ^ 53) (coarse : q < quantum x) :
    |(m : ℚ) * 2 ^ q| < 2 ^ (quantum x + 52) := by
  rw [abs_mul, abs_of_pos (two_zpow_pos q)]
  calc |(m : ℚ)| * 2 ^ q < 2 ^ 53 * 2 ^ q := mul_lt_mul_of_pos_right (by exact_mod_cast small) (two_zpow_pos q)
    _ = 2 ^ (q + 53) := by rw [two_zpow_add, mul_comm]; norm_num
    _ ≤ 2 ^ (quantum x + 52) := two_zpow_le_two_zpow (by omega)

/-! ## The grid -/

theorem isDouble_of_abs_le {k q : ℤ} (h : |k| ≤ 2 ^ 53) (hq : -1074 ≤ q) : IsDouble (k * 2 ^ q) := by
  rcases lt_or_eq_of_le h with inside | edge
  · exact ⟨k, q, inside, hq, rfl⟩
  rcases abs_choice k with same | flipped
  · obtain rfl : k = 2 ^ 53 := same.symm.trans edge
    refine ⟨2 ^ 52, q + 1, by norm_num, by omega, ?_⟩
    rw [two_zpow_add]
    push_cast
    ring
  · obtain rfl : k = -2 ^ 53 := by have := flipped.symm.trans edge; omega
    refine ⟨-2 ^ 52, q + 1, by norm_num, by omega, ?_⟩
    rw [two_zpow_add]
    push_cast
    ring

theorem isDouble_intCast {n : ℤ} (h : |n| < 2 ^ 53) : IsDouble n := ⟨n, 0, h, by norm_num, by simp⟩

theorem isDouble_natCast {n : ℕ} (h : n < 2 ^ 53) : IsDouble n :=
  ⟨n, 0, by rw [Int.abs_natCast]; exact_mod_cast h, by norm_num, by simp⟩

theorem isDouble_two_zpow {e : ℤ} (h : -1074 ≤ e) : IsDouble (2 ^ e) := ⟨1, e, by norm_num, h, by simp⟩

theorem isDouble_neg_two_zpow {e : ℤ} (h : -1074 ≤ e) : IsDouble (-2 ^ e) := ⟨-1, e, by norm_num, h, by simp⟩

theorem isDouble_mul_two_zpow {m q : ℤ} (small : |m| < 2 ^ 53) {j : ℤ} (h : -1074 ≤ q + j) :
    IsDouble (m * 2 ^ q * 2 ^ j) :=
  ⟨m, q + j, small, h, by rw [two_zpow_add, mul_assoc]⟩

theorem mul_two_zpow_of_le {q Q : ℤ} (h : Q ≤ q) (m : ℤ) : ∃ n : ℤ, (m : ℚ) * 2 ^ q = n * 2 ^ Q := by
  refine ⟨m * 2 ^ (q - Q).toNat, ?_⟩
  push_cast
  rw [← zpow_natCast, Int.toNat_of_nonneg (sub_nonneg.2 h), mul_assoc, ← two_zpow_add, sub_add_cancel]

theorem IsDouble.mul_quantum {g : ℚ} (hg : IsDouble g) : ∃ n : ℤ, g = n * 2 ^ quantum g := by
  obtain ⟨m, q, small, low, rfl⟩ := hg
  apply mul_two_zpow_of_le (quantum_le _ low) m
  rw [abs_mul, abs_of_pos (two_zpow_pos q), two_zpow_add, mul_comm (2 ^ q : ℚ)]
  exact mul_lt_mul_of_pos_right (by exact_mod_cast small) (two_zpow_pos q)

/-! ## Rounding -/

@[simp] theorem round_zero : round 0 = 0 := by
  simp [round, roundEven]

theorem round_le_mul {x : ℚ} {n : ℤ} (h : x ≤ n * 2 ^ quantum x) : round x ≤ n * 2 ^ quantum x := by
  have pos := two_zpow_pos (quantum x)
  exact mul_le_mul_of_nonneg_right (by exact_mod_cast roundEven_le ((div_le_iff₀ pos).2 h)) pos.le

theorem le_round_mul {x : ℚ} {n : ℤ} (h : n * 2 ^ quantum x ≤ x) : n * 2 ^ quantum x ≤ round x := by
  have pos := two_zpow_pos (quantum x)
  exact mul_le_mul_of_nonneg_right (by exact_mod_cast le_roundEven ((le_div_iff₀ pos).2 h)) pos.le

theorem round_eq_self {g : ℚ} (hg : IsDouble g) : round g = g := by
  obtain ⟨n, hn⟩ := hg.mul_quantum
  exact le_antisymm ((round_le_mul hn.le).trans hn.ge) (hn.le.trans (le_round_mul hn.ge))

theorem isDouble_round (x : ℚ) : IsDouble (round x) := by
  have scaled := abs_lt.1 (abs_div_quantum_lt x)
  apply isDouble_of_abs_le _ (quantum_ge x)
  rw [abs_le]
  exact ⟨le_roundEven (by push_cast; linarith), roundEven_le (by push_cast; linarith)⟩

theorem round_le_of_le {x g : ℚ} (hg : IsDouble g) (h : x ≤ g) : round x ≤ g := by
  obtain ⟨m, q, small, low, rfl⟩ := hg
  by_cases fine : quantum x ≤ q
  · obtain ⟨n, hn⟩ := mul_two_zpow_of_le fine m
    rw [hn] at h ⊢
    exact round_le_mul h
  have big := two_zpow_quantum_le (show -1074 < quantum x by omega)
  have tiny := abs_lt_of_quantum_gt small (not_le.1 fine)
  have below : x ≤ -2 ^ (quantum x + 52) := by
    rcases abs_cases x with ⟨ax, -⟩ | ⟨ax, -⟩
    · linarith [le_abs_self ((m : ℚ) * 2 ^ q)]
    · linarith
  calc round x ≤ ((-2 ^ 52 : ℤ) : ℚ) * 2 ^ quantum x :=
        round_le_mul (by rw [Int.cast_neg, neg_mul, ← two_zpow_add_fifty_two]; exact below)
    _ ≤ m * 2 ^ q := by
        rw [Int.cast_neg, neg_mul, ← two_zpow_add_fifty_two]
        linarith [neg_abs_le ((m : ℚ) * 2 ^ q)]

theorem le_round_of_le {x g : ℚ} (hg : IsDouble g) (h : g ≤ x) : g ≤ round x := by
  obtain ⟨m, q, small, low, rfl⟩ := hg
  by_cases fine : quantum x ≤ q
  · obtain ⟨n, hn⟩ := mul_two_zpow_of_le fine m
    rw [hn] at h ⊢
    exact le_round_mul h
  have big := two_zpow_quantum_le (show -1074 < quantum x by omega)
  have tiny := abs_lt_of_quantum_gt small (not_le.1 fine)
  have above : 2 ^ (quantum x + 52) ≤ x := by
    rcases abs_cases x with ⟨ax, -⟩ | ⟨ax, -⟩
    · linarith
    · linarith [neg_abs_le ((m : ℚ) * 2 ^ q)]
  calc (m : ℚ) * 2 ^ q ≤ ((2 ^ 52 : ℤ) : ℚ) * 2 ^ quantum x := by
        rw [← two_zpow_add_fifty_two]
        linarith [le_abs_self ((m : ℚ) * 2 ^ q)]
    _ ≤ round x := le_round_mul (by rw [← two_zpow_add_fifty_two]; exact above)

theorem round_nonneg {x : ℚ} (h : 0 ≤ x) : 0 ≤ round x :=
  le_round_of_le (by simpa using @isDouble_intCast 0 (by norm_num)) h

theorem round_mono {x y : ℚ} (h : x ≤ y) : round x ≤ round y := by
  have ge_x := quantum_ge x
  have ge_y := quantum_ge y
  rcases lt_trichotomy (quantum x) (quantum y) with finer | same | coarser
  · have big := two_zpow_quantum_le (show -1074 < quantum y by omega)
    have small : |x| < 2 ^ (quantum y + 52) :=
      (abs_lt_two_zpow_quantum x).trans_le (two_zpow_le_two_zpow (by omega))
    have nonneg : 0 ≤ y := by
      by_contra! neg
      linarith only [abs_of_neg neg, abs_of_neg (lt_of_le_of_lt h neg), h, big, small]
    have sep := isDouble_two_zpow (show -1074 ≤ quantum y + 52 by omega)
    exact (round_le_of_le sep ((le_abs_self x).trans small.le)).trans
      (le_round_of_le sep (by rwa [abs_of_nonneg nonneg] at big))
  · have pos := two_zpow_pos (quantum y)
    unfold round
    rw [same]
    exact mul_le_mul_of_nonneg_right
      (Int.cast_le.2 (roundEven_mono (div_le_div_of_nonneg_right h pos.le))) pos.le
  · have big := two_zpow_quantum_le (show -1074 < quantum x by omega)
    have small : |y| < 2 ^ (quantum x + 52) :=
      (abs_lt_two_zpow_quantum y).trans_le (two_zpow_le_two_zpow (by omega))
    have nonpos : x ≤ 0 := by
      by_contra! pos
      linarith only [abs_of_pos pos, abs_of_pos (lt_of_lt_of_le pos h), h, big, small]
    have sep := isDouble_neg_two_zpow (show -1074 ≤ quantum x + 52 by omega)
    exact (round_le_of_le sep (le_neg.2 (by rwa [abs_of_nonpos nonpos] at big))).trans
      (le_round_of_le sep ((neg_le_neg small.le).trans (neg_abs_le y)))

theorem abs_round_sub_le (x : ℚ) : |round x - x| ≤ 2 ^ quantum x / 2 := by
  have pos := two_zpow_pos (quantum x)
  have scaled : round x - x = ((roundEven (x / 2 ^ quantum x) : ℚ) - x / 2 ^ quantum x) * 2 ^ quantum x := by
    rw [round, sub_mul, div_mul_cancel₀ x pos.ne']
  rw [scaled, abs_mul, abs_of_pos pos]
  calc _ ≤ 1 / 2 * 2 ^ quantum x := mul_le_mul_of_nonneg_right (abs_sub_roundEven_le _) pos.le
    _ = 2 ^ quantum x / 2 := by ring

theorem abs_round_sub_le_of_normal {x : ℚ} (h : 2 ^ (-1022 : ℤ) ≤ |x|) : |round x - x| ≤ |x| / 2 ^ 53 := by
  have big := two_zpow_quantum_le_of_normal h
  rw [two_zpow_add_fifty_two] at big
  calc |round x - x| ≤ 2 ^ quantum x / 2 := abs_round_sub_le x
    _ = ((2 ^ 52 : ℤ) : ℚ) * 2 ^ quantum x / 2 ^ 53 := by push_cast; ring
    _ ≤ |x| / 2 ^ 53 := div_le_div_of_nonneg_right big (by positivity)

theorem round_normal {x : ℚ} (h : 2 ^ (-1022 : ℤ) ≤ x) :
    ∃ m q : ℤ, 2 ^ 52 ≤ m ∧ m < 2 ^ 53 ∧ -1074 ≤ q ∧ round x = m * 2 ^ q := by
  have pos := two_zpow_pos (quantum x)
  have positive : 0 < x := lt_of_lt_of_le (two_zpow_pos _) h
  have big := two_zpow_quantum_le_of_normal (by rwa [abs_of_pos positive])
  rw [abs_of_pos positive, two_zpow_add_fifty_two, ← le_div_iff₀ pos] at big
  have high : x / 2 ^ quantum x ≤ ((2 ^ 53 : ℤ) : ℚ) := by
    have := (le_abs_self _).trans (abs_div_quantum_lt x).le
    exact_mod_cast this
  rcases lt_or_eq_of_le (roundEven_le high) with inside | top
  · exact ⟨_, quantum x, le_roundEven big, inside, quantum_ge x, rfl⟩
  · refine ⟨2 ^ 52, quantum x + 1, le_rfl, by norm_num, by linarith [quantum_ge x], ?_⟩
    rw [round, top, two_zpow_add]
    push_cast
    ring

end Hft.Binary64
