import HftSystem.Common.Bytes
import Mathlib.Tactic.IntervalCases

/-!
# Flags, bit fields and byte order

The helpers of `bit_utils.h` that work on bits in place and on whole bytes.

* `OrderFlags` keeps eight flags in one `uint8_t` through `set_bit`,
  `clear_bit`, `toggle_bit` and `test_bit`.  `flags_refine_set`: from any
  byte, after any sequence of `set`, `clear` and `toggle`, `test` reads back
  exactly the set of flags the same calls build on the flags read before.
* `byte_swap_64` and `byte_swap_32` in their portable shift-and-mask form,
  the branch compiled without `__builtin_bswap64`: byte `i` of the result is
  byte `7 - i` (`3 - i`) of the argument (`byte_swap_reverses_bytes`), and
  swapping twice gives the word back (`byte_swap_involutive`).
* `extract_bits` takes the `len`-bit field at `start`.

Words are `Nat`, with `% 2^w` where the C++ arithmetic wraps.  The proofs go
bit by bit: one lemma says which bit of the argument each bit of a result is.
-/

set_option autoImplicit false

namespace Hft.Bits

/-! ## Single bits -/

/-- `set_bit(flags, bit)` on a `uint8_t`: `T(1) << bit` and `|` are computed
in `int` and the result is stored back in eight bits. -/
def setBit (flags bit : Nat) : Nat := (flags ||| (1 <<< bit)) % 2 ^ 8

/-- `clear_bit(flags, bit)`: `~(T(1) << bit)` is the `int` whose 32-bit two's
complement has every bit but `bit` set. -/
def clearBit (flags bit : Nat) : Nat := (flags &&& (2 ^ 32 - 1 - (1 <<< bit))) % 2 ^ 8

/-- `test_bit(flags, bit)`. -/
def testBit (flags bit : Nat) : Bool := (flags &&& (1 <<< bit)) != 0

/-- `toggle_bit(flags, bit)`. -/
def toggleBit (flags bit : Nat) : Nat := (flags ^^^ (1 <<< bit)) % 2 ^ 8

theorem testBit_eq (flags bit : Nat) : testBit flags bit = flags.testBit bit := by
  rw [testBit, Nat.one_shiftLeft]
  by_cases set : flags.testBit bit
  · have kept : (flags &&& 2 ^ bit).testBit bit = true := by
      rw [Nat.testBit_and, set, Nat.testBit_two_pow_self, Bool.true_and]
    have nonzero : flags &&& 2 ^ bit ≠ 0 := fun zero => by rw [zero, Nat.zero_testBit] at kept; cases kept
    simp [nonzero, set]
  · have cleared : flags &&& 2 ^ bit = 0 := Nat.eq_of_testBit_eq fun j => by
      rw [Nat.testBit_and, Nat.testBit_two_pow, Nat.zero_testBit]
      by_cases same : bit = j
      · subst same
        simp [set]
      · simp [same]
    simp [cleared, set]

theorem testBit_setBit (flags bit j : Nat) :
    (setBit flags bit).testBit j = (decide (j < 8) && (flags.testBit j || decide (bit = j))) := by
  rw [setBit, Nat.testBit_mod_two_pow, Nat.testBit_or, Nat.one_shiftLeft, Nat.testBit_two_pow]

theorem testBit_complement {bit : Nat} (small : bit < 32) (j : Nat) :
    (2 ^ 32 - 1 - (1 <<< bit)).testBit j = (decide (j < 32) && !decide (bit = j)) := by
  rw [Nat.one_shiftLeft, Nat.sub_sub, Nat.add_comm 1,
    Nat.testBit_two_pow_sub_succ (Nat.pow_lt_pow_right (by decide) small), Nat.testBit_two_pow]

theorem testBit_clearBit (flags : Nat) {bit : Nat} (small : bit < 32) (j : Nat) :
    (clearBit flags bit).testBit j = (decide (j < 8) && (flags.testBit j && !decide (bit = j))) := by
  rw [clearBit, Nat.testBit_mod_two_pow, Nat.testBit_and, testBit_complement small]
  by_cases low : j < 8
  · simp [low, show j < 32 by omega]
  · simp [low]

theorem testBit_toggleBit (flags bit j : Nat) :
    (toggleBit flags bit).testBit j = (decide (j < 8) && (flags.testBit j ^^ decide (bit = j))) := by
  rw [toggleBit, Nat.testBit_mod_two_pow, Nat.testBit_xor, Nat.one_shiftLeft, Nat.testBit_two_pow]

/-! ## Order flags -/

/-- `OrderFlags::Bits`. -/
inductive OrderFlags.Bits where
  | isBuy
  | isIoc
  | isPostOnly
  | isReduce
  | isFilled
  | isCancelled
  | reserved1
  | reserved2
  deriving DecidableEq

def OrderFlags.Bits.toNat : OrderFlags.Bits → Nat
  | .isBuy => 0
  | .isIoc => 1
  | .isPostOnly => 2
  | .isReduce => 3
  | .isFilled => 4
  | .isCancelled => 5
  | .reserved1 => 6
  | .reserved2 => 7

/-- `OrderFlags`: the byte `data`, zero to begin with. -/
structure OrderFlags where
  data : Nat := 0
  byte : data < 2 ^ 8 := by decide

/-- `OrderFlags::set`. -/
def OrderFlags.set (f : OrderFlags) (bit : OrderFlags.Bits) : OrderFlags :=
  ⟨setBit f.data bit.toNat, Nat.mod_lt _ (by decide)⟩

/-- `OrderFlags::clear`. -/
def OrderFlags.clear (f : OrderFlags) (bit : OrderFlags.Bits) : OrderFlags :=
  ⟨clearBit f.data bit.toNat, Nat.mod_lt _ (by decide)⟩

/-- `OrderFlags::test`. -/
def OrderFlags.test (f : OrderFlags) (bit : OrderFlags.Bits) : Bool :=
  testBit f.data bit.toNat

/-- `OrderFlags::toggle`. -/
def OrderFlags.toggle (f : OrderFlags) (bit : OrderFlags.Bits) : OrderFlags :=
  ⟨toggleBit f.data bit.toNat, Nat.mod_lt _ (by decide)⟩

inductive FlagOp where
  | set (bit : OrderFlags.Bits)
  | clear (bit : OrderFlags.Bits)
  | toggle (bit : OrderFlags.Bits)

def OrderFlags.apply (f : OrderFlags) : FlagOp → OrderFlags
  | .set bit => f.set bit
  | .clear bit => f.clear bit
  | .toggle bit => f.toggle bit

def OrderFlags.run (f : OrderFlags) (ops : List FlagOp) : OrderFlags :=
  ops.foldl OrderFlags.apply f

def FlagOp.update (flags : OrderFlags.Bits → Bool) : FlagOp → OrderFlags.Bits → Bool
  | .set bit => Function.update flags bit true
  | .clear bit => Function.update flags bit false
  | .toggle bit => Function.update flags bit (!flags bit)

theorem OrderFlags.Bits.toNat_lt (bit : OrderFlags.Bits) : bit.toNat < 8 := by
  cases bit <;> decide

theorem OrderFlags.Bits.toNat_inj (bit other : OrderFlags.Bits) : bit.toNat = other.toNat ↔ bit = other := by
  cases bit <;> cases other <;> decide

theorem OrderFlags.test_apply (f : OrderFlags) (op : FlagOp) : (f.apply op).test = FlagOp.update f.test op := by
  funext other
  have low := other.toNat_lt
  cases op with
  | set bit =>
      simp only [OrderFlags.apply, OrderFlags.set, OrderFlags.test, FlagOp.update, Function.update_apply, testBit_eq,
        testBit_setBit, low, decide_True, Bool.true_and, bit.toNat_inj, @eq_comm _ bit]
      split_ifs with same <;> simp [same]
  | clear bit =>
      simp only [OrderFlags.apply, OrderFlags.clear, OrderFlags.test, FlagOp.update, Function.update_apply, testBit_eq,
        testBit_clearBit _ (bit.toNat_lt.trans (by decide)), low, decide_True, Bool.true_and, bit.toNat_inj,
        @eq_comm _ bit]
      split_ifs with same <;> simp [same]
  | toggle bit =>
      simp only [OrderFlags.apply, OrderFlags.toggle, OrderFlags.test, FlagOp.update, Function.update_apply,
        testBit_eq, testBit_toggleBit, low, decide_True, Bool.true_and, bit.toNat_inj, @eq_comm _ bit]
      split_ifs with same
      · subst same
        simp
      · simp [same]

/-- From any flags, after any sequence of calls, `test` reads back the set of
flags the same calls build on the flags read before. -/
theorem flags_refine_set (ops : List FlagOp) (f : OrderFlags) :
    (f.run ops).test = ops.foldl FlagOp.update f.test := by
  induction ops generalizing f with
  | nil => rfl
  | cons op rest ih =>
      rw [List.foldl_cons, ← f.test_apply op]
      exact ih (f.apply op)

/-! ## Bytes -/

def byteAt (x i : Nat) : Nat := (x >>> (8 * i)) % 2 ^ 8

theorem testBit_byteAt (x i b : Nat) : (byteAt x i).testBit b = (decide (b < 8) && x.testBit (8 * i + b)) := by
  rw [byteAt, Nat.testBit_mod_two_pow, Nat.testBit_shiftRight]

/-- `byte_swap_64` without `__builtin_bswap64` or `_byteswap_uint64`. -/
def byteSwap64 (x : Nat) : Nat :=
  (x &&& 0xFF00000000000000) >>> 56 |||
  (x &&& 0x00FF000000000000) >>> 40 |||
  (x &&& 0x0000FF0000000000) >>> 24 |||
  (x &&& 0x000000FF00000000) >>> 8 |||
  ((x &&& 0x00000000FF000000) <<< 8) % 2 ^ 64 |||
  ((x &&& 0x0000000000FF0000) <<< 24) % 2 ^ 64 |||
  ((x &&& 0x000000000000FF00) <<< 40) % 2 ^ 64 |||
  ((x &&& 0x00000000000000FF) <<< 56) % 2 ^ 64

/-- `byte_swap_32` without `__builtin_bswap32` or `_byteswap_ulong`. -/
def byteSwap32 (x : Nat) : Nat :=
  (x &&& 0xFF000000) >>> 24 |||
  (x &&& 0x00FF0000) >>> 8 |||
  ((x &&& 0x0000FF00) <<< 8) % 2 ^ 32 |||
  ((x &&& 0x000000FF) <<< 24) % 2 ^ 32

theorem testBit_lane_shiftRight (x m t q : Nat) {r : Nat} (low : r < 8) :
    ((x &&& (2 ^ 8 - 1) <<< (8 * m)) >>> (8 * t)).testBit (8 * q + r) =
      (decide (m = t + q) && x.testBit (8 * m + r)) := by
  rw [Nat.testBit_shiftRight, Nat.testBit_and, Nat.testBit_shiftLeft, Nat.testBit_two_pow_sub_one]
  by_cases lane : m = t + q
  · subst lane
    rw [show 8 * t + (8 * q + r) = 8 * (t + q) + r by omega]
    simp [low]
  · have off : ¬(8 * t + (8 * q + r) ≥ 8 * m ∧ 8 * t + (8 * q + r) - 8 * m < 8) := by omega
    rw [decide_eq_false lane, Bool.false_and, Bool.eq_false_iff]
    intro set
    simp only [Bool.and_eq_true, decide_eq_true_eq] at set
    exact off set.2

theorem testBit_lane_shiftLeft (x m t q n : Nat) {r : Nat} (low : r < 8) :
    (((x &&& (2 ^ 8 - 1) <<< (8 * m)) <<< (8 * t)) % 2 ^ (8 * n)).testBit (8 * q + r) =
      (decide (q = m + t ∧ q < n) && x.testBit (8 * m + r)) := by
  rw [Nat.testBit_mod_two_pow, Nat.testBit_shiftLeft, Nat.testBit_and, Nat.testBit_shiftLeft,
    Nat.testBit_two_pow_sub_one]
  by_cases lane : q = m + t ∧ q < n
  · obtain ⟨rfl, small⟩ := lane
    rw [show 8 * (m + t) + r - 8 * t = 8 * m + r by omega,
      decide_eq_true (show 8 * (m + t) + r < 8 * n by omega),
      decide_eq_true (show 8 * (m + t) + r ≥ 8 * t by omega), decide_eq_true (Nat.le_add_right _ _),
      Nat.add_sub_cancel_left, decide_eq_true low, decide_eq_true ⟨rfl, small⟩]
    simp only [Bool.true_and, Bool.and_true]
  · have off : ¬(8 * q + r < 8 * n ∧ 8 * q + r ≥ 8 * t ∧ 8 * q + r - 8 * t ≥ 8 * m ∧
        8 * q + r - 8 * t - 8 * m < 8) := by
      omega
    rw [decide_eq_false lane, Bool.false_and, Bool.eq_false_iff]
    intro set
    simp only [Bool.and_eq_true, decide_eq_true_eq] at set
    exact off ⟨set.1, set.2.1, set.2.2.2.1, set.2.2.2.2⟩

theorem byteSwap64_lanes (x : Nat) : byteSwap64 x =
    (x &&& (2 ^ 8 - 1) <<< (8 * 7)) >>> (8 * 7) ||| (x &&& (2 ^ 8 - 1) <<< (8 * 6)) >>> (8 * 5) |||
    (x &&& (2 ^ 8 - 1) <<< (8 * 5)) >>> (8 * 3) ||| (x &&& (2 ^ 8 - 1) <<< (8 * 4)) >>> (8 * 1) |||
    ((x &&& (2 ^ 8 - 1) <<< (8 * 3)) <<< (8 * 1)) % 2 ^ (8 * 8) |||
    ((x &&& (2 ^ 8 - 1) <<< (8 * 2)) <<< (8 * 3)) % 2 ^ (8 * 8) |||
    ((x &&& (2 ^ 8 - 1) <<< (8 * 1)) <<< (8 * 5)) % 2 ^ (8 * 8) |||
    ((x &&& (2 ^ 8 - 1) <<< (8 * 0)) <<< (8 * 7)) % 2 ^ (8 * 8) :=
  rfl

theorem byteSwap32_lanes (x : Nat) : byteSwap32 x =
    (x &&& (2 ^ 8 - 1) <<< (8 * 3)) >>> (8 * 3) ||| (x &&& (2 ^ 8 - 1) <<< (8 * 2)) >>> (8 * 1) |||
    ((x &&& (2 ^ 8 - 1) <<< (8 * 1)) <<< (8 * 1)) % 2 ^ (8 * 4) |||
    ((x &&& (2 ^ 8 - 1) <<< (8 * 0)) <<< (8 * 3)) % 2 ^ (8 * 4) :=
  rfl

theorem testBit_byteSwap64 (x q : Nat) {r : Nat} (low : r < 8) :
    (byteSwap64 x).testBit (8 * q + r) = (decide (q < 8) && x.testBit (8 * (7 - q) + r)) := by
  simp only [byteSwap64_lanes, Nat.testBit_or, testBit_lane_shiftRight _ _ _ _ low,
    testBit_lane_shiftLeft _ _ _ _ _ low]
  rcases Nat.lt_or_ge q 8 with small | big
  · interval_cases q <;> simp only [Nat.reduceAdd, Nat.reduceMul, Nat.reduceSub, Nat.reduceLT, Nat.reduceEqDiff,
      eq_self_iff_true, and_self, and_true, false_and, decide_True, decide_False, Bool.true_and, Bool.false_and,
      Bool.or_false, Bool.false_or]
  · simp (disch := omega) only [decide_eq_false, Bool.false_and, Bool.or_false, not_and_of_not_right, decide_False]

theorem testBit_byteSwap32 (x q : Nat) {r : Nat} (low : r < 8) :
    (byteSwap32 x).testBit (8 * q + r) = (decide (q < 4) && x.testBit (8 * (3 - q) + r)) := by
  simp only [byteSwap32_lanes, Nat.testBit_or, testBit_lane_shiftRight _ _ _ _ low,
    testBit_lane_shiftLeft _ _ _ _ _ low]
  rcases Nat.lt_or_ge q 4 with small | big
  · interval_cases q <;> simp only [Nat.reduceAdd, Nat.reduceMul, Nat.reduceSub, Nat.reduceLT, Nat.reduceEqDiff,
      eq_self_iff_true, and_self, and_true, false_and, decide_True, decide_False, Bool.true_and, Bool.false_and,
      Bool.or_false, Bool.false_or]
  · simp (disch := omega) only [decide_eq_false, Bool.false_and, Bool.or_false, not_and_of_not_right, decide_False]

theorem lt_of_testBit_byte {y : Nat} (n : Nat) (clear : ∀ q r, r < 8 → n ≤ q → y.testBit (8 * q + r) = false) :
    y < 2 ^ (8 * n) :=
  Nat.lt_pow_two_of_testBit _ fun j big => by
    rw [← Nat.div_add_mod j 8]
    exact clear _ _ (Nat.mod_lt _ (by decide)) (by omega)

theorem byteAt_of_testBit {y x n : Nat}
    (swapped : ∀ q r, r < 8 → y.testBit (8 * q + r) = (decide (q < n) && x.testBit (8 * (n - 1 - q) + r)))
    {i : Nat} (inside : i < n) : byteAt y i = byteAt x (n - 1 - i) :=
  Nat.eq_of_testBit_eq fun b => by
    rw [testBit_byteAt, testBit_byteAt]
    by_cases low : b < 8
    · rw [swapped _ _ low]
      simp [inside]
    · simp [low]

theorem involutive_of_testBit {f : Nat → Nat} (n : Nat)
    (swapped : ∀ x q r, r < 8 → (f x).testBit (8 * q + r) = (decide (q < n) && x.testBit (8 * (n - 1 - q) + r)))
    {x : Nat} (word : x < 2 ^ (8 * n)) : f (f x) = x :=
  Nat.eq_of_testBit_eq fun j => by
    rw [← Nat.div_add_mod j 8, swapped _ _ _ (Nat.mod_lt _ (by decide))]
    by_cases small : j / 8 < n
    · rw [swapped _ _ _ (Nat.mod_lt _ (by decide)), show n - 1 - (n - 1 - j / 8) = j / 8 by omega]
      simp [small, show n - 1 - j / 8 < n by omega]
    · have wide : 2 ^ (8 * n) ≤ 2 ^ (8 * (j / 8) + j % 8) := Nat.pow_le_pow_right (by decide) (by omega)
      rw [decide_eq_false small, Bool.false_and, Nat.testBit_lt_two_pow (lt_of_lt_of_le word wide)]

/-- The portable `byte_swap_64` and `byte_swap_32` return a word of their
width whose byte `i` is byte `7 - i` (`3 - i`) of the argument, for every
argument: what `__builtin_bswap64` and `__builtin_bswap32` compute. -/
theorem byte_swap_reverses_bytes (x : Nat) :
    (byteSwap64 x < 2 ^ 64 ∧ ∀ i < 8, byteAt (byteSwap64 x) i = byteAt x (7 - i)) ∧
      (byteSwap32 x < 2 ^ 32 ∧ ∀ i < 4, byteAt (byteSwap32 x) i = byteAt x (3 - i)) := by
  refine ⟨⟨lt_of_testBit_byte 8 fun q r low big => ?_, fun i inside => byteAt_of_testBit (testBit_byteSwap64 x) inside⟩,
    ⟨lt_of_testBit_byte 4 fun q r low big => ?_, fun i inside => byteAt_of_testBit (testBit_byteSwap32 x) inside⟩⟩
  · rw [testBit_byteSwap64 x q low, decide_eq_false (by omega), Bool.false_and]
  · rw [testBit_byteSwap32 x q low, decide_eq_false (by omega), Bool.false_and]

/-- Swapping a word's bytes twice gives the word back. -/
theorem byte_swap_involutive (x : Nat) :
    (x < 2 ^ 64 → byteSwap64 (byteSwap64 x) = x) ∧ (x < 2 ^ 32 → byteSwap32 (byteSwap32 x) = x) :=
  ⟨involutive_of_testBit 8 (fun x q _ low => testBit_byteSwap64 x q low),
    involutive_of_testBit 4 (fun x q _ low => testBit_byteSwap32 x q low)⟩

example : byteSwap64 0x0102030405060708 = 0x0807060504030201 ∧ byteSwap32 0x01020304 = 0x04030201 := by decide

theorem byte_swap_involutive_sample :
    (0x01020304 < 2 ^ 64 ∧ byteSwap64 (byteSwap64 0x01020304) = 0x01020304) ∧
      (0x01020304 < 2 ^ 32 ∧ byteSwap32 (byteSwap32 0x01020304) = 0x01020304) :=
  ⟨⟨by decide, (byte_swap_involutive _).1 (by decide)⟩, ⟨by decide, (byte_swap_involutive _).2 (by decide)⟩⟩

/-! ## Bit fields -/

/-- `extract_bits(value, start, len)`: `(value >> start) & ((1ULL << len) - 1)`,
the mask computed in `uint64_t`.  A shift by 64 or more is undefined in C++;
the model wraps it as the arithmetic would. -/
def extractBits (value start len : Nat) : Nat :=
  (value >>> start) &&& ((1 <<< len) % 2 ^ 64 + 2 ^ 64 - 1) % 2 ^ 64

end Hft.Bits
