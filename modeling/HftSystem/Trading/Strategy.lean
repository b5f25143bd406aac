import HftSystem.MarketData.OrderBook
import HftSystem.Network.TcpSender
import HftSystem.Common.Binary64
import Mathlib.Algebra.Order.Ring.Rat
import Mathlib.Algebra.Order.Ring.Abs
import Mathlib.Tactic.Linarith
import Mathlib.Tactic.Ring
import Mathlib.Algebra.Order.Field.Basic

/-!
# The market-making strategy

`MarketMakingStrategy` of `strategy.cpp`: on each book update it takes a
snapshot, decides whether to requote (`should_requote`: a spread of at most
10 bps and at least 100 µs since the last quote), and `update_quotes` prices a
bid and an ask around the inventory-skewed fair value and hands them to
`TCPSender::send_order` directly.

`Timestamp::now()` is the TSC: `Clock` is the sequence of readings it returns,
one per call, and `to_nanoseconds` divides by the assumed 3 GHz.  Nothing in the
strategy writes `position_`, so it quotes from a flat position for ever.
-/

set_option autoImplicit false

namespace Hft.Strategy

open Hft.MarketData Hft.Network

structure Clock where
  readings : Nat → Nat
  taken : Nat

/-- One `Timestamp::now()`: the next reading as a `uint64_t`. -/
def Clock.now (c : Clock) : Nat × Clock :=
  (c.readings c.taken % 2 ^ 64, { c with taken := c.taken + 1 })

/-- `Timestamp::to_nanoseconds`: `tsc / 3.0e9 * 1e9` truncated, a third of the
count in exact arithmetic. -/
def toNanoseconds (tsc : Nat) : Nat := tsc / 3

/-- `MIN_QUOTE_INTERVAL_NS`. -/
def minQuoteIntervalNs : Nat := 100000

/-- `MarketMakingStrategy::Parameters` with its defaults, the doubles nearest
the literals `0.0002` and `0.0001`. -/
structure Parameters where
  spreadTarget : ℚ := Binary64.round (2 / 10000)
  quoteSize : ℚ := 100
  maxPosition : ℚ := 1000
  skewFactor : ℚ := 1 / 2
  edge : ℚ := Binary64.round (1 / 10000)

/-- The state the quoting path reads and writes: `params_`, `position_`,
`last_quote_time_` and `next_order_id_`. -/
structure MarketMakingStrategy where
  params : Parameters
  position : ℚ
  lastQuoteTime : Nat
  nextOrderId : Nat

/-- The constructor. -/
def MarketMakingStrategy.init (params : Parameters) : MarketMakingStrategy := ⟨params, 0, 0, 1⟩

/-- The symbol field `update_quotes` writes: `"SYMBOL"` by `strncpy` into the
zeroed 16-byte array. -/
def quoteSymbol : List UInt8 := [83, 89, 77, 66, 79, 76] ++ List.replicate 10 0

/-- `should_requote`: refuse a spread above 10 bps without reading the clock,
then require 100 µs since the last quote. -/
def MarketMakingStrategy.shouldRequote (st : MarketMakingStrategy) (snapshot : Snapshot) (clock : Clock) :
    Bool × Clock :=
  if snapshot.spreadBps > 10 then (false, clock)
  else
    let now := clock.now
    if toNanoseconds ((now.1 + 2 ^ 64 - st.lastQuoteTime) % 2 ^ 64) < minQuoteIntervalNs then (false, now.2)
    else (true, now.2)

/-- `calculate_fair_value`: `-position / max_position * skew_factor`, then
`mid * (1.0 + skew)`, each operation rounded to a double. -/
def Parameters.calculateFairValue (p : Parameters) (mid position : ℚ) : ℚ :=
  Binary64.round (mid * Binary64.round (1 + Binary64.round (Binary64.round (-position / p.maxPosition) * p.skewFactor)))

/-- `half_spread` of `update_quotes`: `fair_value * spread_target / 2.0`. -/
def Parameters.halfSpread (p : Parameters) (fairValue : ℚ) : ℚ :=
  Binary64.round (Binary64.round (fairValue * p.spreadTarget) / 2)

/-- `bid_price` of `update_quotes`: `fair_value - half_spread - edge * fair_value`. -/
def Parameters.bidPrice (p : Parameters) (fairValue : ℚ) : ℚ :=
  Binary64.round (Binary64.round (fairValue - p.halfSpread fairValue) - Binary64.round (p.edge * fairValue))

/-- `ask_price` of `update_quotes`: `fair_value + half_spread + edge * fair_value`. -/
def Parameters.askPrice (p : Parameters) (fairValue : ℚ) : ℚ :=
  Binary64.round (Binary64.round (fairValue + p.halfSpread fairValue) + Binary64.round (p.edge * fairValue))

/-- The 80% gate of the bid, `max_position * 0.8`, as a double. -/
def Parameters.bidGate (p : Parameters) : ℚ :=
  Binary64.round (p.maxPosition * Binary64.round (8 / 10))

/-- The 80% gate of the ask, `-max_position * 0.8`, as a double. -/
def Parameters.askGate (p : Parameters) : ℚ :=
  Binary64.round (-p.maxPosition * Binary64.round (8 / 10))

/-- `update_quotes`: the new state, the clock after its five readings (two
order timestamps, the latency start, the stored quote time, the elapsed time)
and the orders handed to `send_order`, bid first. -/
def MarketMakingStrategy.updateQuotes (st : MarketMakingStrategy) (snapshot : Snapshot) (clock : Clock) :
    MarketMakingStrategy × Clock × List Order :=
  let mid := snapshot.midPrice
  if mid ≤ 0 then (st, clock, [])
  else if st.params.maxPosition ≤ |st.position| then (st, clock, [])
  else
    let p := st.params
    let fairValue := p.calculateFairValue mid st.position
    let bidStamp := clock.now
    let bidOrder : Order :=
      ⟨quoteSymbol, st.nextOrderId, .buy, .limit, p.bidPrice fairValue, p.quoteSize, bidStamp.1⟩
    let askStamp := bidStamp.2.now
    let askOrder : Order :=
      ⟨quoteSymbol, (st.nextOrderId + 1) % 2 ^ 64, .sell, .limit, p.askPrice fairValue, p.quoteSize, askStamp.1⟩
    let latencyStart := askStamp.2.now
    let handed := (if st.position < p.bidGate then [bidOrder] else []) ++
      (if st.position > p.askGate then [askOrder] else [])
    let stored := latencyStart.2.now
    let elapsed := stored.2.now
    ({ st with lastQuoteTime := stored.1, nextOrderId := (st.nextOrderId + 2) % 2 ^ 64 }, elapsed.2, handed)

/-- `on_order_book_update`: snapshot the book, then requote if `should_requote`
agrees. -/
def MarketMakingStrategy.onOrderBookUpdate (st : MarketMakingStrategy) (book : OrderBook) (clock : Clock) :
    MarketMakingStrategy × Clock × List Order :=
  let stamp := clock.now
  let snapshot := book.getSnapshot stamp.1
  let check := st.shouldRequote snapshot stamp.2
  if check.1 then st.updateQuotes snapshot check.2 else (st, check.2, [])

@[simp] theorem Clock.now_fst (c : Clock) : c.now.1 = c.readings c.taken % 2 ^ 64 := rfl

@[simp] theorem Clock.now_snd (c : Clock) : c.now.2 = { c with taken := c.taken + 1 } := rfl

theorem shouldRequote_wide (st : MarketMakingStrategy) {snapshot : Snapshot} (wide : 10 < snapshot.spreadBps)
    (clock : Clock) : st.shouldRequote snapshot clock = (false, clock) := by
  simp [MarketMakingStrategy.shouldRequote, wide]

theorem shouldRequote_narrow (st : MarketMakingStrategy) {snapshot : Snapshot} (narrow : snapshot.spreadBps ≤ 10)
    (clock : Clock) :
    st.shouldRequote snapshot clock =
      (decide (minQuoteIntervalNs ≤ toNanoseconds ((clock.readings clock.taken % 2 ^ 64 + 2 ^ 64 - st.lastQuoteTime) %
        2 ^ 64)), { clock with taken := clock.taken + 1 }) := by
  simp only [MarketMakingStrategy.shouldRequote, not_lt.2 narrow, if_false, Clock.now_fst, Clock.now_snd]
  split_ifs with close
  · rw [decide_eq_false (not_le.2 close)]
  · rw [decide_eq_true (not_lt.1 close)]

theorem Parameters.gates_open {p : Parameters} (limit : 1 ≤ p.maxPosition) : p.askGate < 0 ∧ 0 < p.bidGate := by
  have half : Binary64.IsDouble (1 / 2) := ⟨1, -1, by norm_num, by norm_num, by norm_num⟩
  have product : 1 / 2 ≤ p.maxPosition * Binary64.round (8 / 10) :=
    (one_mul (1 / 2 : ℚ)).symm.le.trans
      (mul_le_mul limit (Binary64.le_round_of_le half (by norm_num)) (by norm_num) (zero_le_one.trans limit))
  constructor
  · have := Binary64.round_le_of_le (⟨-1, -1, by norm_num, by norm_num, by norm_num⟩ : Binary64.IsDouble (-(1 / 2)))
      (show -p.maxPosition * Binary64.round (8 / 10) ≤ -(1 / 2) by rw [neg_mul]; exact neg_le_neg product)
    exact lt_of_le_of_lt this (by norm_num)
  · exact lt_of_lt_of_le (by norm_num) (Binary64.le_round_of_le half product)

theorem updateQuotes_flat (st : MarketMakingStrategy) (snapshot : Snapshot) (clock : Clock)
    (flat : st.position = 0) (limit : 1 ≤ st.params.maxPosition) (mid : 0 < snapshot.midPrice) :
    (st.updateQuotes snapshot clock).2.2.map (fun o => (o.side, o.quantity, o.timestamp)) =
        [(.buy, st.params.quoteSize, clock.readings clock.taken % 2 ^ 64),
          (.sell, st.params.quoteSize, clock.readings (clock.taken + 1) % 2 ^ 64)] ∧
      (st.updateQuotes snapshot clock).1 = { st with
        lastQuoteTime := clock.readings (clock.taken + 3) % 2 ^ 64
        nextOrderId := (st.nextOrderId + 2) % 2 ^ 64 } ∧
      (st.updateQuotes snapshot clock).2.1 = { clock with taken := clock.taken + 5 } := by
  have below : st.position < st.params.bidGate := by rw [flat]; exact (Parameters.gates_open limit).2
  have above : st.params.askGate < st.position := by rw [flat]; exact (Parameters.gates_open limit).1
  have inside : ¬st.params.maxPosition ≤ |st.position| := by rw [flat, abs_zero]; exact not_le.2 (by linarith)
  simp only [MarketMakingStrategy.updateQuotes, not_le.2 mid, inside, if_false, below, above, if_true,
    Clock.now_fst, Clock.now_snd, List.singleton_append, List.map_cons, List.map_nil, and_self]

theorem onOrderBookUpdate_wide (st : MarketMakingStrategy) (book : OrderBook) (clock : Clock)
    (wide : 10 < (book.getSnapshot (clock.readings clock.taken % 2 ^ 64)).spreadBps) :
    st.onOrderBookUpdate book clock = (st, { clock with taken := clock.taken + 1 }, []) := by
  simp only [MarketMakingStrategy.onOrderBookUpdate, Clock.now_fst, Clock.now_snd, shouldRequote_wide st wide,
    Bool.false_eq_true, if_false]

theorem onOrderBookUpdate_quotes (st : MarketMakingStrategy) (book : OrderBook) (clock : Clock)
    (flat : st.position = 0) (limit : 1 ≤ st.params.maxPosition)
    (narrow : (book.getSnapshot (clock.readings clock.taken % 2 ^ 64)).spreadBps ≤ 10)
    (mid : 0 < (book.getSnapshot (clock.readings clock.taken % 2 ^ 64)).midPrice)
    (spaced : minQuoteIntervalNs ≤
      toNanoseconds ((clock.readings (clock.taken + 1) % 2 ^ 64 + 2 ^ 64 - st.lastQuoteTime) % 2 ^ 64)) :
    (st.onOrderBookUpdate book clock).2.2.map (fun o => (o.side, o.quantity, o.timestamp)) =
        [(.buy, st.params.quoteSize, clock.readings (clock.taken + 2) % 2 ^ 64),
          (.sell, st.params.quoteSize, clock.readings (clock.taken + 3) % 2 ^ 64)] ∧
      (st.onOrderBookUpdate book clock).1 = { st with
        lastQuoteTime := clock.readings (clock.taken + 5) % 2 ^ 64
        nextOrderId := (st.nextOrderId + 2) % 2 ^ 64 } ∧
      (st.onOrderBookUpdate book clock).2.1 = { clock with taken := clock.taken + 7 } := by
  have check : st.shouldRequote (book.getSnapshot clock.now.1) clock.now.2 =
      (true, { clock with taken := clock.taken + 2 }) := by
    rw [Clock.now_fst, shouldRequote_narrow st narrow]
    simp only [Clock.now_snd, decide_eq_true spaced]
  obtain ⟨orders, state, after⟩ :=
    updateQuotes_flat st (book.getSnapshot clock.now.1) { clock with taken := clock.taken + 2 } flat limit mid
  simp only [MarketMakingStrategy.onOrderBookUpdate, check, if_true]
  exact ⟨orders, state, after⟩

theorem updateQuotes_unquoted (st : MarketMakingStrategy) (snapshot : Snapshot) (clock : Clock)
    (skip : snapshot.midPrice ≤ 0 ∨ st.params.maxPosition ≤ |st.position|) :
    st.updateQuotes snapshot clock = (st, clock, []) := by
  rcases skip with mid | limit
  · simp [MarketMakingStrategy.updateQuotes, mid]
  · by_cases mid : snapshot.midPrice ≤ 0 <;> simp [MarketMakingStrategy.updateQuotes, mid, limit]

theorem updateQuotes_quoted (st : MarketMakingStrategy) (snapshot : Snapshot) (clock : Clock)
    (mid : 0 < snapshot.midPrice) (limit : |st.position| < st.params.maxPosition) :
    st.updateQuotes snapshot clock =
      ({ st with lastQuoteTime := clock.readings (clock.taken + 3) % 2 ^ 64
                 nextOrderId := (st.nextOrderId + 2) % 2 ^ 64 },
        { clock with taken := clock.taken + 5 },
        (if st.position < st.params.bidGate then
          [⟨quoteSymbol, st.nextOrderId, .buy, .limit,
            st.params.bidPrice (st.params.calculateFairValue snapshot.midPrice st.position), st.params.quoteSize,
            clock.readings clock.taken % 2 ^ 64⟩] else []) ++
        (if st.params.askGate < st.position then
          [⟨quoteSymbol, (st.nextOrderId + 1) % 2 ^ 64, .sell, .limit,
            st.params.askPrice (st.params.calculateFairValue snapshot.midPrice st.position), st.params.quoteSize,
            clock.readings (clock.taken + 1) % 2 ^ 64⟩] else [])) := by
  simp only [MarketMakingStrategy.updateQuotes, not_le.2 mid, not_le.2 limit, if_false, Clock.now_fst,
    Clock.now_snd, gt_iff_lt]

theorem gated_sublist {α : Type} (p q : Prop) [Decidable p] [Decidable q] (x y : α) :
    ((if p then [x] else []) ++ (if q then [y] else [])).Sublist [x, y] := by
  split_ifs <;> simp

theorem onOrderBookUpdate_cases (st : MarketMakingStrategy) (book : OrderBook) (clock : Clock) :
    (∃ taken, clock.taken ≤ taken ∧ st.onOrderBookUpdate book clock = (st, { clock with taken := taken }, [])) ∨
      (minQuoteIntervalNs ≤
          toNanoseconds ((clock.readings (clock.taken + 1) % 2 ^ 64 + 2 ^ 64 - st.lastQuoteTime) % 2 ^ 64) ∧
        ∃ bid ask : Order, ∃ orders : List Order,
          st.onOrderBookUpdate book clock =
            ({ st with lastQuoteTime := clock.readings (clock.taken + 5) % 2 ^ 64
                       nextOrderId := (st.nextOrderId + 2) % 2 ^ 64 },
              { clock with taken := clock.taken + 7 }, orders) ∧
          orders.Sublist [bid, ask] ∧
          bid.orderId = st.nextOrderId ∧ bid.timestamp = clock.readings (clock.taken + 2) % 2 ^ 64 ∧
          ask.orderId = (st.nextOrderId + 1) % 2 ^ 64 ∧ ask.timestamp = clock.readings (clock.taken + 3) % 2 ^ 64) := by
  let snapshot := book.getSnapshot (clock.readings clock.taken % 2 ^ 64)
  by_cases wide : 10 < snapshot.spreadBps
  · refine .inl ⟨clock.taken + 1, Nat.le_succ _, ?_⟩
    exact onOrderBookUpdate_wide st book clock wide
  have check := shouldRequote_narrow st (not_lt.1 wide) { clock with taken := clock.taken + 1 }
  by_cases spaced : minQuoteIntervalNs ≤
      toNanoseconds ((clock.readings (clock.taken + 1) % 2 ^ 64 + 2 ^ 64 - st.lastQuoteTime) % 2 ^ 64)
  · by_cases skip : snapshot.midPrice ≤ 0 ∨ st.params.maxPosition ≤ |st.position|
    · refine .inl ⟨clock.taken + 2, by omega, ?_⟩
      simp only [MarketMakingStrategy.onOrderBookUpdate, Clock.now_fst, Clock.now_snd, check,
        decide_eq_true spaced, if_true]
      exact updateQuotes_unquoted st _ _ skip
    · obtain ⟨mid, limit⟩ := not_or.1 skip
      have requoted : st.onOrderBookUpdate book clock = st.updateQuotes snapshot { clock with taken := clock.taken + 2 } := by
        simp only [MarketMakingStrategy.onOrderBookUpdate, Clock.now_fst, Clock.now_snd, check,
          decide_eq_true spaced, if_true]
      exact .inr ⟨spaced, _, _, _, requoted.trans (updateQuotes_quoted st _ _ (not_le.1 mid) (not_le.1 limit)),
        gated_sublist _ _ _ _, rfl, rfl, rfl, rfl⟩
  · refine .inl ⟨clock.taken + 2, by omega, ?_⟩
    simp only [MarketMakingStrategy.onOrderBookUpdate, Clock.now_fst, Clock.now_snd, check,
      decide_eq_false spaced, Bool.false_eq_true, if_false]

/-! ## The prices of a quote -/

section Prices

open Binary64 hiding round

/-- Parameters under which every quote is sound in binary64: a skew factor in
`[0, 1/2]`, a spread target in `[2 ^ -50, 1]`, so that the half spread clears
an ulp of the fair value, and an edge in `[0, 1/4]`.  The defaults and
`main`'s satisfy it. -/
structure Parameters.Sane (p : Parameters) : Prop where
  skew_nonneg : 0 ≤ p.skewFactor
  skew_le_half : p.skewFactor ≤ 1 / 2
  spread_ge : 2 ^ (-50 : ℤ) ≤ p.spreadTarget
  spread_le_one : p.spreadTarget ≤ 1
  edge_nonneg : 0 ≤ p.edge
  edge_le_quarter : p.edge ≤ 1 / 4

theorem Parameters.skew_bounds {p : Parameters} (sane : p.Sane) {position : ℚ} (limit : |position| < p.maxPosition) :
    1 / 2 ≤ Binary64.round (1 + Binary64.round (Binary64.round (-position / p.maxPosition) * p.skewFactor)) ∧
      Binary64.round (1 + Binary64.round (Binary64.round (-position / p.maxPosition) * p.skewFactor)) ≤ 3 / 2 := by
  have room : 0 < p.maxPosition := lt_of_le_of_lt (abs_nonneg _) limit
  have ratio : |-position / p.maxPosition| < 1 := by
    rw [abs_div, abs_neg, abs_of_pos room, div_lt_one room]
    exact limit
  obtain ⟨below, above⟩ := abs_lt.1 ratio
  have r1 := le_round_of_le (⟨-1, 0, by norm_num, by norm_num, by norm_num⟩ : IsDouble (-1)) below.le
  have r2 := round_le_of_le (⟨1, 0, by norm_num, by norm_num, by norm_num⟩ : IsDouble 1) above.le
  have skewed : |Binary64.round (-position / p.maxPosition) * p.skewFactor| ≤ 1 / 2 := by
    rw [abs_mul, abs_of_nonneg sane.skew_nonneg]
    calc _ ≤ 1 * (1 / 2) := mul_le_mul (abs_le.2 ⟨r1, r2⟩) sane.skew_le_half sane.skew_nonneg zero_le_one
      _ = 1 / 2 := one_mul _
  obtain ⟨s1, s2⟩ := abs_le.1 skewed
  have half : IsDouble (1 / 2) := ⟨1, -1, by norm_num, by norm_num, by norm_num⟩
  have t1 := le_round_of_le (⟨-1, -1, by norm_num, by norm_num, by norm_num⟩ : IsDouble (-(1 / 2))) s1
  have t2 := round_le_of_le half s2
  exact ⟨le_round_of_le half (by linarith only [t1]),
    round_le_of_le (⟨3, -1, by norm_num, by norm_num, by norm_num⟩ : IsDouble (3 / 2)) (by linarith only [t2])⟩

theorem Parameters.calculateFairValue_normal {p : Parameters} (sane : p.Sane) {mid position : ℚ}
    (low : 2 ^ (-1000 : ℤ) ≤ mid) (high : mid < 2 ^ (1000 : ℤ)) (limit : |position| < p.maxPosition) :
    ∃ m q : ℤ, 2 ^ 52 ≤ m ∧ m < 2 ^ 53 ∧ -1053 ≤ q ∧ p.calculateFairValue mid position = m * 2 ^ q ∧
      p.calculateFairValue mid position ≤ 2 ^ (1001 : ℤ) := by
  obtain ⟨f1, f2⟩ := p.skew_bounds sane limit
  set factor := Binary64.round (1 + Binary64.round (Binary64.round (-position / p.maxPosition) * p.skewFactor))
  have positive : 0 < mid := lt_of_lt_of_le (two_zpow_pos _) low
  have lower : (2 : ℚ) ^ (-1001 : ℤ) ≤ mid * factor := by
    calc (2 : ℚ) ^ (-1001 : ℤ) = 2 ^ (-1000 : ℤ) * (1 / 2) := by
          rw [show (-1001 : ℤ) = -1000 + -1 by norm_num, two_zpow_add, zpow_neg_one, one_div]
      _ ≤ mid * factor := mul_le_mul low f1 (by norm_num) positive.le
  have upper : mid * factor ≤ 2 ^ (1001 : ℤ) := by
    calc mid * factor ≤ 2 ^ (1000 : ℤ) * (3 / 2) := mul_le_mul high.le f2 (by linarith) (two_zpow_pos _).le
      _ ≤ 2 ^ (1001 : ℤ) := by rw [show (1001 : ℤ) = 1000 + 1 by norm_num, two_zpow_add]; norm_num
  have fair_low := le_round_of_le (isDouble_two_zpow (by norm_num)) lower
  obtain ⟨m, q, m_low, m_high, -, rounded⟩ :=
    round_normal ((two_zpow_le_two_zpow (by norm_num : (-1022 : ℤ) ≤ -1001)).trans lower)
  refine ⟨m, q, m_low, m_high, ?_, rounded, round_le_of_le (isDouble_two_zpow (by norm_num)) upper⟩
  by_contra! coarse
  have : (m : ℚ) * 2 ^ q < 2 ^ (-1001 : ℤ) :=
    calc (m : ℚ) * 2 ^ q < 2 ^ 53 * 2 ^ q := mul_lt_mul_of_pos_right (by exact_mod_cast m_high) (two_zpow_pos q)
      _ = 2 ^ (q + 53) := by rw [two_zpow_add, mul_comm]; norm_num
      _ ≤ 2 ^ (-1001 : ℤ) := two_zpow_le_two_zpow (by omega)
  rw [rounded] at fair_low
  linarith

theorem Parameters.quotes_around {p : Parameters} (sane : p.Sane) {m q : ℤ} (m_low : 2 ^ 52 ≤ m)
    (m_high : m < 2 ^ 53) (fine : -1072 ≤ q) :
    (m : ℚ) * 2 ^ q / 4 ≤ p.bidPrice (m * 2 ^ q) ∧ p.bidPrice (m * 2 ^ q) < m * 2 ^ q ∧
      (m : ℚ) * 2 ^ q < p.askPrice (m * 2 ^ q) ∧ p.askPrice (m * 2 ^ q) ≤ 4 * (m * 2 ^ q) := by
  set fv : ℚ := m * 2 ^ q with fv_def
  have small : |m| < 2 ^ 53 := by rw [abs_lt]; omega
  have ulp_le : 2 ^ (q + 52) ≤ fv := by
    rw [two_zpow_add_fifty_two, fv_def]
    exact mul_le_mul_of_nonneg_right (by exact_mod_cast m_low) (two_zpow_pos q).le
  have ulp_pos := two_zpow_pos q
  have positive : 0 < fv := lt_of_lt_of_le (two_zpow_pos _) ulp_le
  have grid : IsDouble fv := ⟨m, q, small, by omega, rfl⟩
  have scaled : ∀ j : ℤ, -2 ≤ j → j ≤ 2 → IsDouble (fv * 2 ^ j) := fun j lo _ =>
    isDouble_mul_two_zpow small (by omega)
  have half : IsDouble (fv / 2) := by
    have := scaled (-1) (by norm_num) (by norm_num)
    rwa [show (2 : ℚ) ^ (-1 : ℤ) = 1 / 2 by norm_num, mul_one_div] at this
  have quarter : IsDouble (fv / 4) := by
    have := scaled (-2) (by norm_num) (by norm_num)
    rwa [show (2 : ℚ) ^ (-2 : ℤ) = 1 / 4 by norm_num, mul_one_div] at this
  have double : IsDouble (2 * fv) := by
    have := scaled 1 (by norm_num) (by norm_num)
    rwa [show (2 : ℚ) ^ (1 : ℤ) = 2 by norm_num, mul_comm] at this
  have quadruple : IsDouble (4 * fv) := by
    have := scaled 2 (by norm_num) (by norm_num)
    rwa [show (2 : ℚ) ^ (2 : ℤ) = 4 by norm_num, mul_comm] at this
  have next : IsDouble (fv + 2 ^ q) := by
    simpa [fv_def, add_mul] using isDouble_of_abs_le (show |m + 1| ≤ 2 ^ 53 by rw [abs_le]; omega)
      (show -1074 ≤ q by omega)
  have prev : IsDouble (fv - 2 ^ q) := by
    simpa [fv_def, sub_mul] using isDouble_of_abs_le (show |m - 1| ≤ 2 ^ 53 by rw [abs_le]; omega)
      (show -1074 ≤ q by omega)
  -- the half spread: at least one ulp, at most half the fair value
  have product_low : 2 ^ (q + 2) ≤ Binary64.round (fv * p.spreadTarget) := by
    apply le_round_of_le (isDouble_two_zpow (by omega))
    calc (2 : ℚ) ^ (q + 2) = 2 ^ (q + 52) * 2 ^ (-50 : ℤ) := by rw [← two_zpow_add]; ring_nf
      _ ≤ fv * p.spreadTarget := mul_le_mul ulp_le sane.spread_ge (two_zpow_pos _).le positive.le
  have product_high : Binary64.round (fv * p.spreadTarget) ≤ fv :=
    round_le_of_le grid (mul_le_of_le_one_right positive.le sane.spread_le_one)
  have spread_low : 2 ^ q ≤ p.halfSpread fv := by
    apply le_round_of_le (isDouble_two_zpow (by omega))
    rw [two_zpow_add, show (2 : ℚ) ^ (2 : ℤ) = 4 by norm_num] at product_low
    linarith only [product_low, ulp_pos]
  have spread_high : p.halfSpread fv ≤ fv / 2 :=
    round_le_of_le half (div_le_div_of_nonneg_right product_high (by norm_num))
  -- the edge: between nothing and a quarter of the fair value
  have edge_low : 0 ≤ Binary64.round (p.edge * fv) := round_nonneg (mul_nonneg sane.edge_nonneg positive.le)
  have edge_high : Binary64.round (p.edge * fv) ≤ fv / 4 :=
    round_le_of_le quarter ((mul_le_mul_of_nonneg_right sane.edge_le_quarter positive.le).trans_eq (by ring))
  -- the bid side
  have inner_bid_low : fv / 2 ≤ Binary64.round (fv - p.halfSpread fv) :=
    le_round_of_le half (by linarith only [spread_high])
  have inner_bid_high : Binary64.round (fv - p.halfSpread fv) ≤ fv - 2 ^ q :=
    round_le_of_le prev (sub_le_sub_left spread_low fv)
  -- the ask side
  have inner_ask_low : fv + 2 ^ q ≤ Binary64.round (fv + p.halfSpread fv) :=
    le_round_of_le next (add_le_add_left spread_low fv)
  have inner_ask_high : Binary64.round (fv + p.halfSpread fv) ≤ 2 * fv :=
    round_le_of_le double (by linarith only [spread_high, positive])
  have bid_below : p.bidPrice fv ≤ Binary64.round (fv - p.halfSpread fv) :=
    round_le_of_le (isDouble_round _) (sub_le_self _ edge_low)
  have ask_above : Binary64.round (fv + p.halfSpread fv) ≤ p.askPrice fv :=
    le_round_of_le (isDouble_round _) (le_add_of_nonneg_right edge_low)
  exact ⟨le_round_of_le quarter (by linarith only [inner_bid_low, edge_high]),
    by linarith only [bid_below, inner_bid_high, ulp_pos], by linarith only [ask_above, inner_ask_low, ulp_pos],
    round_le_of_le quadruple (by linarith only [inner_ask_high, edge_high, positive])⟩

/-- Over every position and every snapshot whose mid, if positive, lies in
`[2 ^ -1000, 2 ^ 1000)`, with sane parameters and every operation rounded as
binary64 rounds it: every order `update_quotes` hands out has a positive price
below `2 ^ 1024`, so nothing overflows, and every buy it hands out is priced
strictly below every sell. -/
theorem quotes_never_cross (st : MarketMakingStrategy) (snapshot : Snapshot) (clock : Clock) (sane : st.params.Sane)
    (normal : 0 < snapshot.midPrice → 2 ^ (-1000 : ℤ) ≤ snapshot.midPrice) (finite : snapshot.midPrice < 2 ^ (1000 : ℤ)) :
    (∀ o ∈ (st.updateQuotes snapshot clock).2.2, 0 < o.price ∧ o.price < 2 ^ (1024 : ℤ)) ∧
      ∀ b ∈ (st.updateQuotes snapshot clock).2.2, ∀ a ∈ (st.updateQuotes snapshot clock).2.2,
        b.side = .buy → a.side = .sell → b.price < a.price := by
  by_cases skip : snapshot.midPrice ≤ 0 ∨ st.params.maxPosition ≤ |st.position|
  · rw [updateQuotes_unquoted st snapshot clock skip]
    simp
  obtain ⟨mid, limit⟩ := not_or.1 skip
  obtain ⟨m, q, m_low, m_high, fine, fair, fair_high⟩ :=
    st.params.calculateFairValue_normal sane (normal (not_le.1 mid)) finite (not_le.1 limit)
  obtain ⟨bid_low, bid_fair, fair_ask, ask_high⟩ :=
    st.params.quotes_around sane m_low m_high (show -1072 ≤ q by omega)
  rw [← fair] at bid_low bid_fair fair_ask ask_high
  have positive : 0 < st.params.calculateFairValue snapshot.midPrice st.position := by
    rw [fair]
    exact mul_pos (by exact_mod_cast (show (0 : ℤ) < m by omega)) (two_zpow_pos q)
  have ceiling : 4 * (2 : ℚ) ^ (1001 : ℤ) < 2 ^ (1024 : ℤ) :=
    calc 4 * (2 : ℚ) ^ (1001 : ℤ) < 2 ^ (23 : ℤ) * 2 ^ (1001 : ℤ) :=
          mul_lt_mul_of_pos_right (by norm_num) (two_zpow_pos _)
      _ = 2 ^ (1024 : ℤ) := by rw [← two_zpow_add]; norm_num
  have quoted := fun {o : Order} (member : o ∈ (st.updateQuotes snapshot clock).2.2) =>
    List.mem_pair.1 ((gated_sublist _ _ _ _).subset
      (by rwa [updateQuotes_quoted st snapshot clock (not_le.1 mid) (not_le.1 limit)] at member))
  refine ⟨fun o member => ?_, fun b bought a sold buy sell => ?_⟩
  · have room := two_zpow_pos 1001
    rcases quoted member with rfl | rfl
    · exact ⟨by linarith only [bid_low, positive], by linarith only [bid_fair, fair_high, ceiling, room]⟩
    · exact ⟨by linarith only [fair_ask, positive], by linarith only [ask_high, fair_high, ceiling]⟩
  · rcases quoted bought with rfl | rfl
    · rcases quoted sold with rfl | rfl
      · nomatch sell
      · exact bid_fair.trans fair_ask
    · nomatch buy

theorem Parameters.default_sane : ({} : Parameters).Sane where
  skew_nonneg := by norm_num
  skew_le_half := by norm_num
  spread_ge := le_round_of_le (isDouble_two_zpow (by norm_num)) (by norm_num)
  spread_le_one := round_le_of_le (isDouble_intCast (show |(1 : ℤ)| < 2 ^ 53 by norm_num)) (by norm_num)
  edge_nonneg := round_nonneg (by norm_num)
  edge_le_quarter := round_le_of_le (⟨1, -2, by norm_num, by norm_num, by norm_num⟩ : IsDouble (1 / 4)) (by norm_num)

end Prices

def flatSnapshot : Snapshot := ⟨fun _ => ⟨1, 1, 0⟩, fun _ => ⟨1, 1, 0⟩, 1, 1, 1, 1, 0⟩

theorem default_quotes_never_cross :
    ({} : Parameters).Sane ∧ (0 < flatSnapshot.midPrice → 2 ^ (-1000 : ℤ) ≤ flatSnapshot.midPrice) ∧
      flatSnapshot.midPrice < 2 ^ (1000 : ℤ) ∧
      (∀ o ∈ ((MarketMakingStrategy.init {}).updateQuotes flatSnapshot ⟨fun _ => 0, 0⟩).2.2,
          0 < o.price ∧ o.price < 2 ^ (1024 : ℤ)) ∧
        ∀ b ∈ ((MarketMakingStrategy.init {}).updateQuotes flatSnapshot ⟨fun _ => 0, 0⟩).2.2,
          ∀ a ∈ ((MarketMakingStrategy.init {}).updateQuotes flatSnapshot ⟨fun _ => 0, 0⟩).2.2,
            b.side = .buy → a.side = .sell → b.price < a.price :=
  have mid : flatSnapshot.midPrice = 1 := by
    norm_num [flatSnapshot, Snapshot.midPrice, Snapshot.bestBid, Snapshot.bestAsk]
  have normal : 0 < flatSnapshot.midPrice → 2 ^ (-1000 : ℤ) ≤ flatSnapshot.midPrice := fun _ => by
    rw [mid, ← zpow_zero (2 : ℚ)]
    exact Binary64.two_zpow_le_two_zpow (by norm_num)
  have finite : flatSnapshot.midPrice < 2 ^ (1000 : ℤ) := by
    rw [mid, ← zpow_zero (2 : ℚ)]
    exact zpow_lt_zpow_right₀ (by norm_num) (by norm_num)
  ⟨Parameters.default_sane, normal, finite,
    quotes_never_cross _ _ _ Parameters.default_sane normal finite⟩

end Hft.Strategy
