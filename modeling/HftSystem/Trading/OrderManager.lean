import HftSystem.Network.TcpSender
import Mathlib.Algebra.Order.Ring.Rat
import Mathlib.Tactic.NormNum

/-!
# Risk-gated order submission

`OrderManager::submit_order` of `order_manager.cpp` on its one thread: the four
checks in order (size, projected position, rate, notional), then the send and
the optimistic position update.  The wall-clock reading `Timestamp::wall_clock_ns()`
and the outcome of `TCPSender::send_order` are inputs of each call.

`check_notional_limit` reads `notional_`, but no code path writes it, so only
each order's own notional is bounded.
-/

set_option autoImplicit false

namespace Hft.Risk

open Hft.Network

/-- `OrderManager::RiskLimits` with its defaults. -/
structure RiskLimits where
  maxOrderSize : ℚ := 1000
  maxPosition : ℚ := 10000
  maxNotional : ℚ := 1000000
  maxOrdersPerSecond : UInt32 := 100

/-- The mutable state of `OrderManager`; `orders_this_second_` is a `uint32_t`,
`last_second_timestamp_` a `uint64_t`. -/
structure OrderManager where
  limits : RiskLimits
  position : ℚ
  notional : ℚ
  ordersThisSecond : Nat
  lastSecondTimestamp : Nat

/-- The constructor followed by `set_risk_limits(limits)`. -/
def OrderManager.init (limits : RiskLimits) : OrderManager := ⟨limits, 0, 0, 0, 0⟩

/-- Why `submit_order` returned false. -/
inductive Rejection where
  | orderSize
  | positionLimit
  | rateLimit
  | notionalLimit
  | sendFailed
  deriving DecidableEq

def OrderManager.checkOrderSize (m : OrderManager) (size : ℚ) : Bool :=
  size > 0 && size ≤ m.limits.maxOrderSize

/-- The position `submit_order` would store after a fill of `size` on `side`. -/
def OrderManager.projected (m : OrderManager) (side : OrderSide) (size : ℚ) : ℚ :=
  match side with
  | .buy => m.position + size
  | .sell => m.position - size

def OrderManager.checkPositionLimit (m : OrderManager) (side : OrderSide) (size : ℚ) : Bool :=
  |m.projected side size| ≤ m.limits.maxPosition

/-- `ONE_SECOND_NS`. -/
def oneSecondNs : Nat := 1000000000

/-- `update_rate_limiter`: a new window opens when the `uint64_t` difference to
the last window start exceeds one second. -/
def OrderManager.updateRateLimiter (m : OrderManager) (nowNs : UInt64) : OrderManager :=
  if (nowNs.toNat + 2 ^ 64 - m.lastSecondTimestamp) % 2 ^ 64 > oneSecondNs then
    { m with ordersThisSecond := 0, lastSecondTimestamp := nowNs.toNat }
  else m

/-- `check_rate_limit`: the counter is charged as soon as the check passes. -/
def OrderManager.checkRateLimit (m : OrderManager) (nowNs : UInt64) : Bool × OrderManager :=
  let m := m.updateRateLimiter nowNs
  if m.ordersThisSecond ≥ m.limits.maxOrdersPerSecond.toNat then (false, m)
  else (true, { m with ordersThisSecond := (m.ordersThisSecond + 1) % 2 ^ 32 })

def OrderManager.checkNotionalLimit (m : OrderManager) (price size : ℚ) : Bool :=
  m.notional + price * size ≤ m.limits.maxNotional

/-- `OrderManager::submit_order`, with `nowNs` the wall-clock reading taken by
the rate check and `sent` the result of `order_sender_.send_order(order)`. -/
def OrderManager.submitOrder (m : OrderManager) (order : Order) (nowNs : UInt64) (sent : Bool) :
    Except Rejection Unit × OrderManager :=
  if !m.checkOrderSize order.quantity then (.error .orderSize, m)
  else if !m.checkPositionLimit order.side order.quantity then (.error .positionLimit, m)
  else
    let rate := m.checkRateLimit nowNs
    let m := rate.2
    if !rate.1 then (.error .rateLimit, m)
    else if !m.checkNotionalLimit order.price order.quantity then (.error .notionalLimit, m)
    else if sent then (.ok (), { m with position := m.projected order.side order.quantity })
    else (.error .sendFailed, m)

structure Submission where
  order : Order
  nowNs : UInt64
  sent : Bool

/-- The calls in order: each call's result and the final state. -/
def OrderManager.submitAll (m : OrderManager) : List Submission → List Bool × OrderManager
  | [] => ([], m)
  | c :: rest =>
      let (result, m') := m.submitOrder c.order c.nowNs c.sent
      let (results, final) := m'.submitAll rest
      (result.isOk :: results, final)

/-! ## What one call can do -/

theorem updateRateLimiter_frame (m : OrderManager) (nowNs : UInt64) :
    (m.updateRateLimiter nowNs).limits = m.limits ∧ (m.updateRateLimiter nowNs).position = m.position ∧
      (m.updateRateLimiter nowNs).notional = m.notional := by
  unfold OrderManager.updateRateLimiter
  split <;> exact ⟨rfl, rfl, rfl⟩

theorem checkRateLimit_frame (m : OrderManager) (nowNs : UInt64) :
    (m.checkRateLimit nowNs).2.limits = m.limits ∧ (m.checkRateLimit nowNs).2.position = m.position ∧
      (m.checkRateLimit nowNs).2.notional = m.notional := by
  obtain ⟨limits, position, notional⟩ := updateRateLimiter_frame m nowNs
  unfold OrderManager.checkRateLimit
  dsimp only
  split <;> exact ⟨limits, position, notional⟩

theorem submitOrder_cases (m : OrderManager) (order : Order) (nowNs : UInt64) (sent : Bool) :
    (m.submitOrder order nowNs sent).2.limits = m.limits ∧
      (m.submitOrder order nowNs sent).2.notional = m.notional ∧
      (((m.submitOrder order nowNs sent).1 = .ok () ∧
          (m.submitOrder order nowNs sent).2.position = m.projected order.side order.quantity ∧
          m.checkPositionLimit order.side order.quantity = true) ∨
        ((m.submitOrder order nowNs sent).1 ≠ .ok () ∧
          (m.submitOrder order nowNs sent).2.position = m.position)) := by
  obtain ⟨limits, position, notional⟩ := checkRateLimit_frame m nowNs
  have projected_eq : (m.checkRateLimit nowNs).2.projected order.side order.quantity =
      m.projected order.side order.quantity := by
    cases order.side <;> simp [OrderManager.projected, position]
  unfold OrderManager.submitOrder
  by_cases size : m.checkOrderSize order.quantity = true
  · by_cases pos : m.checkPositionLimit order.side order.quantity = true
    · simp only [size, pos, Bool.not_true, Bool.false_eq_true, if_false]
      by_cases rate : (m.checkRateLimit nowNs).1 = true
      · by_cases room : (m.checkRateLimit nowNs).2.checkNotionalLimit order.price order.quantity
        · cases sent
          · simp [rate, room, limits, notional, position]
          · simp [rate, room, limits, notional, projected_eq, pos]
        · simp [rate, room, limits, notional, position]
      · simp [rate, limits, notional, position]
    · simp [size, pos]
  · simp [size]

theorem submitOrder_accepted (m : OrderManager) (order : Order) (nowNs : UInt64) (sent : Bool)
    (accepted : (m.submitOrder order nowNs sent).1 = .ok ()) :
    (m.submitOrder order nowNs sent).2.position = m.projected order.side order.quantity ∧
      m.checkPositionLimit order.side order.quantity = true := by
  rcases (submitOrder_cases m order nowNs sent).2.2 with ⟨-, stored, checked⟩ | ⟨rejected, -⟩
  · exact ⟨stored, checked⟩
  · exact absurd accepted rejected

/-! ## Position and notional over whole runs -/

theorem submitAll_position_bounded (limits : RiskLimits) :
    ∀ (calls : List Submission) (m : OrderManager), m.limits = limits →
      |m.position| ≤ limits.maxPosition →
      |(m.submitAll calls).2.position| ≤ limits.maxPosition := by
  intro calls
  induction calls with
  | nil => intro m _ bounded; exact bounded
  | cons c rest ih =>
      intro m fixed bounded
      obtain ⟨same_limits, -, outcome⟩ := submitOrder_cases m c.order c.nowNs c.sent
      apply ih _ (same_limits.trans fixed)
      rcases outcome with ⟨-, stored, checked⟩ | ⟨-, unchanged⟩
      · rw [stored, ← fixed]
        simpa [OrderManager.checkPositionLimit] using checked
      · rw [unchanged]
        exact bounded

/-- Starting flat under fixed limits with `max_position ≥ 0`, every sequence of
`submit_order` calls, whatever the clock and the transport return, ends with
`|position_| ≤ max_position`; and an accepted order stores exactly the
projected position that `check_position_limit` tested. -/
theorem submitAll_position_within_limit (limits : RiskLimits) (nonneg : 0 ≤ limits.maxPosition) :
    (∀ calls : List Submission,
      |((OrderManager.init limits).submitAll calls).2.position| ≤ limits.maxPosition) ∧
    ∀ (m : OrderManager) (order : Order) (nowNs : UInt64) (sent : Bool),
      (m.submitOrder order nowNs sent).1 = .ok () →
      (m.submitOrder order nowNs sent).2.position = m.projected order.side order.quantity ∧
        m.checkPositionLimit order.side order.quantity = true :=
  ⟨fun calls => submitAll_position_bounded limits calls _ rfl (by simpa [OrderManager.init] using nonneg),
    submitOrder_accepted⟩

theorem position_within_default_limits :
    0 ≤ ({} : RiskLimits).maxPosition ∧
      ∀ calls : List Submission, |((OrderManager.init {}).submitAll calls).2.position| ≤ 10000 :=
  ⟨by norm_num, (submitAll_position_within_limit {} (by norm_num)).1⟩

def largeBuy : Order := ⟨[], 1, .buy, .limit, 1000, 600, 0⟩

def twoLargeBuys : List Submission :=
  [⟨largeBuy, 2000000000, true⟩, ⟨largeBuy, 2000000001, true⟩]

/-- Under the default limits both buys are accepted, although together they
trade 1200000 against `max_notional = 1000000`. -/
theorem notional_limit_not_cumulative :
    ((OrderManager.init {}).submitAll twoLargeBuys).1 = [true, true] ∧
      ({} : RiskLimits).maxNotional <
        (twoLargeBuys.map fun c => c.order.price * c.order.quantity).sum := by
  have first : (2000000000 : UInt64).toNat = 2000000000 := rfl
  have second : (2000000001 : UInt64).toNat = 2000000001 := rfl
  have rate : (100 : UInt32).toNat = 100 := rfl
  norm_num [first, second, rate, OrderManager.submitAll, twoLargeBuys, largeBuy, OrderManager.submitOrder,
    OrderManager.init, OrderManager.checkOrderSize, OrderManager.checkPositionLimit,
    OrderManager.projected, OrderManager.checkRateLimit, OrderManager.updateRateLimiter,
    OrderManager.checkNotionalLimit, oneSecondNs, Except.isOk, Except.toBool]

/-! ## What a rejection leaves behind -/

theorem checkRateLimit_refused (m : OrderManager) (nowNs : UInt64) (refused : (m.checkRateLimit nowNs).1 = false) :
    (m.checkRateLimit nowNs).2 = m.updateRateLimiter nowNs := by
  unfold OrderManager.checkRateLimit at refused ⊢
  dsimp only at refused ⊢
  split_ifs at refused ⊢
  rfl

theorem submitOrder_rejected (m : OrderManager) (order : Order) (nowNs : UInt64) (sent : Bool) :
    ((m.submitOrder order nowNs sent).1 = .error .orderSize → (m.submitOrder order nowNs sent).2 = m) ∧
    ((m.submitOrder order nowNs sent).1 = .error .positionLimit → (m.submitOrder order nowNs sent).2 = m) ∧
    ((m.submitOrder order nowNs sent).1 = .error .rateLimit →
      (m.submitOrder order nowNs sent).2 = m.updateRateLimiter nowNs) ∧
    ((m.submitOrder order nowNs sent).1 = .error .notionalLimit →
      (m.checkRateLimit nowNs).1 = true ∧ (m.submitOrder order nowNs sent).2 = (m.checkRateLimit nowNs).2) := by
  unfold OrderManager.submitOrder
  dsimp only
  split_ifs with size pos rate room
  · simp
  · simp
  · simp [checkRateLimit_refused m nowNs (by simpa using rate)]
  · simpa using rate
  · simp
  · simp

theorem updateRateLimiter_ordersThisSecond_le (m : OrderManager) (nowNs : UInt64) :
    (m.updateRateLimiter nowNs).ordersThisSecond ≤ m.ordersThisSecond := by
  unfold OrderManager.updateRateLimiter
  split
  · exact Nat.zero_le _
  · exact le_rfl

theorem checkRateLimit_charges (m : OrderManager) (nowNs : UInt64) (passed : (m.checkRateLimit nowNs).1 = true) :
    (m.checkRateLimit nowNs).2.ordersThisSecond = (m.updateRateLimiter nowNs).ordersThisSecond + 1 := by
  have bound : (m.updateRateLimiter nowNs).limits.maxOrdersPerSecond.toNat < 2 ^ 32 :=
    UInt32.toNat_lt_size _
  unfold OrderManager.checkRateLimit at passed ⊢
  dsimp only at passed ⊢
  split_ifs at passed ⊢ with full
  show ((m.updateRateLimiter nowNs).ordersThisSecond + 1) % 2 ^ 32 = _
  omega

/-- Every rejection leaves `position_` and `notional_` alone, and the size,
position and rate rejections charge no slot; but an order that passes the
rate check and fails the notional check keeps the slot the rate check took. -/
theorem notional_rejection_keeps_rate_slot (m : OrderManager) (order : Order) (nowNs : UInt64) (sent : Bool) :
    ((m.submitOrder order nowNs sent).1 ≠ .ok () →
      (m.submitOrder order nowNs sent).2.position = m.position ∧
        (m.submitOrder order nowNs sent).2.notional = m.notional) ∧
    ((m.submitOrder order nowNs sent).1 = .error .orderSize ∨
        (m.submitOrder order nowNs sent).1 = .error .positionLimit ∨
        (m.submitOrder order nowNs sent).1 = .error .rateLimit →
      (m.submitOrder order nowNs sent).2.ordersThisSecond ≤ m.ordersThisSecond) ∧
    ((m.submitOrder order nowNs sent).1 = .error .notionalLimit →
      (m.submitOrder order nowNs sent).2.ordersThisSecond = (m.updateRateLimiter nowNs).ordersThisSecond + 1) := by
  obtain ⟨-, notional, outcome⟩ := submitOrder_cases m order nowNs sent
  obtain ⟨size, position, rate, room⟩ := submitOrder_rejected m order nowNs sent
  refine ⟨fun rejected => ⟨?_, notional⟩, ?_, fun failed => ?_⟩
  · rcases outcome with ⟨accepted, -⟩ | ⟨-, kept⟩
    · exact absurd accepted rejected
    · exact kept
  · rintro (failed | failed | failed)
    · rw [size failed]
    · rw [position failed]
    · rw [rate failed]
      exact updateRateLimiter_ordersThisSecond_le m nowNs
  · obtain ⟨passed, state⟩ := room failed
    rw [state, checkRateLimit_charges m nowNs passed]

def oversizedNotional : Order := ⟨[], 1, .buy, .limit, 2000, 600, 0⟩

/-- On a fresh manager under the default limits that order is refused by the
notional check, and the window's counter has gone from 0 to 1. -/
theorem oversized_notional_charged :
    ((OrderManager.init {}).submitOrder oversizedNotional 2000000000 true).1 = .error .notionalLimit ∧
      ((OrderManager.init {}).submitOrder oversizedNotional 2000000000 true).2.ordersThisSecond =
        (OrderManager.init {}).ordersThisSecond + 1 := by
  have rejected : ((OrderManager.init {}).submitOrder oversizedNotional 2000000000 true).1 = .error .notionalLimit := by
    have now : (2000000000 : UInt64).toNat = 2000000000 := rfl
    have rate : (100 : UInt32).toNat = 100 := rfl
    norm_num [now, rate, oversizedNotional, OrderManager.submitOrder, OrderManager.init, OrderManager.checkOrderSize,
      OrderManager.checkPositionLimit, OrderManager.projected, OrderManager.checkRateLimit,
      OrderManager.updateRateLimiter, OrderManager.checkNotionalLimit, oneSecondNs]
  refine ⟨rejected, ?_⟩
  rw [(notional_rejection_keeps_rate_slot _ _ _ _).2.2 rejected]
  rfl

end Hft.Risk
