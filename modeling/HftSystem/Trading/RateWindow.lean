import HftSystem.Trading.OrderManager
import Mathlib.Data.List.Sort
import Mathlib.Algebra.Order.Ring.Abs

/-!
# The rate limiter over time

`update_rate_limiter` opens a new window at the first rate check more than one
second after the current window opened, and `check_rate_limit` admits at most
`max_orders_per_second` checks per window.  Windows are anchored at calls, not
at fixed seconds, so a full window that closes just before a reset and a full
window just after it put up to twice the limit into one second.  This module
proves that twice the limit is the bound for every half-open second.
-/

set_option autoImplicit false

namespace Hft.RateWindow

open Hft.Network Hft.Risk

/-- The clock readings of the calls `submit_order` accepted, in call order. -/
def acceptedTimes (m : OrderManager) (calls : List Submission) : List Nat :=
  ((calls.zip (m.submitAll calls).1).filter (·.2)).map (·.1.nowNs.toNat)

def inSecond (t : Nat) (times : List Nat) : List Nat :=
  times.filter fun a => t ≤ a ∧ a < t + oneSecondNs

theorem acceptedTimes_cons (m : OrderManager) (c : Submission) (rest : List Submission) :
    acceptedTimes m (c :: rest) =
      (if (m.submitOrder c.order c.nowNs c.sent).1.isOk then [c.nowNs.toNat] else []) ++
        acceptedTimes (m.submitOrder c.order c.nowNs c.sent).2 rest := by
  simp only [acceptedTimes, OrderManager.submitAll, List.zip_cons_cons, List.filter_cons]
  cases (m.submitOrder c.order c.nowNs c.sent).1.isOk <;> rfl

/-! ## One call against the counter -/

theorem updateRateLimiter_eq (m : OrderManager) (nowNs : UInt64)
    (later : m.lastSecondTimestamp ≤ nowNs.toNat) :
    m.updateRateLimiter nowNs =
      if nowNs.toNat - m.lastSecondTimestamp > oneSecondNs then
        { m with ordersThisSecond := 0, lastSecondTimestamp := nowNs.toNat }
      else m := by
  have small := nowNs.toNat_lt_size
  have wrap : (nowNs.toNat + 2 ^ 64 - m.lastSecondTimestamp) % 2 ^ 64 =
      nowNs.toNat - m.lastSecondTimestamp := by
    simp only [UInt64.size] at small
    omega
  rw [OrderManager.updateRateLimiter, wrap]

theorem submitOrder_counter (m : OrderManager) (order : Order) (nowNs : UInt64) (sent : Bool) :
    let r := m.submitOrder order nowNs sent
    let m1 := m.updateRateLimiter nowNs
    (r.1 ≠ .ok () ∧ r.2.ordersThisSecond = m.ordersThisSecond ∧
        r.2.lastSecondTimestamp = m.lastSecondTimestamp) ∨
      (r.1 ≠ .ok () ∧ r.2.ordersThisSecond = m1.ordersThisSecond ∧
        r.2.lastSecondTimestamp = m1.lastSecondTimestamp) ∨
      (m1.ordersThisSecond < m.limits.maxOrdersPerSecond.toNat ∧
        r.2.ordersThisSecond = m1.ordersThisSecond + 1 ∧
        r.2.lastSecondTimestamp = m1.lastSecondTimestamp) := by
  have limits := (updateRateLimiter_frame m nowNs).1
  have wide := m.limits.maxOrdersPerSecond.toNat_lt_size
  simp only [UInt32.size] at wide
  unfold OrderManager.submitOrder OrderManager.checkRateLimit
  by_cases size : m.checkOrderSize order.quantity = true
  · by_cases pos : m.checkPositionLimit order.side order.quantity = true
    · simp only [size, pos, Bool.not_true, Bool.false_eq_true, if_false]
      by_cases full : (m.updateRateLimiter nowNs).ordersThisSecond ≥
          (m.updateRateLimiter nowNs).limits.maxOrdersPerSecond.toNat
      · simp [full]
      · rw [limits] at full
        have charged : ((m.updateRateLimiter nowNs).ordersThisSecond + 1) % 2 ^ 32 =
            (m.updateRateLimiter nowNs).ordersThisSecond + 1 := by omega
        right; right
        rw [limits] at *
        split_ifs <;> simp_all
    · simp [size, pos]
  · simp [size]

/-! ## The window invariant -/

/-- What the counter guarantees about the accepted readings so far, `latest`
being the last reading: they split into readings of windows closed more than a
second before the current window opened, at most `max` readings of the
previous window (none after the current window opened), and no more readings
of the current window than the counter holds. -/
structure WindowInv (max : Nat) (m : OrderManager) (accepted : List Nat) (latest : Nat) :
    Prop where
  counter : m.ordersThisSecond ≤ max
  opened : m.lastSecondTimestamp ≤ latest
  past : ∀ a ∈ accepted, a ≤ latest
  windows : ∃ old prev cur, accepted = old ++ prev ++ cur ∧
    (∀ a ∈ old, a + oneSecondNs < m.lastSecondTimestamp) ∧
    (∀ a ∈ prev, a ≤ m.lastSecondTimestamp) ∧ prev.length ≤ max ∧
    cur.length ≤ m.ordersThisSecond
  bounded : ∀ t, (inSecond t accepted).length ≤ 2 * max

theorem windows_update (max : Nat) (m : OrderManager) (accepted : List Nat) (latest : Nat)
    (inv : WindowInv max m accepted latest) (nowNs : UInt64) (later : latest ≤ nowNs.toNat) :
    let m1 := m.updateRateLimiter nowNs
    m1.ordersThisSecond ≤ m.ordersThisSecond ∧ m1.lastSecondTimestamp ≤ nowNs.toNat ∧
      ∃ old prev cur, accepted = old ++ prev ++ cur ∧
        (∀ a ∈ old, a + oneSecondNs < m1.lastSecondTimestamp) ∧
        (∀ a ∈ prev, a ≤ m1.lastSecondTimestamp) ∧ prev.length ≤ max ∧
        cur.length ≤ m1.ordersThisSecond := by
  obtain ⟨old, prev, cur, split, old_before, prev_before, prev_short, cur_short⟩ := inv.windows
  rw [updateRateLimiter_eq m nowNs (inv.opened.trans later)]
  split
  · rename_i reset
    dsimp only
    refine ⟨Nat.zero_le _, le_rfl, old ++ prev, cur, [], by simp [split], ?_, ?_, ?_, by simp⟩
    · intro a member
      rcases List.mem_append.mp member with early | previous
      · have := old_before a early
        omega
      · have := prev_before a previous
        omega
    · intro a member
      exact (inv.past a (by simp [split, member])).trans later
    · exact cur_short.trans inv.counter
  · exact ⟨le_rfl, inv.opened.trans later, old, prev, cur, split, old_before, prev_before,
      prev_short, cur_short⟩

theorem inSecond_windows (old prev cur : List Nat) {t opened latest : Nat}
    (old_before : ∀ a ∈ old, a + oneSecondNs < opened) (opened_le : opened ≤ latest)
    (reaches : latest < t + oneSecondNs) :
    (inSecond t (old ++ prev ++ cur)).length ≤ prev.length + cur.length := by
  have gone : inSecond t old = [] := by
    apply List.filter_eq_nil_iff.mpr
    intro a member
    have := old_before a member
    simp only [decide_eq_true_eq, not_and, not_lt]
    omega
  simp only [inSecond, List.filter_append] at gone ⊢
  rw [gone, List.nil_append, List.length_append]
  exact Nat.add_le_add (List.length_filter_le _ _) (List.length_filter_le _ _)

theorem isOk_false (r : Except Rejection Unit) (refused : r ≠ .ok ()) : r.isOk = false := by
  cases r with
  | error e => rfl
  | ok u => exact absurd rfl refused

theorem windowInv_submit (max : Nat) (m : OrderManager) (accepted : List Nat) (latest : Nat)
    (fixed : m.limits.maxOrdersPerSecond.toNat = max) (inv : WindowInv max m accepted latest)
    (c : Submission) (later : latest ≤ c.nowNs.toNat) :
    WindowInv max (m.submitOrder c.order c.nowNs c.sent).2
      (accepted ++ if (m.submitOrder c.order c.nowNs c.sent).1.isOk then [c.nowNs.toNat] else [])
      c.nowNs.toNat := by
  obtain ⟨fewer, opened1, old, prev, cur, split, old_before, prev_before, prev_short, cur_short⟩ :=
    windows_update max m accepted latest inv c.nowNs later
  have past' : ∀ a ∈ accepted, a ≤ c.nowNs.toNat := fun a member => (inv.past a member).trans later
  rcases submitOrder_counter m c.order c.nowNs c.sent with
    ⟨refused, count, stamp⟩ | ⟨refused, count, stamp⟩ | ⟨room, count, stamp⟩
  · obtain ⟨old0, prev0, cur0, split0, old0_before, prev0_before, prev0_short, cur0_short⟩ :=
      inv.windows
    rw [isOk_false _ refused, if_neg Bool.false_ne_true, List.append_nil]
    exact ⟨count ▸ inv.counter, stamp ▸ inv.opened.trans later, past',
      ⟨old0, prev0, cur0, split0, stamp ▸ old0_before, stamp ▸ prev0_before, prev0_short,
        count ▸ cur0_short⟩, inv.bounded⟩
  · rw [isOk_false _ refused, if_neg Bool.false_ne_true, List.append_nil]
    exact ⟨count ▸ fewer.trans inv.counter, stamp ▸ opened1, past',
      ⟨old, prev, cur, split, stamp ▸ old_before, stamp ▸ prev_before, prev_short,
        count ▸ cur_short⟩, inv.bounded⟩
  · rw [fixed] at room
    have fresh_at : ∀ a ∈ (if (m.submitOrder c.order c.nowNs c.sent).1.isOk then
        [c.nowNs.toNat] else []), a = c.nowNs.toNat := by
      intro a member
      split at member <;> simp_all
    have fresh_short : (if (m.submitOrder c.order c.nowNs c.sent).1.isOk then
        [c.nowNs.toNat] else []).length ≤ 1 := by
      split <;> simp
    generalize (if (m.submitOrder c.order c.nowNs c.sent).1.isOk then
      [c.nowNs.toNat] else []) = fresh at fresh_at fresh_short ⊢
    have regroup : accepted ++ fresh = old ++ prev ++ (cur ++ fresh) := by simp [split]
    refine ⟨by omega, stamp ▸ opened1, ?_, ?_, ?_⟩
    · intro a member
      rcases List.mem_append.mp member with old_member | new_member
      · exact past' a old_member
      · exact (fresh_at a new_member).le
    · refine ⟨old, prev, cur ++ fresh, regroup, stamp ▸ old_before, stamp ▸ prev_before,
        prev_short, ?_⟩
      rw [List.length_append, count]
      omega
    · intro t
      by_cases reaches : c.nowNs.toNat < t + oneSecondNs
      · rw [regroup]
        calc (inSecond t (old ++ prev ++ (cur ++ fresh))).length
            ≤ prev.length + (cur ++ fresh).length :=
              inSecond_windows old prev _ old_before opened1 reaches
          _ ≤ 2 * max := by rw [List.length_append]; omega
      · have outside : inSecond t fresh = [] := by
          apply List.filter_eq_nil_iff.mpr
          intro a member
          rw [fresh_at a member]
          simp only [decide_eq_true_eq, not_and, not_lt]
          omega
        simp only [inSecond, List.filter_append] at outside ⊢
        rw [outside, List.append_nil]
        exact inv.bounded t

theorem windowInv_run (max : Nat) :
    ∀ (calls : List Submission) (m : OrderManager) (accepted : List Nat) (latest : Nat),
      m.limits.maxOrdersPerSecond.toNat = max → WindowInv max m accepted latest →
      (latest :: calls.map fun c => c.nowNs.toNat).Sorted (· ≤ ·) →
      ∀ t, (inSecond t (accepted ++ acceptedTimes m calls)).length ≤ 2 * max := by
  intro calls
  induction calls with
  | nil => intro m accepted latest _ inv _; simpa [acceptedTimes] using inv.bounded
  | cons c rest ih =>
      intro m accepted latest fixed inv sorted
      rw [List.map_cons, List.sorted_cons, List.sorted_cons] at sorted
      have later : latest ≤ c.nowNs.toNat := sorted.1 _ (List.mem_cons_self _ _)
      have step := windowInv_submit max m accepted latest fixed inv c later
      rw [acceptedTimes_cons, ← List.append_assoc]
      exact ih _ _ _ ((submitOrder_cases m c.order c.nowNs c.sent).1 ▸ fixed) step
        (List.sorted_cons.mpr sorted.2)

/-- For every sequence of `submit_order` calls at nondecreasing wall-clock
readings, every half-open one-second interval holds at most twice
`max_orders_per_second` accepted calls. -/
theorem accepted_per_second_at_most_twice (limits : RiskLimits) (calls : List Submission)
    (nondecreasing : (calls.map fun c => c.nowNs.toNat).Sorted (· ≤ ·)) (t : Nat) :
    (inSecond t (acceptedTimes (OrderManager.init limits) calls)).length ≤
      2 * limits.maxOrdersPerSecond.toNat := by
  have start : WindowInv limits.maxOrdersPerSecond.toNat (OrderManager.init limits) [] 0 :=
    ⟨Nat.zero_le _, le_rfl, by simp, ⟨[], [], [], rfl, by simp, by simp, by simp, by simp⟩,
      fun _ => by simp [inSecond]⟩
  simpa using windowInv_run _ calls _ [] 0 rfl start
    (List.sorted_cons.mpr ⟨fun _ _ => Nat.zero_le _, nondecreasing⟩) t

def burstLimits : RiskLimits := { maxOrdersPerSecond := 2 }

def smallBuy : Order := ⟨[], 1, .buy, .limit, 1, 1, 0⟩

def burstCalls : List Submission :=
  [⟨smallBuy, 2000000000, true⟩, ⟨smallBuy, 3000000000, true⟩,
    ⟨smallBuy, 3000000001, true⟩, ⟨smallBuy, 3000000001, true⟩]

theorem burst_readings : (2000000000 : UInt64).toNat = 2000000000 ∧
    (3000000000 : UInt64).toNat = 3000000000 ∧ (3000000001 : UInt64).toNat = 3000000001 ∧
    (2 : UInt32).toNat = 2 :=
  ⟨rfl, rfl, rfl, rfl⟩

/-- Three accepted calls in the second `[3 s, 4 s)` under a limit of two. -/
theorem rate_limit_exceeded_in_one_second :
    (burstCalls.map fun c => c.nowNs.toNat).Sorted (· ≤ ·) ∧
      burstLimits.maxOrdersPerSecond.toNat <
        (inSecond 3000000000 (acceptedTimes (OrderManager.init burstLimits) burstCalls)).length := by
  obtain ⟨first, second, third, limit⟩ := burst_readings
  refine ⟨by decide, ?_⟩
  norm_num [limit, first, second, third, acceptedTimes, burstCalls, smallBuy, burstLimits,
    inSecond, OrderManager.submitAll, OrderManager.submitOrder, OrderManager.init,
    OrderManager.checkOrderSize, OrderManager.checkPositionLimit, OrderManager.projected,
    OrderManager.checkRateLimit, OrderManager.updateRateLimiter, OrderManager.checkNotionalLimit,
    oneSecondNs, Except.isOk, Except.toBool, abs_one]

theorem burst_within_twice_limit :
    (burstCalls.map fun c => c.nowNs.toNat).Sorted (· ≤ ·) ∧
      (inSecond 3000000000 (acceptedTimes (OrderManager.init burstLimits) burstCalls)).length ≤
        2 * burstLimits.maxOrdersPerSecond.toNat :=
  ⟨by decide, accepted_per_second_at_most_twice _ _ (by decide) _⟩

end Hft.RateWindow
