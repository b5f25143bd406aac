import HftSystem.Trading.HotPath

/-!
# The orders the hot path hands out

Two properties of every run of `main`'s hot path, over every sequence of
records, from the state `main` leaves:

* `at_most_two_orders_per_interval`: for a TSC that never goes back and stays
  below `2^64`, no window of 100 µs (`3 * MIN_QUOTE_INTERVAL_NS` ticks at the
  assumed 3 GHz) holds the timestamps of more than two orders handed to
  `send_order`.  `should_requote`'s spacing is the only throttle on the path,
  and it lets one bid and one ask through per 100 µs.
* `order_ids_unique`: while fewer than `2^63` records have been processed, no
  two orders handed out carry the same `order_id`, also when a side was gated
  off and its id skipped.

Both rest on `processMessage_cases`, what one record can do to the strategy,
the clock and the orders handed out, and on an invariant of the hot path that
every record keeps.
-/

set_option autoImplicit false

namespace Hft.QuoteStream

open Hft.Network Hft.Strategy Hft.Pipeline

def inWindow (t : Nat) (orders : List Order) : List Order :=
  orders.filter fun o => t ≤ o.timestamp ∧ o.timestamp < t + 3 * minQuoteIntervalNs

/-! ## What one record does -/

theorem processMessage_cases (hp : HotPath) (data : List UInt8) (len : Nat) :
    ((hp.processMessage data len).strategy = hp.strategy ∧ (hp.processMessage data len).handed = hp.handed ∧
        ∃ taken, hp.clock.taken ≤ taken ∧ (hp.processMessage data len).clock = { hp.clock with taken := taken }) ∨
      (minQuoteIntervalNs ≤ toNanoseconds ((hp.clock.readings (hp.clock.taken + 1) % 2 ^ 64 + 2 ^ 64 -
          hp.strategy.lastQuoteTime) % 2 ^ 64) ∧
        ∃ bid ask : Order, ∃ orders : List Order,
          (hp.processMessage data len).strategy = { hp.strategy with
            lastQuoteTime := hp.clock.readings (hp.clock.taken + 5) % 2 ^ 64
            nextOrderId := (hp.strategy.nextOrderId + 2) % 2 ^ 64 } ∧
          (hp.processMessage data len).clock = { hp.clock with taken := hp.clock.taken + 7 } ∧
          (hp.processMessage data len).handed = hp.handed ++ orders ∧
          orders.Sublist [bid, ask] ∧
          bid.orderId = hp.strategy.nextOrderId ∧ bid.timestamp = hp.clock.readings (hp.clock.taken + 2) % 2 ^ 64 ∧
          ask.orderId = (hp.strategy.nextOrderId + 1) % 2 ^ 64 ∧
          ask.timestamp = hp.clock.readings (hp.clock.taken + 3) % 2 ^ 64) := by
  cases out : hp.handler.processMessage data len with
  | mk fired h =>
      cases fired with
      | none =>
          rw [hp.processMessage_quiet out]
          exact .inl ⟨rfl, rfl, hp.clock.taken, le_rfl, rfl⟩
      | some book =>
          rw [hp.processMessage_fired out]
          rcases onOrderBookUpdate_cases hp.strategy book hp.clock with ⟨taken, later, quiet⟩ |
            ⟨spaced, bid, ask, orders, quoted, rest⟩
          · rw [quiet]
            exact .inl ⟨rfl, List.append_nil _, taken, later, rfl⟩
          · rw [quoted]
            exact .inr ⟨spaced, bid, ask, orders, rfl, rfl, rfl, rest⟩

theorem readings_processMessage (hp : HotPath) (data : List UInt8) (len : Nat) :
    (hp.processMessage data len).clock.readings = hp.clock.readings := by
  rcases processMessage_cases hp data len with ⟨-, -, _, -, clock⟩ | ⟨-, -, -, -, -, clock, -⟩ <;> rw [clock]

/-! ## Spacing -/

theorem elapsed_of_le {now last : Nat} (after : last ≤ now) (bounded : now < 2 ^ 64) :
    (now % 2 ^ 64 + 2 ^ 64 - last) % 2 ^ 64 = now - last := by
  have wrapped : now + 2 ^ 64 - last = now - last + 2 ^ 64 := by omega
  rw [Nat.mod_eq_of_lt bounded, wrapped, Nat.add_mod_right, Nat.mod_eq_of_lt (by omega)]

theorem window_append {old new : List Order} {last : Nat} (stamped : ∀ o ∈ old, o.timestamp ≤ last)
    (fresh : ∀ o ∈ new, last + 3 * minQuoteIntervalNs ≤ o.timestamp)
    (spaced : ∀ t, (inWindow t old).length ≤ 2) (short : new.length ≤ 2) (t : Nat) :
    (inWindow t (old ++ new)).length ≤ 2 := by
  rw [inWindow, List.filter_append, List.length_append]
  by_cases late : ∃ o ∈ new, t ≤ o.timestamp ∧ o.timestamp < t + 3 * minQuoteIntervalNs
  · obtain ⟨o, member, -, before⟩ := late
    have none : old.filter (fun o => t ≤ o.timestamp ∧ o.timestamp < t + 3 * minQuoteIntervalNs) = [] :=
      List.filter_eq_nil_iff.2 fun a older => by
        have := stamped a older
        have := fresh o member
        simp only [decide_eq_true_eq]
        omega
    rw [none, List.length_nil, Nat.zero_add]
    exact (List.length_filter_le _ _).trans short
  · have none : new.filter (fun o => t ≤ o.timestamp ∧ o.timestamp < t + 3 * minQuoteIntervalNs) = [] :=
      List.filter_eq_nil_iff.2 fun a newer => by simpa using fun after before => late ⟨a, newer, after, before⟩
    rw [none, List.length_nil, Nat.add_zero]
    exact spaced t

/-- The hot path's spacing invariant: the stored quote time is no later than
the next reading and no earlier than any order handed out, and no 100 µs
window holds more than two of them. -/
structure Spaced (hp : HotPath) : Prop where
  stored : hp.strategy.lastQuoteTime ≤ hp.clock.readings hp.clock.taken
  stamped : ∀ o ∈ hp.handed, o.timestamp ≤ hp.strategy.lastQuoteTime
  window : ∀ t, (inWindow t hp.handed).length ≤ 2

section
variable (hp : HotPath) (ticking : Monotone hp.clock.readings) (bounded : ∀ i, hp.clock.readings i < 2 ^ 64)
include ticking bounded

theorem spaced_processMessage (inv : Spaced hp) (data : List UInt8) (len : Nat) :
    Spaced (hp.processMessage data len) := by
  rcases processMessage_cases hp data len with ⟨strategy, handed, taken, later, clock⟩ |
    ⟨spaced, bid, ask, orders, strategy, clock, handed, sub, -, bidAt, -, askAt⟩
  · refine ⟨?_, ?_, ?_⟩
    · rw [strategy, clock]
      exact inv.stored.trans (ticking later)
    · rw [strategy, handed]
      exact inv.stamped
    · rw [handed]
      exact inv.window
  -- the check passed: the new orders come at least 100 µs after the stored time
  have passed : hp.strategy.lastQuoteTime + 3 * minQuoteIntervalNs ≤ hp.clock.readings (hp.clock.taken + 1) := by
    have later := inv.stored.trans (ticking (Nat.le_add_right hp.clock.taken 1))
    rw [elapsed_of_le later (bounded _)] at spaced
    unfold toNanoseconds minQuoteIntervalNs at *
    omega
  have reading : ∀ i, hp.clock.readings i % 2 ^ 64 = hp.clock.readings i := fun i => Nat.mod_eq_of_lt (bounded i)
  have fresh : ∀ o ∈ orders, hp.clock.readings (hp.clock.taken + 1) ≤ o.timestamp ∧
      o.timestamp ≤ hp.clock.readings (hp.clock.taken + 5) := by
    intro o member
    rcases List.mem_pair.1 (sub.subset member) with rfl | rfl
    · rw [bidAt, reading]
      exact ⟨ticking (by omega), ticking (by omega)⟩
    · rw [askAt, reading]
      exact ⟨ticking (by omega), ticking (by omega)⟩
  refine ⟨?_, ?_, ?_⟩
  · rw [strategy, clock]
    dsimp only
    exact (reading _).trans_le (ticking (by omega))
  · rw [strategy, handed]
    dsimp only
    rw [reading]
    intro o member
    rcases List.mem_append.1 member with older | newer
    · exact (inv.stamped o older).trans (inv.stored.trans (ticking (by omega)))
    · exact (fresh o newer).2
  · rw [handed]
    exact window_append inv.stamped (fun o newer => passed.trans (fresh o newer).1) inv.window
      (sub.length_le.trans (le_refl 2))

end

theorem spaced_run (records : List (List UInt8)) :
    ∀ hp : HotPath, Monotone hp.clock.readings → (∀ i, hp.clock.readings i < 2 ^ 64) → Spaced hp →
      Spaced (hp.run records) := by
  induction records with
  | nil => exact fun _ _ _ inv => inv
  | cons r rest ih =>
      intro hp ticking bounded inv
      have same := readings_processMessage hp r r.length
      exact ih _ (same ▸ ticking) (same ▸ bounded) (spaced_processMessage hp ticking bounded inv r r.length)

/-- Over every sequence of records, for a TSC that never goes back and stays
below `2^64`, no 100 µs window holds more than two of the orders `main`'s hot
path hands to `send_order`. -/
theorem at_most_two_orders_per_interval (readings : Nat → Nat) (ticking : Monotone readings)
    (bounded : ∀ i, readings i < 2 ^ 64) (records : List (List UInt8)) (t : Nat) :
    (inWindow t ((mainHotPath readings).run records).handed).length ≤ 2 :=
  (spaced_run records (mainHotPath readings) ticking bounded
    ⟨Nat.zero_le _, fun _ member => absurd member (List.not_mem_nil _), fun _ => Nat.zero_le _⟩).window t

/-- A TSC ticking 100 µs at a time that stops at the top of `uint64_t`. -/
def saturatingTsc (i : Nat) : Nat := min (300000 * (i + 1)) (2 ^ 64 - 1)

theorem burst_at_most_two_per_interval :
    Monotone saturatingTsc ∧ (∀ i, saturatingTsc i < 2 ^ 64) ∧
      (inWindow 0 ((mainHotPath saturatingTsc).run quoteBurst).handed).length ≤ 2 := by
  have ticking : Monotone saturatingTsc := fun a b le => min_le_min_right _ (by omega)
  have bounded : ∀ i, saturatingTsc i < 2 ^ 64 := fun i => by unfold saturatingTsc; omega
  exact ⟨ticking, bounded, at_most_two_orders_per_interval _ ticking bounded _ _⟩

/-! ## Order ids -/

/-- The ids handed out are distinct and all below `next_order_id_`. -/
structure IdsFresh (hp : HotPath) : Prop where
  nodup : (hp.handed.map Order.orderId).Nodup
  below : ∀ o ∈ hp.handed, o.orderId < hp.strategy.nextOrderId

theorem idsFresh_processMessage (hp : HotPath) (room : hp.strategy.nextOrderId + 2 < 2 ^ 64) (inv : IdsFresh hp)
    (data : List UInt8) (len : Nat) :
    IdsFresh (hp.processMessage data len) ∧
      (hp.processMessage data len).strategy.nextOrderId ≤ hp.strategy.nextOrderId + 2 := by
  rcases processMessage_cases hp data len with ⟨strategy, handed, -⟩ |
    ⟨-, bid, ask, orders, strategy, -, handed, sub, bidId, -, askId, -⟩
  · rw [strategy]
    exact ⟨⟨handed ▸ inv.nodup, by rw [handed, strategy]; exact inv.below⟩, Nat.le_add_right _ _⟩
  have next : (hp.strategy.nextOrderId + 2) % 2 ^ 64 = hp.strategy.nextOrderId + 2 := Nat.mod_eq_of_lt room
  rw [Nat.mod_eq_of_lt (by omega)] at askId
  -- the new ids are `next_order_id_` and the one after it
  have fresh : ∀ o ∈ orders, o.orderId = hp.strategy.nextOrderId ∨ o.orderId = hp.strategy.nextOrderId + 1 := by
    intro o member
    rcases List.mem_pair.1 (sub.subset member) with rfl | rfl
    · exact .inl bidId
    · exact .inr askId
  have pair : (orders.map Order.orderId).Sublist [hp.strategy.nextOrderId, hp.strategy.nextOrderId + 1] := by
    rw [← askId, ← bidId]
    exact sub.map _
  refine ⟨⟨?_, ?_⟩, ?_⟩
  · rw [handed, List.map_append, List.nodup_append]
    refine ⟨inv.nodup, (show [hp.strategy.nextOrderId, hp.strategy.nextOrderId + 1].Nodup by simp).sublist pair, fun id older newer => ?_⟩
    obtain ⟨o, member, rfl⟩ := List.mem_map.1 older
    obtain ⟨o', member', same⟩ := List.mem_map.1 newer
    have := inv.below o member
    rcases fresh o' member' with first | second <;> omega
  · rw [handed, strategy]
    dsimp only
    rw [next]
    intro o member
    rcases List.mem_append.1 member with older | newer
    · exact (inv.below o older).trans (by omega)
    · rcases fresh o newer with first | second <;> omega
  · rw [strategy]
    dsimp only
    rw [next]

theorem idsFresh_run (records : List (List UInt8)) :
    ∀ hp : HotPath, hp.strategy.nextOrderId + 2 * records.length < 2 ^ 64 → IdsFresh hp →
      IdsFresh (hp.run records) := by
  induction records with
  | nil => exact fun _ _ inv => inv
  | cons r rest ih =>
      intro hp room inv
      rw [List.length_cons] at room
      obtain ⟨inv', next⟩ := idsFresh_processMessage hp (by omega) inv r r.length
      exact ih (hp.processMessage r r.length) (by omega) inv'

/-- Over every sequence of fewer than `2^63` records and every clock, the
orders `main`'s hot path hands to `send_order` carry pairwise distinct ids. -/
theorem order_ids_unique (readings : Nat → Nat) (records : List (List UInt8)) (fewer : records.length < 2 ^ 63) :
    (((mainHotPath readings).run records).handed.map Order.orderId).Nodup :=
  (idsFresh_run records (mainHotPath readings) (show 1 + 2 * records.length < 2 ^ 64 by omega)
    ⟨List.nodup_nil, fun _ member => absurd member (List.not_mem_nil _)⟩).nodup

theorem burst_order_ids_unique :
    quoteBurst.length < 2 ^ 63 ∧ (((mainHotPath steadyTsc).run quoteBurst).handed.map Order.orderId).Nodup :=
  ⟨by decide, order_ids_unique _ _ (by decide)⟩

end Hft.QuoteStream
