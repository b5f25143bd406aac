import HftSystem.Trading.Strategy
import HftSystem.Trading.OrderManager
import HftSystem.MarketData.Handler
import HftSystem.Common.Config

/-!
# The hot path as `main` wires it

`main` registers `AAPL`, `MSFT` and `GOOGL`, builds one `TCPSender`, an
`OrderManager` over it with its `RiskLimits`, and a `MarketMakingStrategy` over
the same sender, and registers `strategy->on_order_book_update` as the
handler's callback.  A record therefore goes `process_message` → callback →
`on_order_book_update` → `update_quotes` → `TCPSender::send_order`: the
strategy holds the sender itself, and nothing on the path calls
`OrderManager::submit_order`.

`main` fills the risk limits and the strategy parameters from the settings of
its `Config`, which `load` never writes, so whatever file it is given they are
the defaults (`config_file_ignored`).

`HotPath` carries the handler, the strategy, the TSC and the orders handed to
`send_order`.  Along every run the strategy's position stays `0`, so each
requote hands a buy and a sell of `quote_size` and the net quantity handed out
stays `0` (`run_netQuantity`); the only spacing between requotes is the
strategy's own 100 µs, far below a rate of 100 orders a second.
-/

set_option autoImplicit false

namespace Hft.Pipeline

open Hft.Bytes Hft.MarketData Hft.Network Hft.Strategy Hft.Risk

def mainConfig (argument : Option (Option (List Char))) : Hft.ConfigFile.Config :=
  match argument with
  | none => {}
  | some file => (({} : Hft.ConfigFile.Config).load file).2

def limitsOf (config : Hft.ConfigFile.Config) : RiskLimits :=
  { maxOrderSize := config.maxOrderSize, maxPosition := config.maxPositionSize }

/-- The `strategy_params` `main` fills from its `Config`. -/
def parametersOf (config : Hft.ConfigFile.Config) : Parameters :=
  { spreadTarget := config.spreadThreshold, maxPosition := config.maxPositionSize }

/-- `strategy_params` as `main` sets them from the default `Config`:
`spread_target = spread_threshold`, `max_position = max_position_size`. -/
def mainParameters : Parameters := { spreadTarget := Binary64.round (1 / 10000), maxPosition := 1000 }

def mainLimits : RiskLimits := { maxOrderSize := 100, maxPosition := 1000 }

/-- The receive side of `main`: the handler, the strategy its callback drives,
the TSC, and the orders handed to `TCPSender::send_order` so far. -/
structure HotPath where
  handler : MarketDataHandler
  strategy : MarketMakingStrategy
  clock : Clock
  handed : List Order

/-- `process_message(data, len)` with the callback `main` registers. -/
def HotPath.processMessage (hp : HotPath) (data : List UInt8) (len : Nat) : HotPath :=
  let out := hp.handler.processMessage data len
  match out.1 with
  | none => { hp with handler := out.2 }
  | some book =>
      let quoted := hp.strategy.onOrderBookUpdate book hp.clock
      ⟨out.2, quoted.1, quoted.2.1, hp.handed ++ quoted.2.2⟩

/-- Records one after another, each passed with its own length. -/
def HotPath.run (hp : HotPath) (records : List (List UInt8)) : HotPath :=
  records.foldl (fun hp r => hp.processMessage r r.length) hp

/-- The state `main` leaves before the first record, over the TSC readings
`readings`. -/
def mainHotPath (readings : Nat → Nat) : HotPath :=
  ⟨mainHandler, .init mainParameters, ⟨readings, 0⟩, []⟩

theorem config_file_ignored (argument : Option (Option (List Char))) :
    limitsOf (mainConfig argument) = mainLimits ∧ parametersOf (mainConfig argument) = mainParameters := by
  cases argument with
  | none => exact ⟨rfl, rfl⟩
  | some file =>
      obtain ⟨position, size, spread⟩ := Hft.ConfigFile.load_settings {} file
      simp only [mainConfig, limitsOf, parametersOf, position, size, spread]
      exact ⟨rfl, rfl⟩

/-! ## Every run -/

theorem HotPath.processMessage_quiet (hp : HotPath) {data : List UInt8} {len : Nat} {h : MarketDataHandler}
    (quiet : hp.handler.processMessage data len = (none, h)) :
    hp.processMessage data len = { hp with handler := h } := by
  simp only [HotPath.processMessage, quiet]

theorem HotPath.processMessage_fired (hp : HotPath) {data : List UInt8} {len : Nat} {book : OrderBook}
    {h : MarketDataHandler} (fired : hp.handler.processMessage data len = (some book, h)) :
    hp.processMessage data len =
      ⟨h, (hp.strategy.onOrderBookUpdate book hp.clock).1, (hp.strategy.onOrderBookUpdate book hp.clock).2.1,
        hp.handed ++ (hp.strategy.onOrderBookUpdate book hp.clock).2.2⟩ := by
  simp only [HotPath.processMessage, fired]

def steadyTsc (i : Nat) : Nat := 300000 * (i + 1)

/-- The first 18 bytes of an `AAPL` record at level 0: symbol, side byte, level. -/
def aaplHeader (side : UInt8) : List UInt8 := [65, 65, 80, 76] ++ List.replicate 12 0 ++ [side, 0]

def priceOne : List UInt8 := [0, 0, 0, 0, 0, 0, 240, 63]

/-- A 42-byte `AAPL` record at level 0, price 1.0, quantity and timestamp 0. -/
def aaplQuote (side : UInt8) : List UInt8 := aaplHeader side ++ priceOne ++ List.replicate 16 0

def quoteBurst : List (List UInt8) := aaplQuote 1 :: List.replicate 51 (aaplQuote 0)

theorem leWord_append_right (r more : List UInt8) (o width : Nat) :
    leWord (r ++ more) (r.length + o) width = leWord more o width := by
  unfold leWord
  congr 1
  refine List.map_congr_left fun i _ => ?_
  rw [Nat.add_assoc, List.getD_append_right _ _ _ _ (Nat.le_add_right _ _), Nat.add_sub_cancel_left]

theorem f64Value_one : f64Value 4607182418800017408 = 1 := by
  simp only [f64Value]
  norm_num

theorem f64Value_zero : f64Value 0 = 0 := by
  simp only [f64Value]
  norm_num

theorem read_aaplQuote (side : UInt8) : MarketDataMessage.read (aaplQuote side) = ⟨side, 0, 1, 0⟩ := by
  have price : leWord (aaplQuote side) 18 8 = 4607182418800017408 := by
    rw [aaplQuote, List.append_assoc, show 18 = (aaplHeader side).length + 0 from rfl, leWord_append_right,
      leWord_append _ _ (le_refl _)]
    decide
  have quantity : leWord (aaplQuote side) 26 8 = 0 := by
    rw [aaplQuote, List.append_assoc, show 26 = (aaplHeader side).length + (priceOne.length + 0) from rfl,
      leWord_append_right, leWord_append_right]
    decide
  simp only [MarketDataMessage.read, price, quantity, f64Value_one, f64Value_zero]
  rfl

def TopAtOne (book : Book) : Prop := (book.levels 0).price = 1 ∧ 0 < book.depth

theorem topAtOne_update (σ : Side) (b : OrderBook) : TopAtOne ((OrderBook.update σ b 0 1 0).book σ) := by
  rw [book_update_same σ b 1 0 (by decide)]
  refine ⟨by simp [Book.updateLevel], ?_⟩
  simp only [Book.updateLevel]
  split <;> omega

theorem applyTo_bid (b : OrderBook) :
    (MarketDataMessage.read (aaplQuote 0)).applyTo b = OrderBook.update .bid b 0 1 0 := by
  rw [read_aaplQuote]
  rfl

theorem applyTo_ask (b : OrderBook) :
    (MarketDataMessage.read (aaplQuote 1)).applyTo b = OrderBook.update .ask b 0 1 0 := by
  rw [read_aaplQuote]
  rfl

theorem getSnapshot_both (b : OrderBook) (bid : TopAtOne b.bids) (ask : TopAtOne b.asks) (now : Nat) :
    (b.getSnapshot now).midPrice = 1 ∧ (b.getSnapshot now).spreadBps = 0 := by
  obtain ⟨bidPrice, bidDepth⟩ := bid
  obtain ⟨askPrice, askDepth⟩ := ask
  have mid : (b.getSnapshot now).midPrice = 1 := by
    simp only [Snapshot.midPrice, Snapshot.bestBid, Snapshot.bestAsk, OrderBook.getSnapshot, bidDepth, askDepth,
      if_true, bidPrice, askPrice]
    norm_num
  refine ⟨mid, ?_⟩
  simp only [Snapshot.spreadBps, mid, Snapshot.spread, Snapshot.bestBid, Snapshot.bestAsk, OrderBook.getSnapshot,
    bidDepth, askDepth, if_true, bidPrice, askPrice]
  norm_num

theorem getSnapshot_ask_only (b : OrderBook) (noBid : b.bids.depth = 0) (ask : TopAtOne b.asks) (now : Nat) :
    10 < (b.getSnapshot now).spreadBps := by
  obtain ⟨askPrice, askDepth⟩ := ask
  simp only [Snapshot.spreadBps, Snapshot.midPrice, Snapshot.spread, Snapshot.bestBid, Snapshot.bestAsk,
    OrderBook.getSnapshot, noBid, askDepth, lt_irrefl, if_true, if_false, askPrice]
  norm_num

structure Burst (j : Nat) (hp : HotPath) : Prop where
  registered : Registered hp.handler mainRegistry
  callback : hp.handler.callback = true
  ask : ∃ book, hp.handler.orderBookPool.storage 255 = some book ∧ TopAtOne book.asks
  strategy : hp.strategy =
    { MarketMakingStrategy.init mainParameters with lastQuoteTime := 2100000 * j, nextOrderId := 1 + 2 * j }
  clock : hp.clock = ⟨steadyTsc, 1 + 7 * j⟩
  count : hp.handed.length = 2 * j
  stamps : ∀ o ∈ hp.handed, o.timestamp ≤ 2100000 * j

theorem aapl_registered (side : UInt8) : (cStr (aaplQuote side), 255) ∈ mainRegistry := by
  have symbol : cStr (aaplQuote side) = [65, 65, 80, 76] := by
    simp [aaplQuote, aaplHeader, cStr]
  rw [symbol]
  decide

theorem mainHandler_no_bid :
    (mainHandler.orderBookPool.storage 255).map (fun b : OrderBook => b.bids.depth) = some 0 := by
  decide

theorem burst_ask : Burst 0 ((mainHotPath steadyTsc).processMessage (aaplQuote 1) (aaplQuote 1).length) := by
  obtain ⟨book, stored, named, processed⟩ :=
    processMessage_registered registered_main (aaplQuote 1) (aapl_registered 1) (le_refl messageSize)
  have noBid : book.bids.depth = 0 := by
    have := mainHandler_no_bid
    rw [stored] at this
    exact Option.some.inj this
  rw [show mainHandler.callback = true from rfl, if_pos rfl, applyTo_ask] at processed
  have asked : TopAtOne (OrderBook.update .ask book 0 1 0).asks := topAtOne_update .ask book
  have bids : (OrderBook.update .ask book 0 1 0).bids = book.bids :=
    book_update_other book 0 1 0 (show Side.ask ≠ .bid by decide)
  rw [HotPath.processMessage_fired _ processed, show (mainHotPath steadyTsc).clock = ⟨steadyTsc, 0⟩ from rfl,
    onOrderBookUpdate_wide _ _ _ (getSnapshot_ask_only _ ((congrArg Book.depth bids).trans noBid) asked _)]
  exact ⟨registered_write registered_main (aapl_registered 1) (by rw [OrderBook.symbol_update, named]), rfl,
    ⟨_, rfl, asked⟩, rfl, rfl, rfl, fun _ mem => absurd mem (List.not_mem_nil _)⟩

theorem burst_bid {j : Nat} (small : j < 51) {hp : HotPath} (inv : Burst j hp) :
    Burst (j + 1) (hp.processMessage (aaplQuote 0) (aaplQuote 0).length) := by
  obtain ⟨registered, callback, ⟨old, stored, asked⟩, strategy, clock, count, stamps⟩ := inv
  obtain ⟨book, stored', named, processed⟩ :=
    processMessage_registered registered (aaplQuote 0) (aapl_registered 0) (le_refl messageSize)
  obtain rfl : old = book := Option.some.inj (stored.symm.trans stored')
  rw [if_pos callback, applyTo_bid] at processed
  have bid : TopAtOne (OrderBook.update .bid old 0 1 0).bids := topAtOne_update .bid old
  have asks : (OrderBook.update .bid old 0 1 0).asks = old.asks :=
    book_update_other old 0 1 0 (show Side.bid ≠ .ask by decide)
  have ask : TopAtOne (OrderBook.update .bid old 0 1 0).asks := asks ▸ asked
  obtain ⟨mid, flatSpread⟩ := getSnapshot_both _ bid ask (hp.clock.readings hp.clock.taken % 2 ^ 64)
  have spaced : minQuoteIntervalNs ≤ toNanoseconds
      ((hp.clock.readings (hp.clock.taken + 1) % 2 ^ 64 + 2 ^ 64 - hp.strategy.lastQuoteTime) % 2 ^ 64) := by
    rw [clock, strategy]
    simp only [steadyTsc, toNanoseconds, minQuoteIntervalNs]
    omega
  obtain ⟨orders, state, after⟩ := onOrderBookUpdate_quotes hp.strategy (OrderBook.update .bid old 0 1 0) hp.clock
    (by rw [strategy]; rfl) (by rw [strategy]; norm_num [MarketMakingStrategy.init, mainParameters])
    (by rw [flatSpread]; norm_num) (by rw [mid]; norm_num) spaced
  rw [show (aaplQuote 0).length = messageSize from rfl, HotPath.processMessage_fired _ processed]
  have renamed : (OrderBook.update .bid old 0 1 0).symbol = cStr (aaplQuote 0) := by
    rw [OrderBook.symbol_update, named]
  refine ⟨registered_write registered (aapl_registered 0) renamed, callback, ⟨_, rfl, ask⟩, ?_, ?_, ?_, ?_⟩
  · rw [state, strategy, clock]
    simp only [MarketMakingStrategy.mk.injEq, steadyTsc, true_and]
    omega
  · rw [after, clock]
    simp only [Clock.mk.injEq, true_and]
    omega
  · rw [List.length_append, count, ← List.length_map _ (fun o : Order => (o.side, o.quantity, o.timestamp)), orders]
    rfl
  · intro o mem
    rcases List.mem_append.1 mem with earlier | new
    · exact (stamps o earlier).trans (by omega)
    · have stamped := orders ▸ List.mem_map_of_mem (fun o : Order => (o.side, o.quantity, o.timestamp)) new
      rw [clock] at stamped
      simp only [List.mem_cons, Prod.mk.injEq, List.not_mem_nil, or_false, steadyTsc] at stamped
      rcases stamped with ⟨-, -, stamp⟩ | ⟨-, -, stamp⟩ <;> omega

theorem burst_run : ∀ j ≤ 51,
    Burst j ((mainHotPath steadyTsc).run (aaplQuote 1 :: List.replicate j (aaplQuote 0)))
  | 0, _ => burst_ask
  | j + 1, le => by
      rw [List.replicate_succ', ← List.cons_append, HotPath.run, List.foldl_append]
      exact burst_bid (by omega) (burst_run j (by omega))

/-- From `main`'s state, one ask and then 51 bids for `AAPL` at 1.0, with the TSC
reading 100 µs later at each call: the strategy hands 102 orders to
`send_order`, all stamped within the first second, where the `OrderManager`
`main` builds admits 100 a second.  The path holds no `OrderManager`: none of
them went through `submit_order`. -/
theorem quote_burst_bypasses_rate_limit :
    ((mainHotPath steadyTsc).run quoteBurst).handed.length = 102 ∧
      (∀ o ∈ ((mainHotPath steadyTsc).run quoteBurst).handed, toNanoseconds o.timestamp < oneSecondNs) ∧
      mainLimits.maxOrdersPerSecond.toNat < ((mainHotPath steadyTsc).run quoteBurst).handed.length := by
  have burst : Burst 51 ((mainHotPath steadyTsc).run quoteBurst) := burst_run 51 le_rfl
  refine ⟨burst.count, fun o mem => ?_, by rw [burst.count]; decide⟩
  have := burst.stamps o mem
  simp only [toNanoseconds, oneSecondNs]
  omega

end Hft.Pipeline
