import HftSystem.Common.Bytes
import Mathlib.Data.Fintype.Basic
import Mathlib.Algebra.Order.Ring.Rat
import Mathlib.Tactic.NormNum.Pow

/-!
# Order book

`OrderBook` of `order_book.h` / `order_book.cpp` on one thread: a symbol and
two ladders of `MAX_DEPTH` price levels, each with a depth and a version
counter.  `update_bid` / `update_ask` are the one parametrised `update`;
`get_snapshot` copies both ladders.  The main result reads a book after any
sequence of level updates back in closed form: every level holds the last
update that reached it, the depth is one past the highest level written and
the sequence counts the updates of its side, modulo `2 ^ 64`.
-/

set_option autoImplicit false

namespace Hft.MarketData

open Hft.Bytes

/-- `OrderBook::MAX_DEPTH`. -/
def maxDepth : Nat := 10

instance : NeZero maxDepth := ⟨Nat.succ_ne_zero 9⟩

/-- `PriceLevel`; the uninitialised `_padding` word is never read. -/
structure PriceLevel where
  price : ℚ
  quantity : ℚ
  orderCount : Nat
  deriving DecidableEq

/-- `PriceLevel::reset`. -/
def PriceLevel.reset : PriceLevel := ⟨0, 0, 0⟩

/-- `OrderBook::Side`. -/
inductive Side where
  | bid
  | ask
  deriving DecidableEq

/-- `OrderBook::Book`: `depth` is a `uint32_t`, `sequence` a `uint64_t`. -/
structure Book where
  levels : Fin maxDepth → PriceLevel
  depth : Nat
  sequence : Nat
  deriving DecidableEq

/-- A book side as the constructor leaves it: levels reset, depth and sequence 0. -/
def Book.init : Book := ⟨fun _ => PriceLevel.reset, 0, 0⟩

def Book.setLevel (book : Book) (i : Fin maxDepth) (level : PriceLevel) : Book :=
  { book with levels := Function.update book.levels i level }

/-- `OrderBook::update_level`: price, then quantity, then the depth, then the
release increment of the sequence.  `order_count` is not written. -/
def Book.updateLevel (book : Book) (level : Fin maxDepth) (price quantity : ℚ) : Book where
  levels := Function.update book.levels level
    { book.levels level with price := price, quantity := quantity }
  depth := if book.depth ≤ level.val then (level.val + 1) % 2 ^ 32 else book.depth
  sequence := (book.sequence + 1) % 2 ^ 64

structure OrderBook where
  symbol : List UInt8
  bids : Book
  asks : Book
  deriving DecidableEq

/-- `OrderBook::OrderBook(symbol)`. -/
def OrderBook.init (symbol : List UInt8) : OrderBook := ⟨symbol, Book.init, Book.init⟩

def OrderBook.book (b : OrderBook) : Side → Book
  | .bid => b.bids
  | .ask => b.asks

def OrderBook.setBook (b : OrderBook) : Side → Book → OrderBook
  | .bid, book => { b with bids := book }
  | .ask, book => { b with asks := book }

@[simp] theorem OrderBook.book_setBook_same (b : OrderBook) (σ : Side) (book : Book) :
    (b.setBook σ book).book σ = book := by
  cases σ <;> rfl

@[simp] theorem OrderBook.book_setBook_other (b : OrderBook) {σ τ : Side} (book : Book)
    (other : σ ≠ τ) : (b.setBook σ book).book τ = b.book τ := by
  cases σ <;> cases τ <;> first | rfl | exact absurd rfl other

@[simp] theorem OrderBook.symbol_setBook (b : OrderBook) (σ : Side) (book : Book) :
    (b.setBook σ book).symbol = b.symbol := by
  cases σ <;> rfl

@[simp] theorem OrderBook.book_init (symbol : List UInt8) (σ : Side) :
    (OrderBook.init symbol).book σ = Book.init := by
  cases σ <;> rfl

/-- `update_bid` and `update_ask`: a level at or past `MAX_DEPTH` is ignored. -/
def OrderBook.update (σ : Side) (b : OrderBook) (level : Nat) (price quantity : ℚ) :
    OrderBook :=
  if h : maxDepth ≤ level then b
  else b.setBook σ ((b.book σ).updateLevel ⟨level, Nat.not_le.mp h⟩ price quantity)

@[simp] theorem OrderBook.symbol_update (σ : Side) (b : OrderBook) (level : Nat) (price quantity : ℚ) :
    (OrderBook.update σ b level price quantity).symbol = b.symbol := by
  unfold OrderBook.update
  split <;> simp

/-- `OrderBook::update_bid`. -/
def OrderBook.updateBid (b : OrderBook) (level : Nat) (price quantity : ℚ) : OrderBook :=
  OrderBook.update .bid b level price quantity

/-- `OrderBook::update_ask`. -/
def OrderBook.updateAsk (b : OrderBook) (level : Nat) (price quantity : ℚ) : OrderBook :=
  OrderBook.update .ask b level price quantity

/-! ## Snapshots and top-of-book reads -/

/-- `OrderBook::Snapshot`. -/
structure Snapshot where
  bids : Fin maxDepth → PriceLevel
  asks : Fin maxDepth → PriceLevel
  bidDepth : Nat
  askDepth : Nat
  bidSequence : Nat
  askSequence : Nat
  timestamp : Nat
  deriving DecidableEq

/-- `OrderBook::get_snapshot` on a quiescent book; `now` is `Timestamp::now()`. -/
def OrderBook.getSnapshot (b : OrderBook) (now : Nat) : Snapshot where
  bids := b.bids.levels
  asks := b.asks.levels
  bidDepth := b.bids.depth
  askDepth := b.asks.depth
  bidSequence := b.bids.sequence
  askSequence := b.asks.sequence
  timestamp := now

def Snapshot.book (s : Snapshot) : Side → Book
  | .bid => ⟨s.bids, s.bidDepth, s.bidSequence⟩
  | .ask => ⟨s.asks, s.askDepth, s.askSequence⟩

def Snapshot.setBook (s : Snapshot) : Side → Book → Snapshot
  | .bid, book => { s with bids := book.levels, bidDepth := book.depth, bidSequence := book.sequence }
  | .ask, book => { s with asks := book.levels, askDepth := book.depth, askSequence := book.sequence }

@[simp] theorem Snapshot.book_setBook_same (s : Snapshot) (σ : Side) (book : Book) :
    (s.setBook σ book).book σ = book := by
  cases σ <;> rfl

@[simp] theorem Snapshot.book_setBook_other (s : Snapshot) {σ τ : Side} (book : Book)
    (other : σ ≠ τ) : (s.setBook σ book).book τ = s.book τ := by
  cases σ <;> cases τ <;> first | rfl | exact absurd rfl other

def Snapshot.bestBid (s : Snapshot) : ℚ :=
  if s.bidDepth > 0 then (s.bids 0).price else 0

def Snapshot.bestAsk (s : Snapshot) : ℚ :=
  if s.askDepth > 0 then (s.asks 0).price else dblMax

def Snapshot.midPrice (s : Snapshot) : ℚ :=
  (s.bestBid + s.bestAsk) / 2

def Snapshot.spread (s : Snapshot) : ℚ :=
  s.bestAsk - s.bestBid

def Snapshot.spreadBps (s : Snapshot) : ℚ :=
  let mid := s.midPrice
  if mid > 0 then s.spread / mid * 10000 else 0

/-- `OrderBook::best_bid`: the top bid price, whatever the depth. -/
def OrderBook.bestBid (b : OrderBook) : ℚ := (b.bids.levels 0).price

/-- `OrderBook::best_ask`: the top ask price, whatever the depth. -/
def OrderBook.bestAsk (b : OrderBook) : ℚ := (b.asks.levels 0).price

def OrderBook.midPrice (b : OrderBook) : ℚ := (b.bestBid + b.bestAsk) / 2

theorem getSnapshot_book (b : OrderBook) (now : Nat) (σ : Side) :
    (b.getSnapshot now).book σ = b.book σ := by
  cases σ <;> rfl

/-! ## Any sequence of updates -/

/-- One `update_bid` (`side = bid`) or `update_ask` call. -/
structure LevelUpdate where
  side : Side
  level : Nat
  price : ℚ
  quantity : ℚ

def OrderBook.apply (b : OrderBook) (u : LevelUpdate) : OrderBook :=
  match u.side with
  | .bid => b.updateBid u.level u.price u.quantity
  | .ask => b.updateAsk u.level u.price u.quantity

def OrderBook.applyAll (b : OrderBook) (us : List LevelUpdate) : OrderBook :=
  us.foldl OrderBook.apply b

/-- The update reaches side `σ`'s ladder. -/
def LevelUpdate.lands (σ : Side) (u : LevelUpdate) : Bool :=
  u.side == σ && u.level < maxDepth

def LevelUpdate.writes (σ : Side) (i : Fin maxDepth) (u : LevelUpdate) : Bool :=
  u.side == σ && u.level == i.val

/-- What a ladder should hold after `us`: each level the last update written to
it (order count 0) or the reset level, the depth one past the highest level
written, the sequence the number of landing updates modulo `2 ^ 64`. -/
def expectedBook (σ : Side) (us : List LevelUpdate) : Book where
  levels i := match (us.filter (LevelUpdate.writes σ i)).getLast? with
    | some u => ⟨u.price, u.quantity, 0⟩
    | none => PriceLevel.reset
  depth := ((us.filter (LevelUpdate.lands σ)).map (·.level + 1)).foldl max 0
  sequence := us.countP (LevelUpdate.lands σ) % 2 ^ 64

theorem OrderBook.apply_eq_update (b : OrderBook) (u : LevelUpdate) :
    b.apply u = OrderBook.update u.side b u.level u.price u.quantity := by
  cases u with
  | mk side level price quantity => cases side <;> rfl

theorem update_of_maxDepth_le (σ : Side) (b : OrderBook) {level : Nat} (price quantity : ℚ)
    (outside : maxDepth ≤ level) : OrderBook.update σ b level price quantity = b := by
  simp [OrderBook.update, outside]

theorem book_update_other {σ τ : Side} (b : OrderBook) (level : Nat) (price quantity : ℚ)
    (other : σ ≠ τ) : (OrderBook.update σ b level price quantity).book τ = b.book τ := by
  unfold OrderBook.update
  split
  · rfl
  · exact OrderBook.book_setBook_other b _ other

theorem book_update_same (σ : Side) (b : OrderBook) {level : Nat} (price quantity : ℚ)
    (inside : level < maxDepth) :
    (OrderBook.update σ b level price quantity).book σ =
      (b.book σ).updateLevel ⟨level, inside⟩ price quantity := by
  simp [OrderBook.update, Nat.not_le.mpr inside]

theorem expectedBook_snoc_of_not_lands {σ : Side} (us : List LevelUpdate) (u : LevelUpdate)
    (missed : u.lands σ = false) : expectedBook σ (us ++ [u]) = expectedBook σ us := by
  have unwritten : ∀ i, u.writes σ i = false := by
    intro i
    simp only [LevelUpdate.lands, LevelUpdate.writes, Bool.and_eq_false_iff, beq_eq_false_iff_ne,
      decide_eq_false_iff_not, Nat.not_lt] at missed ⊢
    rcases missed with other | outside
    · exact .inl other
    · exact .inr (by have := i.isLt; omega)
  simp [expectedBook, List.filter_append, List.countP_append, missed, unwritten]

theorem expectedBook_orderCount (σ : Side) (us : List LevelUpdate) (i : Fin maxDepth) :
    ((expectedBook σ us).levels i).orderCount = 0 := by
  simp only [expectedBook]
  split <;> rfl

theorem expectedBook_snoc_of_lands {σ : Side} (us : List LevelUpdate) (u : LevelUpdate)
    (side : u.side = σ) (inside : u.level < maxDepth) :
    expectedBook σ (us ++ [u]) =
      (expectedBook σ us).updateLevel ⟨u.level, inside⟩ u.price u.quantity := by
  have landed : u.lands σ = true := by simp [LevelUpdate.lands, side, inside]
  have small : u.level < 10 := inside
  have count := expectedBook_orderCount σ us ⟨u.level, inside⟩
  simp only [expectedBook, Book.updateLevel, Book.mk.injEq] at count ⊢
  refine ⟨?_, ?_, ?_⟩
  · funext i
    by_cases at_level : i = ⟨u.level, inside⟩
    · subst at_level
      have last : ((us ++ [u]).filter (LevelUpdate.writes σ ⟨u.level, inside⟩)).getLast? =
          some u := by
        simp [List.filter_append, LevelUpdate.writes, side]
      simp only [last, Function.update_same]
      rw [count]
    · have unwritten : u.writes σ i = false := by
        simp only [LevelUpdate.writes, Bool.and_eq_false_iff, beq_eq_false_iff_ne]
        exact .inr fun e => at_level (Fin.ext e.symm)
      simp [List.filter_append, unwritten, Function.update_noteq at_level]
  · simp [List.filter_append, landed]
    split <;> omega
  · simp [List.countP_append, landed]

theorem book_apply_expected (σ : Side) (us : List LevelUpdate) (b : OrderBook) (u : LevelUpdate)
    (before : b.book σ = expectedBook σ us) :
    (b.apply u).book σ = expectedBook σ (us ++ [u]) := by
  rw [OrderBook.apply_eq_update]
  by_cases side : u.side = σ
  · by_cases inside : u.level < maxDepth
    · rw [expectedBook_snoc_of_lands us u side inside, ← before, ← side,
        book_update_same _ _ _ _ inside]
    · rw [update_of_maxDepth_le _ _ _ _ (Nat.not_lt.mp inside), before,
        expectedBook_snoc_of_not_lands us u (by simp [LevelUpdate.lands, inside])]
  · rw [book_update_other _ _ _ _ side, before,
      expectedBook_snoc_of_not_lands us u (by simp [LevelUpdate.lands, side])]

theorem book_applyAll_expected (symbol : List UInt8) (σ : Side) (us : List LevelUpdate) :
    ((OrderBook.init symbol).applyAll us).book σ = expectedBook σ us := by
  induction us using List.reverseRecOn with
  | nil =>
      show (OrderBook.init symbol).book σ = _
      rw [OrderBook.book_init]
      rfl
  | append_singleton us u ih =>
      rw [OrderBook.applyAll, List.foldl_append, List.foldl_cons, List.foldl_nil]
      exact book_apply_expected σ us _ u ih

theorem expectedBook_depth_le (σ : Side) (us : List LevelUpdate) :
    (expectedBook σ us).depth ≤ maxDepth := by
  have bounded : ∀ (m : Nat) (xs : List LevelUpdate), m ≤ maxDepth →
      (∀ u ∈ xs, u.lands σ = true) → (xs.map (·.level + 1)).foldl max m ≤ maxDepth := by
    intro m xs
    induction xs generalizing m with
    | nil => intro start _; exact start
    | cons x rest ih =>
        intro start landing
        have inside : x.level < maxDepth := by
          have := landing x (List.mem_cons_self x rest)
          simp only [LevelUpdate.lands, Bool.and_eq_true, decide_eq_true_eq] at this
          exact this.2
        exact ih _ (max_le start inside) fun u member =>
          landing u (List.mem_cons_of_mem x member)
  exact bounded 0 _ (Nat.zero_le _) fun u member => (List.mem_filter.mp member).2

/-- Every ladder of a book built by any update sequence, and the snapshot taken
in it, is the closed form: levels, depth and sequence; the depth stays within
`MAX_DEPTH`; and an update at or past `MAX_DEPTH` changes nothing. -/
theorem orderBook_updates_closed_form (symbol : List UInt8) (us : List LevelUpdate)
    (now : Nat) (σ : Side) :
    ((OrderBook.init symbol).applyAll us).book σ = expectedBook σ us ∧
      (((OrderBook.init symbol).applyAll us).getSnapshot now).book σ = expectedBook σ us ∧
      (expectedBook σ us).depth ≤ maxDepth ∧
      ∀ (b : OrderBook) (u : LevelUpdate), maxDepth ≤ u.level → b.apply u = b := by
  refine ⟨book_applyAll_expected symbol σ us, ?_, expectedBook_depth_le σ us, ?_⟩
  · rw [getSnapshot_book, book_applyAll_expected]
  · intro b u outside
    rw [OrderBook.apply_eq_update, update_of_maxDepth_le _ _ _ _ outside]

/-! ## The fast top-of-book reads against the snapshot -/

theorem foldl_max_pos (xs : List LevelUpdate) (m : Nat) :
    0 < (xs.map (·.level + 1)).foldl max m ↔ 0 < m ∨ xs ≠ [] := by
  induction xs generalizing m with
  | nil => simp
  | cons x rest ih => simp [ih]

theorem expectedBook_depth_pos (σ : Side) (us : List LevelUpdate) :
    0 < (expectedBook σ us).depth ↔ us.any (LevelUpdate.lands σ) = true := by
  simp only [expectedBook, foldl_max_pos, Nat.lt_irrefl, false_or, ne_eq, List.filter_eq_nil_iff,
    List.any_eq_true, Bool.not_eq_true, not_forall, Bool.not_eq_false, exists_prop]

theorem expectedBook_top_of_not_lands (σ : Side) (us : List LevelUpdate)
    (none_landed : us.any (LevelUpdate.lands σ) = false) : (expectedBook σ us).levels 0 = PriceLevel.reset := by
  have unwritten : us.filter (LevelUpdate.writes σ 0) = [] := by
    refine List.filter_eq_nil_iff.2 fun u mem written => ?_
    have missed := List.any_eq_false.1 none_landed u mem
    simp only [LevelUpdate.writes, LevelUpdate.lands, Bool.and_eq_true, beq_iff_eq] at written missed
    simp [written.1, show u.level < maxDepth by rw [written.2]; decide] at missed
  simp only [expectedBook, unwritten, List.getLast?_nil]

theorem dblMax_ne_zero : dblMax ≠ 0 := by
  norm_num [dblMax]

/-- After any sequence of updates on a fresh book, the fast `best_bid()` reads
what the snapshot reads; the fast `best_ask()` and `mid_price()` agree with the
snapshot's exactly when some ask update has landed.  Before that the fast read
returns the reset price `0` where the snapshot returns `DBL_MAX`. -/
theorem fast_reads_agree_iff_ask_landed (symbol : List UInt8) (us : List LevelUpdate) (now : Nat) :
    ((OrderBook.init symbol).applyAll us).bestBid =
        (((OrderBook.init symbol).applyAll us).getSnapshot now).bestBid ∧
      (((OrderBook.init symbol).applyAll us).bestAsk =
          (((OrderBook.init symbol).applyAll us).getSnapshot now).bestAsk ↔
        us.any (LevelUpdate.lands .ask) = true) ∧
      (((OrderBook.init symbol).applyAll us).midPrice =
          (((OrderBook.init symbol).applyAll us).getSnapshot now).midPrice ↔
        us.any (LevelUpdate.lands .ask) = true) := by
  have bids : ((OrderBook.init symbol).applyAll us).bids = expectedBook .bid us :=
    book_applyAll_expected symbol .bid us
  have asks : ((OrderBook.init symbol).applyAll us).asks = expectedBook .ask us :=
    book_applyAll_expected symbol .ask us
  have bid : ((OrderBook.init symbol).applyAll us).bestBid =
      (((OrderBook.init symbol).applyAll us).getSnapshot now).bestBid := by
    simp only [OrderBook.bestBid, Snapshot.bestBid, OrderBook.getSnapshot, bids]
    by_cases landed : us.any (LevelUpdate.lands .bid) = true
    · rw [if_pos ((expectedBook_depth_pos _ _).2 landed)]
    · have missed := Bool.eq_false_iff.2 landed
      rw [if_neg (fun pos => landed ((expectedBook_depth_pos _ _).1 pos)),
        expectedBook_top_of_not_lands _ _ missed]
      rfl
  have ask : ((OrderBook.init symbol).applyAll us).bestAsk =
      (((OrderBook.init symbol).applyAll us).getSnapshot now).bestAsk ↔
        us.any (LevelUpdate.lands .ask) = true := by
    simp only [OrderBook.bestAsk, Snapshot.bestAsk, OrderBook.getSnapshot, asks]
    by_cases landed : us.any (LevelUpdate.lands .ask) = true
    · simp only [landed, if_pos ((expectedBook_depth_pos _ _).2 landed)]
    · have missed := Bool.eq_false_iff.2 landed
      rw [if_neg (fun pos => landed ((expectedBook_depth_pos _ _).1 pos)),
        expectedBook_top_of_not_lands _ _ missed]
      exact iff_of_false (fun same => dblMax_ne_zero same.symm) landed
  refine ⟨bid, ask, ?_⟩
  rw [OrderBook.midPrice, Snapshot.midPrice, bid, div_left_inj' (two_ne_zero : (2 : ℚ) ≠ 0), add_right_inj]
  exact ask

/-- A fresh `AAPL` book after one `update_bid(0, 100, 500)`. -/
def bidOnly : List LevelUpdate := [⟨.bid, 0, 100, 500⟩]

/-- There the fast `best_ask()` returns `0` while the snapshot returns
`DBL_MAX`. -/
theorem bid_only_fast_ask_zero :
    ((OrderBook.init [65, 65, 80, 76]).applyAll bidOnly).bestAsk = 0 ∧
      (((OrderBook.init [65, 65, 80, 76]).applyAll bidOnly).getSnapshot 0).bestAsk = dblMax ∧
      ((OrderBook.init [65, 65, 80, 76]).applyAll bidOnly).bestAsk ≠
        (((OrderBook.init [65, 65, 80, 76]).applyAll bidOnly).getSnapshot 0).bestAsk := by
  refine ⟨rfl, rfl, ?_⟩
  rw [Ne, (fast_reads_agree_iff_ask_landed _ _ _).2.1]
  decide

end Hft.MarketData
