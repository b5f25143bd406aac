import HftSystem.MarketData.Handler

/-!
# The receive thread

`UDPReceiver::receive_loop` of `udp_receiver.cpp`: one `recv` of at most
`BUFFER_SIZE` bytes into a stack buffer per iteration, and one call of
`process_message(buffer, bytes_received)` per datagram.  `recv` overwrites the
start of the buffer; the bytes past the datagram are whatever the buffer held.

`process_message` decodes the record at offset `0` only, so a datagram of
several back-to-back records has the effect of its first record alone
(`receiveStep_first_record`).
-/

set_option autoImplicit false

namespace Hft.Network

open Hft.Bytes Hft.MarketData

/-- `BUFFER_SIZE`. -/
def bufferSize : Nat := 65536

/-- What one `recv(socket_fd_, buffer, BUFFER_SIZE, 0)` returns. -/
inductive Received where
  /-- A datagram; a longer one than the buffer is truncated to it. -/
  | datagram (bytes : List UInt8)
  /-- `-1` with `errno` `EAGAIN` or `EWOULDBLOCK`. -/
  | retry
  /-- `-1` with any other `errno`: the loop breaks. -/
  | failed

/-- The datagram's first bytes over the start of the buffer, and the count
`recv` returns. -/
def recvInto (buffer bytes : List UInt8) : List UInt8 × Nat :=
  let n := min bytes.length bufferSize
  (bytes.take n ++ buffer.drop n, n)

/-- The receive thread: the handler it drives, its buffer, and the books it
has handed to the callback so far. -/
structure ReceiverState where
  handler : MarketDataHandler
  buffer : List UInt8
  callbacks : List OrderBook

/-- One iteration of the `receive_loop` body; `none` when it breaks. -/
def receiveStep (s : ReceiverState) : Received → Option ReceiverState
  | .datagram bytes =>
      let received := recvInto s.buffer bytes
      if 0 < received.2 then
        let out := s.handler.processMessage received.1 received.2
        some ⟨out.2, received.1, s.callbacks ++ out.1.toList⟩
      else some { s with buffer := received.1 }
  | .retry => some s
  | .failed => none

/-- `receive_loop` while `running_` holds, over what `recv` returns in turn. -/
def receiveLoop (s : ReceiverState) : List Received → ReceiverState
  | [] => s
  | r :: rest =>
      match receiveStep s r with
      | none => s
      | some s' => receiveLoop s' rest

theorem receiveStep_first_record (s : ReceiverState) (r more : List UInt8)
    (record : r.length = messageSize) (short : (cStr r).length < messageSize)
    (fits : (r ++ more).length ≤ bufferSize) :
    ∃ s', receiveStep s (.datagram (r ++ more)) = some s' ∧
      s'.handler = (s.handler.processMessage r messageSize).2 ∧
      s'.callbacks = s.callbacks ++ (s.handler.processMessage r messageSize).1.toList := by
  have whole : min (r ++ more).length bufferSize = (r ++ more).length := Nat.min_eq_left fits
  have long : messageSize ≤ (r ++ more).length := by rw [List.length_append]; omega
  refine ⟨⟨(s.handler.processMessage r messageSize).2, (r ++ more) ++ s.buffer.drop (r ++ more).length,
    s.callbacks ++ (s.handler.processMessage r messageSize).1.toList⟩, ?_, rfl, rfl⟩
  simp only [receiveStep, recvInto, whole, List.take_length, List.append_assoc,
    processMessage_append s.handler r _ record short long, if_pos (show 0 < (r ++ more).length by omega)]

/-- A datagram of `k ≥ 1` back-to-back records, the first for a registered
symbol at a level below `MAX_DEPTH`: the receive path applies the first
record's update to that symbol's book, one `update_bid` (side byte 0) or
`update_ask`, so that side's sequence goes up by one and the other side stays;
the callback, if one is registered, gets the book once; records `2..k`,
whatever they hold, change nothing. -/
theorem datagram_applies_first_record_only {h : MarketDataHandler} {reg : List (List UInt8 × Nat)}
    (inv : Registered h reg) (buffer : List UInt8) (callbacks : List OrderBook)
    (r : List UInt8) (rest : List (List UInt8)) {b : Nat}
    (record : r.length = messageSize) (registered : (cStr r, b) ∈ reg) (level : (r.getD 17 0).toNat < maxDepth)
    (fits : (r :: rest).flatten.length ≤ bufferSize) :
    ∃ book s', h.orderBookPool.storage b = some book ∧
      receiveStep ⟨h, buffer, callbacks⟩ (.datagram (r :: rest).flatten) = some s' ∧
      s'.handler = { h with orderBookPool := h.orderBookPool.write b ((MarketDataMessage.read r).applyTo book) } ∧
      (((MarketDataMessage.read r).applyTo book).book (if r.getD 16 0 = 0 then .bid else .ask)).sequence =
        ((book.book (if r.getD 16 0 = 0 then .bid else .ask)).sequence + 1) % 2 ^ 64 ∧
      (∀ σ, σ ≠ (if r.getD 16 0 = 0 then .bid else .ask) →
        ((MarketDataMessage.read r).applyTo book).book σ = book.book σ) ∧
      s'.callbacks = callbacks ++ (if h.callback then [(MarketDataMessage.read r).applyTo book] else []) := by
  have short : (cStr r).length < messageSize := by
    have := (inv.symbols _ b registered).2
    simp only [Hft.StringMap.maxKeyLen, messageSize] at this ⊢
    omega
  obtain ⟨book, stored, -, processed⟩ := processMessage_registered inv r registered (le_refl messageSize)
  obtain ⟨s', received, handler, fired⟩ :=
    receiveStep_first_record ⟨h, buffer, callbacks⟩ r rest.flatten record short fits
  refine ⟨book, s', stored, received, ?_, ?_, fun σ other => ?_, ?_⟩
  · rw [handler]
    exact congrArg Prod.snd processed
  · rw [applyTo_read, book_update_same _ _ _ _ level]
    rfl
  · rw [applyTo_read]
    exact book_update_other _ _ _ _ other.symm
  · rw [fired, show (⟨h, buffer, callbacks⟩ : ReceiverState).handler = h from rfl, processed]
    cases h.callback <;> rfl

theorem aaplBid_bid_sequence :
    ((mainHandler.processMessage aaplBid messageSize).2.orderBookPool.storage 255).map
      (fun b : OrderBook => b.bids.sequence) = some 1 := by
  decide

/-- Two `AAPL` bids in one datagram into `main`'s handler: the book's bid
sequence goes from 0 to 1, not to 2. -/
theorem two_bids_one_increment :
    ∃ s, receiveStep ⟨mainHandler, [], []⟩ (.datagram [aaplBid, aaplBid].flatten) = some s ∧
      (mainHandler.orderBookPool.storage 255).map (fun b : OrderBook => b.bids.sequence) = some 0 ∧
      (s.handler.orderBookPool.storage 255).map (fun b : OrderBook => b.bids.sequence) = some 1 := by
  obtain ⟨s, received, handler, -⟩ :=
    receiveStep_first_record ⟨mainHandler, [], []⟩ aaplBid aaplBid rfl (by decide) (by decide)
  refine ⟨s, received, by decide, ?_⟩
  rw [handler, show (⟨mainHandler, [], []⟩ : ReceiverState).handler = mainHandler from rfl]
  exact aaplBid_bid_sequence

theorem two_bids_first_applied :
    aaplBid.length = messageSize ∧ (cStr aaplBid, 255) ∈ mainRegistry ∧ (aaplBid.getD 17 0).toNat < maxDepth ∧
      [aaplBid, aaplBid].flatten.length ≤ bufferSize ∧
      ∃ book s', mainHandler.orderBookPool.storage 255 = some book ∧
        receiveStep ⟨mainHandler, [], []⟩ (.datagram [aaplBid, aaplBid].flatten) = some s' ∧
        s'.handler = { mainHandler with
          orderBookPool := mainHandler.orderBookPool.write 255 ((MarketDataMessage.read aaplBid).applyTo book) } ∧
        (((MarketDataMessage.read aaplBid).applyTo book).book (if aaplBid.getD 16 0 = 0 then .bid else .ask)).sequence =
          ((book.book (if aaplBid.getD 16 0 = 0 then .bid else .ask)).sequence + 1) % 2 ^ 64 ∧
        (∀ σ, σ ≠ (if aaplBid.getD 16 0 = 0 then .bid else .ask) →
          ((MarketDataMessage.read aaplBid).applyTo book).book σ = book.book σ) ∧
        s'.callbacks = [] ++ (if mainHandler.callback then [(MarketDataMessage.read aaplBid).applyTo book] else []) :=
  ⟨rfl, by decide, by decide, by decide,
    datagram_applies_first_record_only registered_main [] [] aaplBid [aaplBid] rfl (by decide) (by decide) (by decide)⟩

end Hft.Network
