import HftSystem.Common.Bytes

/-!
# Outbound orders

The packed `Order` record of `tcp_sender.h` and `TCPSender::send_order`.  The
socket is the environment: `send` reports how many bytes it took, and the
connection flag is whatever `connect` left.
-/

set_option autoImplicit false

namespace Hft.Network

/-- `Order::Side`. -/
inductive OrderSide where
  | buy
  | sell
  deriving DecidableEq

/-- `Order::Type`. -/
inductive OrderType where
  | limit
  | market
  | ioc
  deriving DecidableEq

/-- `Order`: `symbol[16]`, `order_id`, `side`, `type`, `price`, `quantity`,
`timestamp`. -/
structure Order where
  symbol : List UInt8
  orderId : Nat
  side : OrderSide
  type : OrderType
  price : ℚ
  quantity : ℚ
  timestamp : Nat

/-- `sizeof(Order)` of the packed record. -/
def orderSize : Nat := 16 + 8 + 1 + 1 + 8 + 8 + 8

/-- `TCPSender`: only the connection flag is read on the send path. -/
structure TCPSender where
  connected : Bool

/-- `TCPSender::send_order`: fails when not connected or when `send` (returning
`sent`) takes less than the whole record. -/
def TCPSender.sendOrder (s : TCPSender) (sent : Int) : Bool :=
  s.connected && sent == orderSize

end Hft.Network
