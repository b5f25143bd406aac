import HftSystem.Common.Bytes
import HftSystem.Common.Binary64
import HftSystem.Common.Bits
import HftSystem.Common.BitFlags
import HftSystem.Common.Config
import HftSystem.Common.MapSpec
import HftSystem.Common.MemoryPool
import HftSystem.Common.PoolRace
import HftSystem.Common.MpscRing
import HftSystem.Common.MpscRace
import HftSystem.Common.SpscRing
import HftSystem.Common.StringMap
import HftSystem.Common.StringMapRace
import HftSystem.Common.HashMap
import HftSystem.Common.Logger
import HftSystem.Common.LoggerRace
import HftSystem.MarketData.OrderBook
import HftSystem.MarketData.SnapshotRace
import HftSystem.MarketData.Handler
import HftSystem.Network.TcpSender
import HftSystem.Network.UdpReceiver
import HftSystem.Trading.OrderManager
import HftSystem.Trading.RateWindow
import HftSystem.Trading.Strategy
import HftSystem.Trading.HotPath
import HftSystem.Trading.QuoteStream
