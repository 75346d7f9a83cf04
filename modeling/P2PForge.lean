import P2PForge.TokenConformance
import P2PForge.LimiterErasure
import P2PForge.CostOverflow
import P2PForge.TokenWait
import P2PForge.TrackedPeers
import P2PForge.FrameGrammar
import P2PForge.PoolIsolation
import P2PForge.FrameEnd
import P2PForge.HoldTime
import P2PForge.TopicJoin
import P2PForge.TopicLife
import P2PForge.TopicFaults
import P2PForge.NodeClose
import P2PForge.StreamMetrics
import P2PForge.ResponseWriter
import P2PForge.StreamBuffers
import P2PForge.OpenHosts
import P2PForge.Drain
import P2PForge.Presence
import P2PForge.IdentityStore
import P2PForge.RouterLabels
import P2PForge.PoolCounters
import P2PForge.ConnectionLimits
import P2PForge.RoutingFilter
import P2PForge.Rejection
import P2PForge.LimitedCalls
import P2PForge.TickerService
import P2PForge.HealthServer
