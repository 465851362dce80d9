import NetSec.NatServer.AddressReuse
import NetSec.NatServer.Bans
import NetSec.NatServer.SharedAddress
import NetSec.NatServer.ListLocks
import NetSec.NatServer.Injection
import NetSec.NatServer.Strtok
import NetSec.NatServer.Rejection
import NetSec.NatServer.RuleRaces
import NetSec.NatServer.TimeOrder
import NetSec.NatServer.Shutdown
import NetSec.NatServer.SendAll
import NetSec.NatServer.ConnectionEnd
import NetSec.NatServer.Queue
import NetSec.NatServer.AddressSearch
import NetSec.NatServer.LeaseKey
import NetSec.Filter.WireFormat
import NetSec.Filter.HopCount
import NetSec.Filter.StaysBanned
import NetSec.Listener.HopTable
import NetSec.Client.ResolverCache
import NetSec.Client.SharedResolver
import NetSec.Client.ForeignAnswers
import NetSec.Client.AnswerTypes
import NetSec.Client.ListIntegrity
import NetSec.Client.ParseBounds
import NetSec.Client.PacketDecoding
import NetSec.Client.Statistics
import NetSec.Client.ScanTotal
import NetSec.Client.Cleanup
import NetSec.System.Reach
import NetSec.System.Pool
import NetSec.System.SpoofDetection
import NetSec.NatServer.Progress
import NetSec.NatServer.AtRest
import NetSec.NatServer.Serial
import NetSec.NatServer.BlockView
import NetSec.System.Restarts
import NetSec.Listener.Comparison
import NetSec.Client.Trials
