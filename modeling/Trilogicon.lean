import Trilogicon.Theory.Preimage
import Trilogicon.Theory.Authority
import Trilogicon.Theory.Serve
import Trilogicon.Theory.NodeRun
import Trilogicon.Theory.SealGate
import Trilogicon.Theory.Binding
import Trilogicon.Theory.SharedFile
import Trilogicon.Theory.Formats
import Trilogicon.Theory.Pool
import Trilogicon.Theory.PendingQueue
import Trilogicon.Theory.ReplaySandbox
import Trilogicon.Theory.Session
import Trilogicon.Theory.Exchange
import Trilogicon.Theory.NodeLife
import Trilogicon.Theory.Agreement
import Trilogicon.Theory.Converge
import Trilogicon.Theory.Selection
import Trilogicon.Theory.Checksum
import Trilogicon.Theory.InboundSlots
import Trilogicon.Theory.Rollback
import Trilogicon.Theory.Reorg
import Trilogicon.Theory.Ancestry
import Trilogicon.Theory.Path
import Trilogicon.Theory.Limits
import Trilogicon.Theory.Conflicts
import Trilogicon.Theory.Fingerprint
import Trilogicon.Theory.GenesisOrder
import Trilogicon.Theory.SyncSafety
import Trilogicon.Theory.BindFile
import Trilogicon.Theory.ForkChoice
import Trilogicon.Theory.Payments
import Trilogicon.Theory.Args
import Trilogicon.Theory.Clock
import Trilogicon.Theory.Startup
