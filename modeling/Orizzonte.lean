import Orizzonte.Lts
import Orizzonte.Tally
import Orizzonte.Monitor
import Orizzonte.Value
import Orizzonte.Nothing
import Orizzonte.Storage
import Orizzonte.Node
import Orizzonte.Execute
import Orizzonte.Fires
import Orizzonte.Obligation
import Orizzonte.Site
import Orizzonte.Ledger
import Orizzonte.Flow
import Orizzonte.Invariant
import Orizzonte.Progress
import Orizzonte.Runs
import Orizzonte.Trace
import Orizzonte.Latch
import Orizzonte.BoolLatch
import Orizzonte.Termination
import Orizzonte.Safety
import Orizzonte.Eval
import Orizzonte.Concurrent
import Orizzonte.Blocking
import Orizzonte.Reuse
import Orizzonte.Variant
import Orizzonte.Lifetime
import Orizzonte.Unwind
import Orizzonte.Bracketing
import Orizzonte.Causality
import Orizzonte.Precedence
import Orizzonte.Informed
import Orizzonte.HappensBefore
import Orizzonte.Races
import Orizzonte.Toposort
import Orizzonte.Frontier
import Orizzonte.Linearize
import Orizzonte.Inline
import Orizzonte.Pool
import Orizzonte.Overlap
import Orizzonte.Denote
import Orizzonte.SyncExecute
import Orizzonte.Returns
