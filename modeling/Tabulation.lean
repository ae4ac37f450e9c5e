import Tabulation.Main
import Tabulation.RuleBook
import Tabulation.EdgeFunction.MaskMap
import Tabulation.EdgeFunction.PeakMap
import Tabulation.EdgeStore.Render
import Tabulation.Proofs.Reachability
import Tabulation.Proofs.PathValues
import Tabulation.Proofs.Derivation
import Tabulation.Proofs.BinaryValues
import Tabulation.Proofs.PlainRuns
import Tabulation.Proofs.PostFixpoint
import Tabulation.Proofs.LeastValues
import Tabulation.Proofs.Confluence
import Tabulation.Proofs.LiveHandles
import Tabulation.Proofs.Bookkeeping
import Tabulation.Proofs.RememberedAnswers
import Tabulation.Proofs.AskedOnce
import Tabulation.Proofs.Cacheability
import Tabulation.Proofs.EdgeStore.Shape
import Tabulation.Proofs.EdgeStore.Twin
import Tabulation.Proofs.EdgeStore.Denotation
import Tabulation.Proofs.EdgeStore.Representation
import Tabulation.Proofs.EdgeStore.JoinLaws
import Tabulation.Proofs.EdgeStore.Garbage
import Tabulation.Proofs.EdgeStore.Afresh
import Tabulation.Proofs.EdgeStore.ComposeLaws
import Tabulation.Proofs.GraphViews
import Tabulation.Proofs.LedgerHistory
import Tabulation.Proofs.Collection
import Tabulation.Proofs.FlowTargets
import Tabulation.Proofs.Numbering
import Tabulation.Proofs.BitSetHistory
import Tabulation.Proofs.ValueCodes
import Tabulation.Proofs.SeedHistory
import Tabulation.Proofs.PackedTables
import Tabulation.Proofs.CallChain.Values
