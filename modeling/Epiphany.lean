import Epiphany.Common.FinMap
import Epiphany.Common.Worklist
import Epiphany.Common.Hierarchy
import Epiphany.Core.Value
import Epiphany.Core.Dimension
import Epiphany.Core.Attributes
import Epiphany.Core.Structural
import Epiphany.Core.StructuralEdits
import Epiphany.Core.Spread
import Epiphany.Persist.Recovery
import Epiphany.Engine.Boot
import Epiphany.Server.Migration
import Epiphany.Calc.Masked
import Epiphany.Security.Revocation
import Epiphany.Security.Artifact
import Epiphany.Server.Sessions
import Epiphany.Server.Listings
import Epiphany.Server.Structure
import Epiphany.Flow.Retention
import Epiphany.Engine.Feed
import Epiphany.Security.AuditRuns
import Epiphany.Persist.Store
import Epiphany.Server.Stream
import Epiphany.Server.WriteRights
import Epiphany.Calc.Provenance
import Epiphany.Server.LoginGuard
import Epiphany.Security.Changes
import Epiphany.Server.UserRequests
import Epiphany.Server.Scheduler
import Epiphany.Flow.LedgerFile
import Epiphany.Flow.LedgerRuns
import Epiphany.Server.TargetRuns
import Epiphany.Mdx.Meaning
import Epiphany.Flow.StripLayout
import Epiphany.Mdx.Accepted
import Epiphany.Core.LeafPaths
import Epiphany.Flow.CsvText
import Epiphany.Server.EditBodies
import Epiphany.Persist.RegistrySaves
import Epiphany.Server.AutomationText
import Epiphany.Server.MdxViews
import Epiphany.Core.GridFill
import Epiphany.Calc.Rounding
import Epiphany.Core.DecimalText
import Epiphany.Persist.Batches
import Epiphany.Core.Compaction
import Epiphany.Core.AliasIndex
import Epiphany.Core.ViewGrid
import Epiphany.Core.PackedKeys
import Epiphany.Common.MemoryFirst
import Epiphany.Server.AutomationStore
import Epiphany.Security.Secrets
import Epiphany.Common.CheckThenAct
import Epiphany.Server.SavedRaces
import Epiphany.Excel.Deliveries
import Epiphany.Server.MemberRefs
import Epiphany.Server.CellsetFlags
import Epiphany.Rules.Compile
import Epiphany.Rules.Parse
import Epiphany.Calc.Feeders
import Epiphany.Common.Saturate
import Epiphany.Calc.InferFeeders
import Epiphany.Calc.FeederSoundness
import Epiphany.Common.Transfer
import Epiphany.Calc.SparseGate
import Epiphany.Rules.Meaning
import Epiphany.Rules.Areas
import Epiphany.Rules.Pinned
