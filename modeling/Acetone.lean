import Acetone.Prolly.Versions
import Acetone.Graph.StoredHistory
import Acetone.Graph.MergeIdentities
import Acetone.Model.StrictCodecs
import Acetone.Graph.WriterLock
import Acetone.Graph.LabelKeys
import Acetone.Store.PlanOrder
import Acetone.Store.DeltaRoundTrip
import Acetone.Graph.FsckRuns
import Acetone.Graph.StreamedChecks
import Acetone.Cypher.Required
import Acetone.Cypher.OverlayRuns
import Acetone.Cypher.RowCap
import Acetone.Cypher.SetPersist
import Acetone.Cypher.ConstraintRace
import Acetone.Graph.Migrate
import Acetone.Cypher.LexEscapes
import Acetone.Cypher.ProbeExpansion
import Acetone.Cypher.IndexScans
import Acetone.Graph.Anchors
import Acetone.Prolly.Convergence
import Acetone.Serve.Connection
import Acetone.Interchange.RoundTrip
import Acetone.Graph.IndexComplete
import Acetone.Graph.ConflictIdentity
import Acetone.Graph.Resolution
import Acetone.Graph.MergeContent
import Acetone.Graph.CommitLog
import Acetone.Graph.Discriminators
import Acetone.Interchange.ImportTraces
import Acetone.Graph.ImportVerdicts
import Acetone.Graph.Blame
import Acetone.Interchange.ChangeReport
