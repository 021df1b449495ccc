import Akb.Library.Table
import Akb.Library.Run
import Akb.Library.PyText
import Akb.Access.GrantDelivery
import Akb.Events.TailDelivery
import Akb.Events.RetentionGap
import Akb.Native.Namespace
import Akb.Native.History
import Akb.Native.Idempotency
import Akb.Sql.GuardAgreement
import Akb.Sql.ReadOnlyVaults
import Akb.Tables.RegistryAgreement
import Akb.Audit.Verifiable
import Akb.Uri.Rebuild
import Akb.Browse.Enumeration
import Akb.Bm25.OnePass
import Akb.Queues.Runs
import Akb.Queues.Rows
import Akb.Vectors.NoOrphans
import Akb.Rollout.TerminalStates
import Akb.WriteLane.Residue
import Akb.Authority.Repeat
import Akb.Okf.RoundTrip
import Akb.Okf.Exportable
import Akb.Publications.Hour
import Akb.Publications.ViewCap
import Akb.Graph.LinkedOrStated
import Akb.Graph.HooksConverge
import Akb.Rollout.LifecycleInvariant
import Akb.Rollout.OneJobAtATime
import Akb.Native.References
import Akb.FileProjection.Converges
import Akb.RoleSync.SqlRoles
import Akb.Library.Fallible
import Akb.BareGit.Indexed
import Akb.Collections.Contents
import Akb.Uri.Canonical
import Akb.Events.EventCursorRoundTrip
import Akb.Audit.Manifest
import Akb.Chunks.Bounded
import Akb.Chunks.Coverage
import Akb.RowQuery.Agreement
import Akb.Adoption.LegacyAdoption
import Akb.RoleSync.PhysicalNames
import Akb.Search.RankFusion
import Akb.Embeddings.Batches
import Akb.Chunks.NativeSections
import Akb.Chunks.LinesKept
import Akb.Chunks.HeaderStripped
import Akb.Chunks.SectionKept
import Akb.Grep.Scan
import Akb.Grep.Replace
import Akb.Search.FrontmatterSlice
import Akb.Assets.Retention
import Akb.Graph.Visits
import Akb.Graph.ExactBall
import Akb.Documents.ServedImages
import Akb.Search.HonestSearch
import Akb.Files.StreamedUpload
import Akb.Bm25.OneNumbering
import Akb.Audit.Tampering
import Akb.Native.Growth
import Akb.Access.Confinement
