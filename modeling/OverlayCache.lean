import OverlayCache.Cache
import OverlayCache.Config
import OverlayCache.Container.Call
import OverlayCache.Counter
import OverlayCache.Entry.Call
import OverlayCache.Entry.Commit
import OverlayCache.Flags
import OverlayCache.Json.DeltaForm
import OverlayCache.Json.VersionForm
import OverlayCache.Map.Tracked
import OverlayCache.Opener
import OverlayCache.Proofs.Alone
import OverlayCache.Proofs.Commit.Refused
import OverlayCache.Proofs.Commit.Stack
import OverlayCache.Proofs.Commit.Version
import OverlayCache.Proofs.Container.Closed
import OverlayCache.Proofs.Container.Contents
import OverlayCache.Proofs.Container.Releases
import OverlayCache.Proofs.Endings.AtRest
import OverlayCache.Proofs.Endings.Handles
import OverlayCache.Proofs.Json.Represented
import OverlayCache.Proofs.Json.Versions
import OverlayCache.Proofs.Layers.Grouping
import OverlayCache.Proofs.Ledger.Seeded
import OverlayCache.Proofs.Ledger.Serial
import OverlayCache.Proofs.Lifecycle.Authority
import OverlayCache.Proofs.Map.LastWriter
import OverlayCache.Proofs.Shared.Identities
import OverlayCache.Proofs.Shared.Settled
import OverlayCache.Proofs.Tracing.Shared
import OverlayCache.Proofs.Transactions.Reuse
import OverlayCache.Proofs.Transactions.Versions
import OverlayCache.Proofs.Wrapped.Restored
import OverlayCache.Proofs.Wrapped.Shown
import OverlayCache.Shared
import OverlayCache.Version
import OverlayCache.Workspace.Shared
