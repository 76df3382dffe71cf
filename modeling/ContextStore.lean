import ContextStore.Outbox.Refinement
import ContextStore.Leases.Waits
import ContextStore.Outbox.Drain
import ContextStore.Outbox.PlanOrder
import ContextStore.Outbox.TabletChecks
import ContextStore.Retention.References
import ContextStore.Retention.Purges
import ContextStore.Migration.CopySafety
import ContextStore.Migration.ComparisonRuns
import ContextStore.Archive.Tampering
import ContextStore.Session.Rotation
import ContextStore.Daemon.Accounting
import ContextStore.Daemon.Reservations
import ContextStore.Daemon.Replays
import ContextStore.Retrieval.FeedbackRuns
import ContextStore.Retrieval.Following
import ContextStore.Retrieval.Chains
import ContextStore.Semantic.IndexTotals
import ContextStore.Session.TokenBudget
import ContextStore.Semantic.Rebuild
import ContextStore.Postings.ExactAliases
import ContextStore.Postings.BlockRoundTrip
import ContextStore.Postings.NearDuplicates
import ContextStore.Config.Profiles
import ContextStore.Retrieval.SignedLocator
import ContextStore.Retrieval.Traverse
import ContextStore.Session.ToolResults
import ContextStore.Session.HintRuns
import ContextStore.Postings.StreamedAnalysis
import ContextStore.Postings.LocatorBuffer
import ContextStore.Retrieval.StoredWindows
import ContextStore.Daemon.RetentionPolicy
import ContextStore.Session.ArgumentText
import ContextStore.Migration.RawSource
