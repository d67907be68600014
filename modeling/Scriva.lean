import Scriva.IndexRecovery
import Scriva.CompactCrash
import Scriva.ChecksumInput
import Scriva.SegmentOrder
import Scriva.UndecidedRuns
import Scriva.ShippingRuns
import Scriva.ReplayOverlap
import Scriva.FencingRuns
import Scriva.CasRuns
import Scriva.XTxRuns
import Scriva.SingleTxRuns
import Scriva.Promotion
import Scriva.TxIdGroup
import Scriva.IndexExposure
import Scriva.Migration
import Scriva.WatchRuns
import Scriva.Projection
import Scriva.IndexBuckets
import Scriva.PointReadRuns
import Scriva.CommitEvidence
import Scriva.CommitKeyRuns
import Scriva.Expiry
import Scriva.Paging
import Scriva.KeyConflicts
import Scriva.CompactOutput
import Scriva.MarkerSearch
import Scriva.SegmentTail
