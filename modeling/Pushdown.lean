import Pushdown.Main
import Pushdown.Proofs.ComputedFilter
import Pushdown.Proofs.StageOrder
import Pushdown.Proofs.StageRequests
import Pushdown.Proofs.ReadBack
import Pushdown.Proofs.FetchedFields
import Pushdown.Proofs.WrittenCommand
import Pushdown.Proofs.PatternSearch
import Pushdown.Proofs.Rewriting
import Pushdown.Proofs.MergeDirections
import Pushdown.Proofs.ChainLocations
import Pushdown.Proofs.ParentRows
import Pushdown.Proofs.GroupReads
import Pushdown.Proofs.UpdateConflicts
import Pushdown.Proofs.WholeNumbers
import Pushdown.Proofs.SortOrder
import Pushdown.Proofs.FilterChecks
import Pushdown.Proofs.Uploads
import Pushdown.Proofs.RowAddresses
import Pushdown.Proofs.CopyReach
import Pushdown.Proofs.KeptFields
