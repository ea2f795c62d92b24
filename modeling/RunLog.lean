import RunLog.Main
import RunLog.Proofs.AbsentFields
import RunLog.Proofs.BlockLayout
import RunLog.Proofs.CanonicalLines
import RunLog.Proofs.ContinuedSteps
import RunLog.Proofs.HiddenRecords
import RunLog.Proofs.Interleaving
import RunLog.Proofs.ItemByItem
import RunLog.Proofs.LatestResults
import RunLog.Proofs.LineSelection
import RunLog.Proofs.PaintedRuns
import RunLog.Proofs.PollingEnds
import RunLog.Proofs.ReaderWindow
import RunLog.Proofs.RecoveredLines
import RunLog.Proofs.RefusedLines
import RunLog.Proofs.ResultListings
import RunLog.Proofs.RowLayout
import RunLog.Proofs.SideBySide
import RunLog.Proofs.TornLines
import RunLog.Proofs.TotalCounts
import RunLog.Proofs.WellFormedLogs
