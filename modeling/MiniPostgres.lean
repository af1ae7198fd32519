import MiniPostgres.VacuumReturns
import MiniPostgres.VacuumRun
import MiniPostgres.Leases
import MiniPostgres.Wal
import MiniPostgres.Recovery
import MiniPostgres.Outcomes
import MiniPostgres.Checkpoint
import MiniPostgres.FailedFlush
import MiniPostgres.PageLog
import MiniPostgres.Rebuild
import MiniPostgres.WalBytes
import MiniPostgres.WalCodec
import MiniPostgres.WalAppends
import MiniPostgres.FirstUpdater
import MiniPostgres.DeadRows
import MiniPostgres.Thinning
import MiniPostgres.Twice
import MiniPostgres.IndexBuild
import MiniPostgres.Backing
import MiniPostgres.BinderScope
import MiniPostgres.SourceOrder
import MiniPostgres.Reordering
import MiniPostgres.LockWaits
import MiniPostgres.RowLists
import MiniPostgres.Convergence
import MiniPostgres.Transparency
import MiniPostgres.Slotted
import MiniPostgres.Mutexes
import MiniPostgres.CrossWaits
import MiniPostgres.Overtaking
import MiniPostgres.Deadlocks
import MiniPostgres.CreateTable
import MiniPostgres.VersionWrites
import MiniPostgres.TupleCodec
import MiniPostgres.Analyze
import MiniPostgres.HashJoins
import MiniPostgres.Lib.Text
import MiniPostgres.Lexer
import MiniPostgres.LexerSpec
import MiniPostgres.Lib.Spacing
import MiniPostgres.Lib.Floats
import MiniPostgres.Histogram
import MiniPostgres.ClockSweep
import MiniPostgres.Constants
import MiniPostgres.Fields
import MiniPostgres.WalInverse
import MiniPostgres.TupleCanonical
import MiniPostgres.Growth
import MiniPostgres.Lib.Comparators
import MiniPostgres.Numbers
import MiniPostgres.SortOrder
import MiniPostgres.Lib.Lexicographic
import MiniPostgres.KeyOrder
import MiniPostgres.BTreePages
import MiniPostgres.Redo
import MiniPostgres.Restarts
import MiniPostgres.Lib.Program
import MiniPostgres.Lib.Stages
import MiniPostgres.Executors
import MiniPostgres.Cleanup
import MiniPostgres.Lib.SearchTrees
import MiniPostgres.TreeFile
import MiniPostgres.TreeShape
import MiniPostgres.TreeSearch
import MiniPostgres.TreeInsert
import MiniPostgres.TreeNeighbours
import MiniPostgres.TreeDelete
import MiniPostgres.TreeRuns
