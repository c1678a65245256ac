import MatchingEngine.Book.Command
import MatchingEngine.Book.LevelTheorems
import MatchingEngine.Book.IdMapTheorems
import MatchingEngine.Book.BookTheorems
import MatchingEngine.Spec.PriorityBook
import MatchingEngine.Book.SweepTheorems
import MatchingEngine.Book.CrossTheorems
import MatchingEngine.Book.RestTheorems
import MatchingEngine.Spec.PriorityBookTheorems
import MatchingEngine.Book.AddTheorems
import MatchingEngine.Book.AmendTheorems
import MatchingEngine.Book.Refinement
import MatchingEngine.Spec.Snapshot
import MatchingEngine.Book.Matching
import MatchingEngine.Book.FillOrKill
import MatchingEngine.Spec.Timed
import MatchingEngine.Book.Invariants
import MatchingEngine.Oracle.Oracle
import MatchingEngine.Oracle.OracleTheorems
import MatchingEngine.Oracle.OracleCommands
import MatchingEngine.Journal.Journal
import MatchingEngine.Library.Crc
import MatchingEngine.Library.LittleEndian
import MatchingEngine.Oracle.Differential
import MatchingEngine.Journal.JournalCodec
import MatchingEngine.Journal.ReaderTheorems
import MatchingEngine.Journal.Reading
import MatchingEngine.Journal.Damage
import MatchingEngine.Replay.Lines
import MatchingEngine.Replay.ReplayTheorems
import MatchingEngine.Journal.Writer
import MatchingEngine.Journal.WriterTheorems
import MatchingEngine.Book.NoEffect
import MatchingEngine.Spec.Effect
import MatchingEngine.Book.Observed
import MatchingEngine.Spec.Ledger
import MatchingEngine.Book.Conservation
import MatchingEngine.Spec.Priority
import MatchingEngine.Book.Fairness
import MatchingEngine.Spec.Symmetry
import MatchingEngine.Book.Symmetries
import MatchingEngine.Book.Capacity
import MatchingEngine.Spec.Numbering
import MatchingEngine.Book.Numbers
import MatchingEngine.Library.CrcDivision
import MatchingEngine.Journal.Checksum
import MatchingEngine.Book.IdMapRuns
import MatchingEngine.Book.PoolRuns
import MatchingEngine.Book.Generations
import MatchingEngine.Book.PriceLevelsRuns
import MatchingEngine.Library.Delimited
import MatchingEngine.Replay.Unambiguous
import MatchingEngine.Spec.Reposition
import MatchingEngine.Book.Resubmission
import MatchingEngine.Book.Handles
import MatchingEngine.Book.Minted
import MatchingEngine.Book.Checker
import MatchingEngine.Book.LevelFamilies
import MatchingEngine.Bench.Workload
import MatchingEngine.Library.DenseList
import MatchingEngine.Bench.DrawTheorems
import MatchingEngine.Bench.ShadowTheorems
import MatchingEngine.Bench.CleanStreams
import MatchingEngine.Diff.Stream
import MatchingEngine.Diff.Pair
import MatchingEngine.Diff.StreamTheorems
import MatchingEngine.Diff.PairTheorems
import MatchingEngine.Diff.Fuzz
import MatchingEngine.Diff.Exhaustive
import MatchingEngine.Replay.Golden
import MatchingEngine.Replay.GoldenTheorems
import MatchingEngine.Book.FairTrades
import MatchingEngine.Journal.Load
import MatchingEngine.Replay.Recovery
import MatchingEngine.Book.Slicing
import MatchingEngine.Library.OrderStatistic
import MatchingEngine.Bench.Runner
import MatchingEngine.Bench.RunnerTheorems
import MatchingEngine.Journal.SecondOpinion
import MatchingEngine.Book.Touch
import MatchingEngine.Book.OrderTypes
