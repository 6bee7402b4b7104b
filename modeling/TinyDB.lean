import TinyDB.Lib.Binary64
import TinyDB.HeapMap
import TinyDB.Lib.OrdDict
import TinyDB.Aggregate
import TinyDB.Atomicity
import TinyDB.CatalogCut
import TinyDB.CatalogReload
import TinyDB.Index
import TinyDB.IndexLevel
import TinyDB.IndexMap
import TinyDB.IndexSize
import TinyDB.Joins
import TinyDB.Session
import TinyDB.ThreeValued
import TinyDB.WalSessions
import TinyDB.Aliases
import TinyDB.Blocks
import TinyDB.Checkpoints
import TinyDB.CloseReopen
import TinyDB.Coherence
import TinyDB.HashJoin
import TinyDB.HeapFull
import TinyDB.InsertSteps
import TinyDB.Isolation
import TinyDB.KeyRuns
import TinyDB.Kills
import TinyDB.Lib.DictRel
import TinyDB.NullRuns
import TinyDB.OpenBlock
import TinyDB.PlanRows
import TinyDB.Accepted
import TinyDB.DdlEffects
import TinyDB.GroupBy
import TinyDB.RowsAffected
import TinyDB.Projections
import TinyDB.JoinTypes
import TinyDB.StarColumns
import TinyDB.RWLock
import TinyDB.WalFrames
import TinyDB.Recovery
import TinyDB.TokenTexts
import TinyDB.Positions
import TinyDB.ParserComplete
import TinyDB.AggregateClauses
import TinyDB.JoinAggregates
import TinyDB.WakeUps
import TinyDB.PoolWrites
import TinyDB.FreePages
import TinyDB.NodePages
import TinyDB.TextKeys
import TinyDB.CsvOutput
import TinyDB.BatchSplit
import TinyDB.StatementComplete
import TinyDB.AcceptsExactly
import TinyDB.Placement
import TinyDB.FailedBlock
