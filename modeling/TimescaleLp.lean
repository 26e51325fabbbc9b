import TimescaleLp.CommitOrder
import TimescaleLp.CrashSafety
import TimescaleLp.CoveredDrop
import TimescaleLp.Agreement
import TimescaleLp.BatchCuts
import TimescaleLp.Dangling
import TimescaleLp.Pruning
import TimescaleLp.Isolation
import TimescaleLp.Shutdown
import TimescaleLp.Overtaking
import TimescaleLp.CacheDrift
import TimescaleLp.Rollback
import TimescaleLp.TempTable
import TimescaleLp.DeleteRace
import TimescaleLp.TagFilters
import TimescaleLp.Retries
import TimescaleLp.Grammar
import TimescaleLp.SeriesText
import TimescaleLp.Spelling
import TimescaleLp.BigintRange
import TimescaleLp.Coverage
import TimescaleLp.Intake
import TimescaleLp.KeyOrder
import TimescaleLp.SeqRanges
import TimescaleLp.SplitLaws
import TimescaleLp.LoadGen
import TimescaleLp.ColumnClash
import TimescaleLp.RelationNames
import TimescaleLp.SafeNames
import TimescaleLp.UpkeepReads
import TimescaleLp.Progress
import TimescaleLp.ArrowTable
import TimescaleLp.Stocktaking
import TimescaleLp.SchemaLock
import TimescaleLp.Connections
import TimescaleLp.Admission
import TimescaleLp.InsertText
import TimescaleLp.UpkeepTexts
import TimescaleLp.Settling
import TimescaleLp.PayloadCuts
