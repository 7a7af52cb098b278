import LevelDB.LogTorn
import LevelDB.LogFault
import LevelDB.LogRoundTrip
import LevelDB.LogDamage
import LevelDB.LogUnknown
import LevelDB.LogOffset
import LevelDB.LogImport
import LevelDB.CompactionReads
import LevelDB.CompactionClosed
import LevelDB.FileNames
import LevelDB.SnapshotReads
import LevelDB.LevelDisjoint
import LevelDB.WriterQueue
import LevelDB.DbCursor
import LevelDB.IteratorReads
import LevelDB.FileSafety
import LevelDB.CrashAtomic
import LevelDB.SequenceNumbers
import LevelDB.AtomicVisibility
import LevelDB.RepairReads
import LevelDB.CacheClients
import LevelDB.MemEnvRefines
import LevelDB.LruClients
import LevelDB.TableGet
import LevelDB.MergingCursor
import LevelDB.BlockSafety
import LevelDB.Overlaps
import LevelDB.Bloom
import LevelDB.Crc32cExtend
import LevelDB.EditCodec
import LevelDB.BatchFormat
import LevelDB.BlockRead
import LevelDB.SkipListReaders
import LevelDB.MemTable
import LevelDB.SyncedWrites
import LevelDB.GroupLogs
import LevelDB.ForcedFlush
import LevelDB.BackgroundErrors
import LevelDB.CompactionScans
import LevelDB.CodingPointers
import LevelDB.FileNameGrammar
import LevelDB.WritableFile
import LevelDB.Comparator
import LevelDB.HandleTable
import LevelDB.SeekStats
import LevelDB.ApproximateSizes
import LevelDB.PrefixRecovery
import LevelDB.LogImages
import LevelDB.ManifestImages
import LevelDB.ScheduledWork
import LevelDB.SnapshotList
