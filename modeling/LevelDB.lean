import LevelDB.Util.Coding
import LevelDB.Util.Loop
import LevelDB.Util.Comparator
import LevelDB.Util.Crc32c
import LevelDB.Util.Logging
import LevelDB.Util.Status
import LevelDB.Util.Arena
import LevelDB.Util.Cache.HandleTable
import LevelDB.Util.Cache.HandleTableMap
import LevelDB.Util.Cache.LRUCache
import LevelDB.Util.Cache.Invariant
import LevelDB.Util.Cache.Session
import LevelDB.Util.Cache.Shard
import LevelDB.Util.Cache.Sharded
import LevelDB.Db.DbFormat
import LevelDB.Db.SkipList
import LevelDB.Db.SkipListIterator
import LevelDB.Db.SkipListLinking
import LevelDB.Db.SkipListConcurrent
import LevelDB.Db.MemTable
import LevelDB.Db.MemTableIterator
import LevelDB.Table.FilterBlock
import LevelDB.Table.Format
import LevelDB.Table.Block
import LevelDB.Table.TableBuilder
import LevelDB.Table.TableBuilderRep
import LevelDB.Table.Table
import LevelDB.Table.RoundTrip
import LevelDB.Table.Index
import LevelDB.Table.Get
import LevelDB.Table.ApproximateOffset
import LevelDB.Table.TwoLevelIterator
import LevelDB.Table.BlockCache
import LevelDB.Table.CachedRead
import LevelDB.Db.LogWriter
import LevelDB.Db.LogReader
import LevelDB.Db.LogRoundTrip
import LevelDB.Db.LogReaderProgress
import LevelDB.Db.TableCache
