import IneryPersistence.Lib.SortedMap
import IneryPersistence.Lib.Overlay
import IneryPersistence.Db.Basics
import IneryPersistence.Db.Prefix
import IneryPersistence.Db.Access
import IneryPersistence.Cache.Composite
import IneryPersistence.Cache.Refine
import IneryPersistence.Cache.Sharing
import IneryPersistence.Undo.Wrapper
import IneryPersistence.Undo.Execute
import IneryPersistence.Undo.Inverse
import IneryPersistence.Iterator.Model
import IneryPersistence.Iterator.Stream
import IneryPersistence.Iterator.Enumerate
import IneryPersistence.Db.Tuple
import IneryPersistence.Iterator.Prefixed
import IneryPersistence.Cdp.Keys
import IneryPersistence.Iterator.Block
import IneryPersistence.Cdp.Liquidation
import IneryPersistence.Cdp.Model
import IneryPersistence.Lib.Index
import IneryPersistence.Cdp.Store
import IneryPersistence.Cdp.Invariant
import IneryPersistence.Block.Header
import IneryPersistence.Block.IndexDb
import IneryPersistence.Block.HeaderRead
import IneryPersistence.Price.MemCache
import IneryPersistence.Price.Flush
import IneryPersistence.Price.Window
import IneryPersistence.Price.Restart
import IneryPersistence.Price.AddPrice
import IneryPersistence.Price.Exist
import IneryPersistence.Block.TxMem
import IneryPersistence.Cache.SimpleRefine
import IneryPersistence.Block.Fees
import IneryPersistence.Db.TailKey
import IneryPersistence.Iterator.Disjoint
import IneryPersistence.Dex.Operators
import IneryPersistence.Dex.Owners
import IneryPersistence.Cache.Levels
import IneryPersistence.Dex.Orders
import IneryPersistence.Dex.OrderIndex
import IneryPersistence.Cache.Kept
import IneryPersistence.SysParam.Model
import IneryPersistence.SysParam.ReadBack
import IneryPersistence.Lib.Timeline
import IneryPersistence.SysParam.Interest
import IneryPersistence.SysParam.Tiling
import IneryPersistence.Cache.Children
import IneryPersistence.Contract.Data
import IneryPersistence.Lib.Paging
import IneryPersistence.Contract.Paging
import IneryPersistence.Lib.Merkle
import IneryPersistence.Block.Merkle
import IneryPersistence.Lib.Disorder
import IneryPersistence.Cache.Entries
import IneryPersistence.Iterator.Leftover
import IneryPersistence.Asset.Tokens
import IneryPersistence.Iterator.Element
import IneryPersistence.Cdp.Levels
import IneryPersistence.Cdp.UserList
import IneryPersistence.Delegate.Top
import IneryPersistence.Db.Containers
import IneryPersistence.SysGovern.Governors
import IneryPersistence.Price.Median
import IneryPersistence.Dex.LastId
import IneryPersistence.Account.Lookup
import IneryPersistence.Account.Runs
import IneryPersistence.Iterator.Moves
import IneryPersistence.Cache.Size
import IneryPersistence.Cache.DomainSize
import IneryPersistence.Price.Details
import IneryPersistence.Price.LastFeed
import IneryPersistence.Cache.Tree
import IneryPersistence.Disk.Files
import IneryPersistence.Undo.Manager
import IneryPersistence.Undo.Chain
import IneryPersistence.Leveldb.Coding
import IneryPersistence.Leveldb.Crc32c
import IneryPersistence.Leveldb.Log
import IneryPersistence.Leveldb.LogRecovery
import IneryPersistence.Leveldb.Db
import IneryPersistence.Leveldb.DbRecovery
import IneryPersistence.Leveldb.Block
import IneryPersistence.Leveldb.BlockCursor
import IneryPersistence.Leveldb.Filter
import IneryPersistence.SysGovern.Approvals
