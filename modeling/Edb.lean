import Edb.BTree.Codec
import Edb.BTree.Conservation
import Edb.BTree.Cursors
import Edb.BTree.Refinement
import Edb.BTree.Removal
import Edb.Catalog.Batch
import Edb.Catalog.Constraints
import Edb.Catalog.Doomed
import Edb.Catalog.Drop
import Edb.Catalog.Integrity
import Edb.Catalog.Lookup
import Edb.Catalog.Orphans
import Edb.Catalog.Overlap
import Edb.Catalog.Readers
import Edb.Catalog.Referential
import Edb.Catalog.Sequence
import Edb.Catalog.Stored
import Edb.Catalog.Unique
import Edb.Catalog.Writes
import Edb.Common.Basic
import Edb.Lib.OrdMap
import Edb.Lib.Simulation
import Edb.Pager.Flush
import Edb.Pager.RawFrame
import Edb.Pager.RoundTrip
import Edb.Pager.Sessions
import Edb.Pager.Transparent
import Edb.Proto.Limits
import Edb.Proto.Result
import Edb.Proto.RoundTrip
import Edb.Query.Aggregate
import Edb.Query.Guard
import Edb.Query.Like
import Edb.Query.Order
import Edb.Query.Preservation
import Edb.Query.Pushdown
import Edb.Query.Resume
import Edb.Query.Sound
import Edb.Query.Stream
import Edb.Query.Window
import Edb.Txn.Serial
import Edb.Types.Key
import Edb.Types.Row
import Edb.Types.Uuid
