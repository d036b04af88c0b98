import Yfs.Boot.Proofs
import Yfs.Boot.Lists
import Yfs.Ownership
import Yfs.Transparent
import Yfs.Isolation
import Yfs.Marks
import Yfs.Header
import Yfs.InRange
import Yfs.Steady
import Yfs.Evicted
import Yfs.Paths
import Yfs.Atomic
import Yfs.Exhausted
import Yfs.Looking
import Yfs.Clients
import Yfs.Descriptors
import Yfs.Chunks
import Yfs.Entries
import Yfs.Contents
import Yfs.Malformed
import Yfs.Names
import Yfs.Bindings
import Yfs.Unlink
import Yfs.Create
import Yfs.Logical.Trail
import Yfs.Link
import Yfs.Mkdir
import Yfs.Rmdir
import Yfs.Opens
import Yfs.Seek
import Yfs.Freeing
import Yfs.Splitting
import Yfs.Flush
import Yfs.Pointers.Shown
import Yfs.FirstMatch
import Yfs.OneName
import Yfs.Walks
import Yfs.Pairs
import Yfs.Dangling
import Yfs.LinkCounts
import Yfs.Namespace
import Yfs.Accounts
import Yfs.Restart
import Yfs.System
import Yfs.Code.Main
import Yfs.Wire
import Yfs.Sessions
import Yfs.Lib.Catalog
import Yfs.Filing.Spec
import Yfs.Filing.Bytes
import Yfs.Filing.Shows
import Yfs.Filing.Steps
import Yfs.Filing.Acts
import Yfs.Filing.Runs
import Yfs.Filing.History
