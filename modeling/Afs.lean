import Afs.Meta.Dfs.Fencing
import Afs.Meta.Dfs.History
import Afs.Meta.Dfs.Identity
import Afs.Meta.Dfs.Leases
import Afs.Meta.Dfs.NamespaceTree
import Afs.Meta.Dfs.RepairDebt
import Afs.Meta.Dfs.Satisfied
import Afs.Meta.Dfs.Updates
import Afs.Meta.OwnerRoots.Access
import Afs.Meta.Store.Corruption
import Afs.Meta.Store.RoundTrip
import Afs.Meta.Store.Sessions
import Afs.Meta.Store.Shared
import Afs.Node.Dfs.PlainFile
import Afs.Node.Directories
import Afs.Node.Locks.Deadlock
import Afs.Node.Locks.Epochs
import Afs.Node.Locks.Reap
import Afs.Node.Locks.RemoteSessions
import Afs.Node.OwnerFs.Catalog
import Afs.Node.OwnerFs.Sharing
