import PFS.Bare
import PFS.Client.BlockWalks
import PFS.Client.CacheThreads
import PFS.Client.CacheView
import PFS.Client.EvictFile
import PFS.Client.FileCopies
import PFS.Client.FreeBlocks
import PFS.Client.ManyFiles
import PFS.Client.Recency
import PFS.Client.Revocation
import PFS.Client.Rounds
import PFS.Client.SoloClient
import PFS.Client.TokenWindow
import PFS.Client.Wakeups
import PFS.FileServer.Flushes
import PFS.FileServer.Mutex
import PFS.FileServer.Striping
import PFS.Levels
import PFS.Manager.Exclusion
import PFS.Manager.Handlers
import PFS.System.AllFiles
import PFS.System.CacheHits
import PFS.System.Creation
import PFS.System.Descriptors
import PFS.System.EndToEnd
import PFS.System.FileSize
import PFS.System.Geometry
import PFS.System.LockTable
import PFS.System.Messages
import PFS.System.OpenTables
import PFS.System.Progress
import PFS.System.Returning
import PFS.System.Session
import PFS.System.Unlocked
import PFS.System.WholeBlocks
import PFS.System.Widths
