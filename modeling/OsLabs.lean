import OsLabs.Lib.Command
import OsLabs.Lib.Heap
import OsLabs.Lib.SearchTree
import OsLabs.Fat.HierarchyTree
import OsLabs.Fat.TreeSpec
import OsLabs.Fat.TreeSequences
import OsLabs.Fat.TreeDestroy
import OsLabs.Fat.TreeMap
import OsLabs.Fat.Siblings
import OsLabs.Fat.AnyTable
import OsLabs.Fat.State
import OsLabs.Fat.Util
import OsLabs.Fat.FilenameUtil
import OsLabs.Fat.Table
import OsLabs.Fat.File
import OsLabs.Fat.FuseOps
import OsLabs.Fat.Geometry
import OsLabs.Fat.WriteLoop
import OsLabs.Fat.WriteRefinement
import OsLabs.Fat.ErrnoIndependence
import OsLabs.Fat.ReadDirectory
import OsLabs.Fat.Truncate
import OsLabs.Shell.Wiring
import OsLabs.Shell.Parsing
import OsLabs.Shell.Printing
import OsLabs.Kernel.Counting
import OsLabs.Kernel.Closing
import OsLabs.Kernel.Claiming
import OsLabs.Kernel.PingPong
import OsLabs.Sched.LockCycle
import OsLabs.Sched.Statistics
import OsLabs.Fat.RemoveDirectory
import OsLabs.Fat.LogSessions
import OsLabs.Fat.ShortNames
import OsLabs.Fat.ShortWrites
import OsLabs.Sched.ProcTable
import OsLabs.Fat.CreateFile
import OsLabs.Fat.Preorder
import OsLabs.Fat.TableCopies
import OsLabs.Fat.TableSearch
import OsLabs.Fat.Timestamps
import OsLabs.Fat.Buffers
import OsLabs.Lib.Tagged
import OsLabs.Fat.FailedCreation
import OsLabs.Fat.Listing
import OsLabs.Fat.RemovedEntry
import OsLabs.Fat.DeletedFiles
import OsLabs.Fat.CreatedEntry
import OsLabs.Fat.NewDirectory
import OsLabs.Sched.ExitStatus
import OsLabs.Sched.RoundRobin
import OsLabs.Lib.Simulation
import OsLabs.Kernel.Spinlock
import OsLabs.Kernel.Kalloc
import OsLabs.Fat.FileChange
import OsLabs.Fat.FileStore
import OsLabs.Fat.TreeHierarchy
import OsLabs.Shell.Mybash
import OsLabs.Shell.Leaks
import OsLabs.Kernel.FunAux
import OsLabs.Fat.FuseStore
import OsLabs.Fat.Unmount
import OsLabs.Fat.Remount
import OsLabs.Kernel.Pipe
