import PetLab.Lib.Buckets
import PetLab.Lib.Conc
import PetLab.Lib.Dyadic
import PetLab.Lib.LinkChain
import PetLab.Lib.LinkRing
import PetLab.Lib.Mutex
import PetLab.Lib.ObjectMemory
import PetLab.Lib.Run
import PetLab.Lib.StackMachine
import PetLab.Lib.TableTree
import PetLab.Lib.Tiling
import PetLab.VMproject.AddMemory
import PetLab.VMproject.BlockRollback
import PetLab.VMproject.BlockSearch
import PetLab.VMproject.Buddy
import PetLab.VMproject.BuddyInv
import PetLab.VMproject.BuddyRuns
import PetLab.VMproject.DemandPaging
import PetLab.VMproject.FileIo
import PetLab.VMproject.FirstFit
import PetLab.VMproject.FirstTable
import PetLab.VMproject.FreePosition
import PetLab.VMproject.FreeSpec
import PetLab.VMproject.FreeStmts
import PetLab.VMproject.FreeWalk
import PetLab.VMproject.Isolation
import PetLab.VMproject.LazyContract
import PetLab.VMproject.LazyIoctl
import PetLab.VMproject.MapLive
import PetLab.VMproject.MemMap
import PetLab.VMproject.MemMapInv
import PetLab.VMproject.OpenFileRuns
import PetLab.VMproject.OpenFiles
import PetLab.VMproject.OutOfMemory
import PetLab.VMproject.PageFault
import PetLab.VMproject.PageFree
import PetLab.VMproject.PagePools
import PetLab.VMproject.PageWords
import PetLab.VMproject.PgTables
import PetLab.VMproject.SameAnswers
import PetLab.VMproject.TableRelease
import PetLab.VMproject.Teardown
import PetLab.VMproject.Tlb
import PetLab.VMproject.UserMemory
import PetLab.VMproject.UserRuns
import PetLab.VMproject.VmRuns
import PetLab.Threads.ContextSwitch
import PetLab.Threads.FreedRecords
import PetLab.Threads.Hashtable
import PetLab.Threads.HashtableFree
import PetLab.Threads.HashtableInv
import PetLab.Threads.HashtableIter
import PetLab.Threads.HashtableMap
import PetLab.Threads.HashtableOps
import PetLab.Threads.HashtableRuns
import PetLab.Threads.JoinInv
import PetLab.Threads.MainJoin
import PetLab.Threads.NestedJoin
import PetLab.Threads.PetThread
import PetLab.Threads.Reclaim
import PetLab.Threads.RoundRobin
import PetLab.Threads.RunReturns
import PetLab.Threads.SchedCalls
import PetLab.Threads.SchedInv
import PetLab.Threads.StackAlign
import PetLab.Threads.SwitchStack
import PetLab.SyncProject.Barrier
import PetLab.SyncProject.BarrierInv
import PetLab.SyncProject.BarrierTest
import PetLab.SyncProject.LfDequeue
import PetLab.SyncProject.LfEnqueue
import PetLab.SyncProject.LfInit
import PetLab.SyncProject.LfQueue
import PetLab.SyncProject.RwLock
import PetLab.SyncProject.RwLockInv
import PetLab.SyncProject.RwLockRuns
import PetLab.SyncProject.Spinlock
