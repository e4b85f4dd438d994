import CS162.LibKernel.Hash
import CS162.Threads.MallocRun
import CS162.Threads.Flush
import CS162.Threads.Sleep
import CS162.Threads.Dispatch
import CS162.Threads.CondVar
import CS162.Threads.Semaphore
import CS162.Threads.Preempt
import CS162.Filesys.CacheOneCopy
import CS162.Filesys.Mkdir
import CS162.Filesys.CacheClock
import CS162.Filesys.NewFile
import CS162.Filesys.Readdir
import CS162.Filesys.CacheWrite
import CS162.Filesys.Lifetime
import CS162.Filesys.FreeMap
import CS162.Filesys.PathRefs
import CS162.Userprog.StartStack
import CS162.Memory.HeapLeak
import CS162.Memory.HeapStart
import CS162.Memory.PageFault
import CS162.Memory.SbrkRun
import CS162.Userprog.Descriptors
import CS162.Userprog.Wait
import CS162.Pt.RamRun
import CS162.Pt.Mmu
import CS162.Tpc.Connect
import CS162.Tpc.Matching
import CS162.Tpc.Journal
import CS162.Tpc.KVStore
import CS162.WordCount.Agree
import CS162.WordCount.PWords
import CS162.Devices.Intq
import CS162.Http.Files
import CS162.Http.Server
