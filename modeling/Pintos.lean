import Pintos.Filesys.CacheOrder
import Pintos.Filesys.CacheThreads
import Pintos.Filesys.DirectoryMap
import Pintos.Filesys.FailedCreate
import Pintos.Filesys.GrowthSteps
import Pintos.Filesys.Removal
import Pintos.Kernel.Heap
import Pintos.Kernel.Tokens
import Pintos.Threads.Conditions
import Pintos.Threads.Handlers
import Pintos.Threads.Restoring
import Pintos.Threads.WorkingDirs
import Pintos.Userprog.Arguments
import Pintos.Userprog.CommandNames
import Pintos.Userprog.ExitStatus
import Pintos.Userprog.Keyboard
import Pintos.Userprog.LockOrder
import Pintos.Userprog.Orphans
import Pintos.Userprog.UserBuffers
import Pintos.Vm.LazyLoading
import Pintos.Vm.MapCalls
import Pintos.Vm.PageHash
import Pintos.Vm.Segments
import Pintos.Vm.Swap
import Pintos.Vm.UserPages
