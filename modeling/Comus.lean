import Comus.Memory.PhysIndex
import Comus.Memory.PhysPlaces
import Comus.Memory.BootTags
import Comus.Procs.QueueRuns
import Comus.Procs.Reaping
import Comus.Procs.Rounds
import Comus.Procs.Turns
import Comus.Procs.FailedFork
import Comus.Fs.Requests
import Comus.Fs.Scan
import Comus.Fs.ChunkedReads
import Comus.Fs.Listing
import Comus.Fs.DiskWrites
import Comus.Fs.Paths
import Comus.Memory.ContextRuns
import Comus.Procs.Image
import Comus.User.Stdio
import Comus.User.Fopen
import Comus.User.MallocList
import Comus.Term.Accesses
import Comus.User.Deflate
import Comus.Memory.VirtMoves
import Comus.Memory.Isolation
import Comus.Memory.KernelHeap
import Comus.Memory.UserGuards
import Comus.Memory.Cloning
import Comus.Klib.Btoa
import Comus.Klib.PrintfStrings
import Comus.Klib.Copies
import Comus.Drivers.Keyboard
import Comus.Drivers.Clock
