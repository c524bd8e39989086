import Zgmos.Lib.Segment
import Zgmos.Lib.Ring
import Zgmos.Lib.Run
import Zgmos.Lib.Riscv
import Zgmos.Scheduler.Exit
import Zgmos.Scheduler.Runs
import Zgmos.Scheduler.Swtch
import Zgmos.Trap.RoundTrip
import Zgmos.Trap.Kvec
import Zgmos.Trap.Isolation
import Zgmos.Buddy.Runs
import Zgmos.Buddy.Canonical
import Zgmos.Buddy.DoubleFree
import Zgmos.Buddy.Harts
import Zgmos.Buddy.Carving
import Zgmos.Kmem.Arena
import Zgmos.Kmem.Failure
import Zgmos.Kmem.Contract
import Zgmos.Process.Create
import Zgmos.Kvm.Init
import Zgmos.Cpu.Nesting
import Zgmos.Pid.Runs
import Zgmos.Fat32.ReadFile
import Zgmos.Fat32.Listing
import Zgmos.Fat32.LongName
import Zgmos.Fat32.Completeness
import Zgmos.Fat32.Termination
import Zgmos.Fat32.Confinement
import Zgmos.Fat32.ShortName
import Zgmos.Fat32.Decoding
import Zgmos.Fat32.Lru
import Zgmos.Fat32.Search
import Zgmos.Fat32.Lifecycle
import Zgmos.Fat32.Failure
import Zgmos.Fat32.TableArray
import Zgmos.Fs.Descriptors
import Zgmos.Fs.Holders
import Zgmos.Fs.Clone
import Zgmos.Fs.Locking
import Zgmos.Fs.UserMemory
import Zgmos.Fs.Lookup
import Zgmos.Fs.Chunks
import Zgmos.Fs.Stack
import Zgmos.Fs.Fold
import Zgmos.Virtio.Completion
import Zgmos.Kernel.Traversal
import Zgmos.Kustd.Copy
import Zgmos.Kustd.Printf
