import NoobKernel.Verification.Buddy.Correctness
import NoobKernel.Verification.Slab.Correctness
import NoobKernel.Verification.Futex.Correctness
import NoobKernel.Verification.Pipe.Fifo
import NoobKernel.Verification.Sched.Wait4
import NoobKernel.Verification.Mmap.Fork
import NoobKernel.Verification.Mmap.Threads
import NoobKernel.Verification.Files.Accounts
import NoobKernel.Verification.Dcache.Frame
import NoobKernel.Verification.Icache.Identity
import NoobKernel.Verification.Tree.Correctness
import NoobKernel.Verification.Exec.Correctness
import NoobKernel.Verification.Path.Correctness
import NoobKernel.Verification.Ext4.Rename
import NoobKernel.Verification.Misc.RadixTree
import NoobKernel.Verification.Bcache.Shared
import NoobKernel.Verification.Ext4.Evict
import NoobKernel.Verification.Time.Confined
import NoobKernel.Verification.Pipe.Progress
import NoobKernel.Verification.Misc.Sendfile
import NoobKernel.Verification.Files.Pipe2
import NoobKernel.Verification.Ext4.Superblock
import NoobKernel.Verification.Namespace.Getcwd
import NoobKernel.Verification.Mmap.Vma
import NoobKernel.Verification.Bcache.Faults
import NoobKernel.Verification.Misc.Lz4
import NoobKernel.Verification.Misc.Hashtable
import NoobKernel.Verification.Misc.SyscallTable
