import Xv6Container.Bio.Coherence
import Xv6Container.Console.Discipline
import Xv6Container.Fs.ByteArrays
import Xv6Container.Ide
import Xv6Container.Kernel.Atomic
import Xv6Container.Kernel.Copies
import Xv6Container.Kernel.FailedOpen
import Xv6Container.Kernel.Leaks
import Xv6Container.Kernel.Names
import Xv6Container.Kernel.Owner
import Xv6Container.Kernel.SchedLog
import Xv6Container.Kernel.Unlinked
import Xv6Container.Log.Admission
import Xv6Container.Mp
import Xv6Container.Proc.Family
import Xv6Container.Proc.Ids
import Xv6Container.Proc.Killed
import Xv6Container.Proc.Listing
import Xv6Container.Proc.Trace
import Xv6Container.Strings
import Xv6Container.Syscall.Added
import Xv6Container.User.Grep
import Xv6Container.User.Heap
import Xv6Container.User.Parse
import Xv6Container.Vm.Accounts
import Xv6Container.Vm.Program
