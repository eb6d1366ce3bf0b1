import Xv6.Memmove
import Xv6.Proc.Zombie
import Xv6.Proc.Resources
import Xv6.Proc.KernelStack
import Xv6.Proc.Pids
import Xv6.Proc.ExecCommit
import Xv6.Proc.Rows
import Xv6.Proc.Slots
import Xv6.Pipe.Wakeup
import Xv6.User.Confined
import Xv6.User.Accepted
import Xv6.User.Sbrk
import Xv6.Log.History
import Xv6.Log.Admission
import Xv6.Bio.Transparent
import Xv6.Sleep.Nesting
import Xv6.Sleep.NoMiss
import Xv6.Mkfs.Readback
import Xv6.Vm.Faithful
import Xv6.Vm.Fork
import Xv6.Vm.Copyout
import Xv6.Vm.Translate
import Xv6.Console.Discipline
import Xv6.Umalloc.Sbrk
import Xv6.Grep.Run
import Xv6.Dev.Mp
import Xv6.Dev.Ide
import Xv6.Shell.Terminate
import Xv6.Fs.Path
import Xv6.Proc.Exclusive
import Xv6.Vm.Isolation
