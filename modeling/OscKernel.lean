import OscKernel.Trap.Round
import OscKernel.Uart.Boot
import OscKernel.Proc.Parents
import OscKernel.Proc.Waits
import OscKernel.Proc.Interrupts
import OscKernel.Mm.Coalesce
import OscKernel.Proc.Accepted
import OscKernel.Deferred.Nesting
import OscKernel.Initrd.Lookup
import OscKernel.Vm.Mapping
import OscKernel.Deferred.Deadlines
import OscKernel.Initrd.Bounds
import OscKernel.Fdt.Property
import OscKernel.Uart.Fifo
import OscKernel.Deferred.Starts
import OscKernel.Shell.Slots
import OscKernel.Mm.Safety
import OscKernel.Mm.Startup
import OscKernel.Mm.Conserve
import OscKernel.Mm.Direct
import OscKernel.Proc.Images
import OscKernel.Proc.Forking
import OscKernel.Proc.Landing
import OscKernel.Initrd.Cat
import OscKernel.Vm.Failure
import OscKernel.Proc.Copy
import OscKernel.Proc.Loading
import OscKernel.Proc.FailedStart
import OscKernel.Proc.Current
import OscKernel.Deferred.Drain
import OscKernel.Fdt.Region
import OscKernel.Video.Display
import OscKernel.Shell.Seconds
import OscKernel.User.Sleep
import OscKernel.Proc.Hogging
import OscKernel.Uart.Tx
import OscKernel.Shell.Line
import OscKernel.Mm.Contents
import OscKernel.Boot.Start
import OscKernel.Boot.UpperHalf
import OscKernel.UserMode.Sandbox
import OscKernel.Buddy.Alloc
import OscKernel.Buddy.Reserve
