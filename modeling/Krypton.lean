import Krypton.List
import Krypton.Foundations.Runs
import Krypton.Mm.PageAllocator
import Krypton.Mm.MemoryMap
import Krypton.Foundations.Tiling
import Krypton.Heap.Kmalloc
import Krypton.Heap.Layout
import Krypton.Heap.Allocation
import Krypton.Heap.Release
import Krypton.Heap.Safety
import Krypton.Heap.Reentrancy
import Krypton.Kernel.State
import Krypton.Kernel.Code
import Krypton.Kernel.Machine
import Krypton.Kernel.Steps
import Krypton.Kernel.Nesting
import Krypton.Kernel.Outermost
import Krypton.Kernel.Idle
import Krypton.Kernel.Sections
import Krypton.Kernel.Keyboard
import Krypton.Kernel.Balance
import Krypton.Kernel.Blocks
import Krypton.Kernel.Leaks
import Krypton.Device.Answers
import Krypton.Device.Echo
import Krypton.Device.Terminal
import Krypton.Heap.Coalescing
import Krypton.Heap.Requests
import Krypton.Heap.Splits
import Krypton.Mm.Counter
import Krypton.Sequences
import Krypton.Ends
import Krypton.Heap.Backing
import Krypton.Heap.RoundTrip
import Krypton.Heap.Exhaustion
import Krypton.Heap.Premises
import Krypton.Mm.Permissions
import Krypton.Kernel.Timer
import Krypton.Mm.Cloning
import Krypton.Device.Registry
import Krypton.Kernel.Places
import Krypton.Device.Numbers
import Krypton.Priorities
import Krypton.Cpu
import Krypton.Device.Line
import Krypton.Kernel.Delay
import Krypton.Kernel.Destroy
import Krypton.Kernel.Contexts
import Krypton.Kernel.Dispatch
import Krypton.Device.Clock
import Krypton.Heap.Listing
import Krypton.Interrupts.Frames
import Krypton.Interrupts.Idt
import Krypton.Text.Printers
import Krypton.Foundations.Simulation
import Krypton.Kernel.Refinement
import Krypton.Kernel.Waits
