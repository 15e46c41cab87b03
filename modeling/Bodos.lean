import Bodos.Lib.Transition
import Bodos.Lib.Memory
import Bodos.Lib.BinaryHeap
import Bodos.Lib.Fallible
import Bodos.Lib.X86
import Bodos.Containers.PriorityQueue
import Bodos.Containers.PriorityQueueRefinement
import Bodos.Arch.Stack
import Bodos.Arch.Ctxswitch
import Bodos.Proc.Model
import Bodos.Proc.View
import Bodos.Proc.Simulation
import Bodos.Proc.Consistency
import Bodos.Proc.Stopped
import Bodos.Proc.NonEmpty
import Bodos.Sched.Preemption
import Bodos.Paging.Model
import Bodos.Lib.Runs
import Bodos.Paging.Search
import Bodos.Paging.Marking
import Bodos.Paging.Soundness
import Bodos.Paging.Bookkeeping
import Bodos.Lib.PageTables
import Bodos.Paging.AddressMap
import Bodos.Lib.FreeList
import Bodos.Mem.Allocator
import Bodos.Mem.Chunks
import Bodos.Mem.Heap
import Bodos.Mem.FreeOrder
import Bodos.Arch.Contexts
import Bodos.Lib.LinkedList
import Bodos.Containers.Queue
import Bodos.Containers.QueueRefinement
import Bodos.Containers.UnorderedMap
import Bodos.Containers.TieOrder
import Bodos.Sched.RoundRobin
import Bodos.Proc.Entries
import Bodos.Proc.StackOwnership
import Bodos.Proc.Table
import Bodos.Proc.Slots
import Bodos.Arch.Terminal
import Bodos.Arch.TerminalWindow
import Bodos.Sched.Step
import Bodos.Proc.ReadyCount
import Bodos.Proc.Refusal
import Bodos.Paging.Completeness
import Bodos.Paging.BootTables
import Bodos.Arch.Interrupts
import Bodos.Mem.Frame
import Bodos.Mem.FirstFit
import Bodos.Mem.Undo
import Bodos.Proc.CreateFailure
import Bodos.Lib.BitMixing
import Bodos.Containers.IntegerHash
import Bodos.Paging.FreeRange
import Bodos.Containers.HeapCheck
import Bodos.Containers.QueueGrowth
import Bodos.Containers.MapPredicate
import Bodos.Arch.TerminalCursor
import Bodos.Lib.Numeral
import Bodos.Text.Strings
import Bodos.Text.Kprintf
import Bodos.Text.Formatting
import Bodos.Lib.Pic8259
import Bodos.Arch.IrqProtocol
import Bodos.Lib.X86Trap
import Bodos.Arch.TrapFrame
import Bodos.Lib.Descriptors
import Bodos.Arch.DescriptorTables
import Bodos.Mem.KernelMemory
import Bodos.Mem.BoundedLoad
import Bodos.Mem.MemoryTester
import Bodos.Mem.Objects
import Bodos.Containers.HeapQueue
import Bodos.Containers.SharedHeap
import Bodos.Containers.MaxHeapTester
import Bodos.Lib.Uart
import Bodos.Arch.SerialPort
import Bodos.Arch.Console
