import PivotOs.Library.FirstFit
import PivotOs.Library.Runs
import PivotOs.Library.RadixTree
import PivotOs.Word
import PivotOs.Bitmap.Defs
import PivotOs.Bitmap.Reuse
import PivotOs.Bitmap.Confined
import PivotOs.Bitmap.Complete
import PivotOs.Bitmap.Initial
import PivotOs.Pmm.Defs
import PivotOs.Pmm.Frames
import PivotOs.Pmm.Init
import PivotOs.Pmm.Exclusive
import PivotOs.Pmm.Request
import PivotOs.Pmm.Usable
import PivotOs.Paging.Defs
import PivotOs.Paging.Tree
import PivotOs.Paging.Grown
import PivotOs.Paging.MapAddr
import PivotOs.Paging.SelfMap
import PivotOs.Paging.Accesses
import PivotOs.Paging.Free
import PivotOs.Acpi.Madt
import PivotOs.Acpi.Reclaim
import PivotOs.Loader.Defs
import PivotOs.Loader.MapAddr
import PivotOs.Loader.Identity
import PivotOs.Vmm.Defs
import PivotOs.Vmm.Frames
import PivotOs.Vmm.Exclusive
import PivotOs.Vmm.BootPages
import PivotOs.Vmm.Release
import PivotOs.Heap.Defs
import PivotOs.Heap.Chain
import PivotOs.Heap.Owner
import PivotOs.Thread.Defs
import PivotOs.Thread.Prepare
import PivotOs.Thread.Window
import PivotOs.Thread.Rounds
import PivotOs.Thread.SelfMap
import PivotOs.Thread.Accesses
import PivotOs.Thread.PmmBitmap
import PivotOs.Thread.Lifetime
import PivotOs.Smp.Defs
import PivotOs.Smp.Stacks
import PivotOs.Smp.Targets
import PivotOs.Smp.Trampoline
import PivotOs.Library.LinkedList
import PivotOs.Scheduler.Defs
import PivotOs.Scheduler.Lists
import PivotOs.Scheduler.Steps
import PivotOs.Scheduler.Invariant
import PivotOs.Scheduler.Placement
import PivotOs.Scheduler.Load
import PivotOs.Library.Buffer
import PivotOs.Logging
import PivotOs.Libc.Numerals
import PivotOs.Library.OutputStream
import PivotOs.Stdio.Defs
import PivotOs.Stdio.Stream
import PivotOs.Stdio.Bounds
import PivotOs.Library.SpinLock
import PivotOs.Stdio.Exclusion
import PivotOs.Framebuffer.Cells
import PivotOs.Framebuffer.Cursor
import PivotOs.Loader.Grown
import PivotOs.Loader.LoadKernel
import PivotOs.Loader.MapSegment
import PivotOs.Loader.KernelEntries
import PivotOs.Loader.Segments
import PivotOs.Paging.Unmap
import PivotOs.Bitmap.Realloc
import PivotOs.Heap.Requests
import PivotOs.Heap.Arrays
import PivotOs.Vmm.Failure
import PivotOs.Vmm.Backing
import PivotOs.Paging.Stores
import PivotOs.Loader.EntryArray
import PivotOs.Acpi.Parse
import PivotOs.Acpi.Walk
import PivotOs.Library.BitField
import PivotOs.Cpu.Ioapic
import PivotOs.Cpu.Tss
import PivotOs.Loader.Failure
import PivotOs.Paging.Confined
import PivotOs.Heap.Shared
import PivotOs.Framebuffer.Pixels
import PivotOs.Framebuffer.Backspace
import PivotOs.Framebuffer.Row
import PivotOs.Stdio.PrintfAt
import PivotOs.Libc.Canonical
import PivotOs.Pmm.Rows
import PivotOs.Library.Calendar
import PivotOs.Rtc.DayOfWeek
import PivotOs.Keyboard.Defs
import PivotOs.Keyboard.Modifiers
import PivotOs.Paging.Termination
import PivotOs.Keyboard.Typed
import PivotOs.Library.WordStack
import PivotOs.Interrupts.Defs
import PivotOs.Interrupts.Frames
import PivotOs.Interrupts.Idt
import PivotOs.Scheduler.Contexts
import PivotOs.Library.LockOrder
import PivotOs.Stdio.Deadlock
import PivotOs.Loader.Discovery
import PivotOs.Loader.Handover
import PivotOs.Loader.KernelStart
import PivotOs.Framebuffer.Picture
import PivotOs.Stdio.Console
import PivotOs.Thread.Isolation
import PivotOs.Thread.Spaces
import PivotOs.Acpi.Init
import PivotOs.Acpi.Room
import PivotOs.Acpi.Tables
