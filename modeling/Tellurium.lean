import Tellurium.Gui.Render
import Tellurium.Gui.ClipAlgebra
import Tellurium.Gui.WindowEvents
import Tellurium.Gui.Drag
import Tellurium.Gui.PointerTrail
import Tellurium.Gui.HitTest
import Tellurium.Gui.DirtyRegions
import Tellurium.Gui.Blend
import Tellurium.Memory.Pmm
import Tellurium.Memory.PmmScan
import Tellurium.Memory.BootMap
import Tellurium.Memory.SlabBooks
import Tellurium.Memory.Realloc
import Tellurium.User.Contracts
import Tellurium.Sockets.Lifecycle
import Tellurium.Sockets.Wakeup
import Tellurium.Sockets.FailedConnect
import Tellurium.Arch.Join
import Tellurium.Arch.ReadyQueue
import Tellurium.Arch.Preempt
import Tellurium.Arch.SyscallEntry
import Tellurium.Arch.Kterminal
import Tellurium.Arch.Idt
import Tellurium.Arch.Isolation
import Tellurium.Arch.Mmap
import Tellurium.Apps.ElfFlags
import Tellurium.Apps.ElfBounds
import Tellurium.Fs.TmpfsData
import Tellurium.Fs.ArchiveWalk
import Tellurium.Fs.Extraction
import Tellurium.Fs.PathBuffers
import Tellurium.Fs.Create
import Tellurium.Syscalls.Seek
import Tellurium.Syscalls.OpenTrace
import Tellurium.Syscalls.LockBalance
import Tellurium.LibTellur.DevPoll
import Tellurium.LibTellur.PpmReader
import Tellurium.Klib.Vector
import Tellurium.Flibc.Print
import Tellurium.Flibc.Utoa
import Tellurium.Flibc.Strtok
import Tellurium.Modules.Printout
import Tellurium.Devices.Ioapic
