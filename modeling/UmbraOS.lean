import UmbraOS.DoublyLinkedListRuns
import UmbraOS.PmmRuns
import UmbraOS.PmmBounds
import UmbraOS.VmmMap
import UmbraOS.SchedulerRuns
import UmbraOS.SchedulerTermination
import UmbraOS.VfsFile
import UmbraOS.VfsBounds
import UmbraOS.HeapHistory
import UmbraOS.SocketBounds
import UmbraOS.UdpRoundTrip
import UmbraOS.VfsTree
import UmbraOS.E1000Receive
import UmbraOS.PacketHandler
import UmbraOS.MmapIsolation
import UmbraOS.SpaceRuns
import UmbraOS.TaskListRing
import UmbraOS.KernelRegisters
import UmbraOS.KernelTcb
import UmbraOS.SchedulerFairness
import UmbraOS.KernelStack
import UmbraOS.InitramfsTree
import UmbraOS.VfsShape
import UmbraOS.DirectMapBitmap
import UmbraOS.Clock
import UmbraOS.RingConsumer
import UmbraOS.E1000Transmit
import UmbraOS.PmmInit
import UmbraOS.TerminalText
import UmbraOS.FileHandles
import UmbraOS.MappedFlags
import UmbraOS.ElfSafety
import UmbraOS.ElfLoad
import UmbraOS.IcmpSocket
import UmbraOS.ElfImage
import UmbraOS.DestroyCalls
import UmbraOS.PmmUsable
import UmbraOS.KernelExit
import UmbraOS.HeapStart
import UmbraOS.DoublyLinkedListChain
import UmbraOS.TaskHandles
import UmbraOS.HashBuckets
import UmbraOS.PathCalls
import UmbraOS.WorkingDirectory
import UmbraOS.ReadEntries
import UmbraOS.RingbufferQueue
import UmbraOS.StringHashMapChains
import UmbraOS.VfsRead
import UmbraOS.PathTokens
import UmbraOS.VfsGrowth
import UmbraOS.Console
import UmbraOS.HeapRefusal
import UmbraOS.StrcatBounds
import UmbraOS.OpenFlags
import UmbraOS.SocketCalls
import UmbraOS.VmmQuery
import UmbraOS.StringCompare
import UmbraOS.Pci
import UmbraOS.IcmpSend
import UmbraOS.Format
import UmbraOS.Printf
import UmbraOS.TerminalPixels
import UmbraOS.TerminalSplit
import UmbraOS.TerminalNarrow
import UmbraOS.FormatNumbers
import UmbraOS.Memmove
import UmbraOS.Keyboard
import UmbraOS.Spinlock
import UmbraOS.DrawBuffer
import UmbraOS.SchedulerBoot
import UmbraOS.SchedulerBootRuns
import UmbraOS.Datagrams
import UmbraOS.DescriptorTables
import UmbraOS.NetStack
import UmbraOS.Preemption
import UmbraOS.SyscallGate
import UmbraOS.KernelKeys
import UmbraOS.KeyboardReads
import UmbraOS.KeyboardRuns
import UmbraOS.InitialStack
import UmbraOS.TaskCreate
import UmbraOS.TaskStart
import UmbraOS.LockTasks
import UmbraOS.LockFlags
