import Gvisor.Lib.ForwardLoop
import Gvisor.Lib.Outcome
import Gvisor.Lib.Reachable
import Gvisor.Lib.MachineInt
import Gvisor.Lib.List
import Gvisor.Syserror
import Gvisor.Bpf.Instruction
import Gvisor.Bpf.Interpreter
import Gvisor.Bpf.Safety
import Gvisor.Bpf.ProgramBuilder
import Gvisor.Bpf.Decoder
import Gvisor.Seccomp.Program
import Gvisor.Seccomp.Rules
import Gvisor.Semaphore.Set
import Gvisor.Semaphore.Registry
import Gvisor.Semaphore.Invariant
import Gvisor.Auth.IdMapSet
import Gvisor.Lib.IntervalCover
import Gvisor.Auth.IdMapSetSpec
import Gvisor.Auth.UserNamespace
import Gvisor.Lib.PEquiv
import Gvisor.Auth.Invariant
import Gvisor.Usermem.Addr
import Gvisor.Usermem.AddrRangeSeq
import Gvisor.Usermem.AddrRangeSeqSpec
import Gvisor.Usermem.Copy
import Gvisor.Mm.Memory
import Gvisor.Mm.Vma
import Gvisor.Loader.Elf
import Gvisor.Loader.Header
import Gvisor.Loader.ElfSpec
import Gvisor.Futex.Manager
import Gvisor.Futex.Invariant
import Gvisor.Segment.Set
import Gvisor.Segment.WellFormed
import Gvisor.Segment.Lookup
import Gvisor.Segment.Ops
import Gvisor.Segment.Span
import Gvisor.Segment.Slices
import Gvisor.Segment.Apply
import Gvisor.FsLock.Lock
import Gvisor.FsLock.Invariant
import Gvisor.FsLock.ComputeRange
import Gvisor.FsLock.Pointwise
import Gvisor.Fsutil.DirtySet
import Gvisor.Fsutil.FileRangeSet
import Gvisor.Memmap.MappingSet
import Gvisor.Memmap.MappingSetSpec
import Gvisor.Lib.Heap
import Gvisor.Lib.BigEndian
import Gvisor.Lib.FuelLoop
import Gvisor.Tcp.SeqNum
import Gvisor.Tcp.Receiver
import Gvisor.Tcp.ReceiveWindow
import Gvisor.Tcp.Options
import Gvisor.Tcp.OptionsSpec
import Gvisor.Lib.OrderedSet
import Gvisor.Tcp.Scoreboard
import Gvisor.Lib.HalfOpen
import Gvisor.Tcp.Sack
import Gvisor.Tcp.ScoreboardSpec
import Gvisor.Tcp.ScoreboardLoss
import Gvisor.Tcp.Sender
import Gvisor.Tcp.Reno
import Gvisor.Tcp.SenderSpec
import Gvisor.Ports.PortManager
import Gvisor.Fragmentation.Reassembler
import Gvisor.Fragmentation.Process
import Gvisor.Fragmentation.Holes
import Gvisor.Fragmentation.Complete
import Gvisor.Fragmentation.Invariant
import Gvisor.Buffer.View
import Gvisor.Header.Checksum
import Gvisor.Ipv4.Endpoint
import Gvisor.KernelPipe.Pipe
import Gvisor.KernelPipe.Queue
import Gvisor.KernelPipe.Invariant
import Gvisor.Ktime.Time
import Gvisor.Ktime.Setting
import Gvisor.Ktime.Timer
import Gvisor.FdTable.Table
import Gvisor.FdTable.Spec
import Gvisor.FdTable.Invariant
import Gvisor.Lib.Utf8
import Gvisor.Tty.Termios
import Gvisor.Tty.LineDiscipline
import Gvisor.Tty.Canonical
import Gvisor.Tty.Invariant
import Gvisor.Tty.Output
import Gvisor.Tty.Pty
import Gvisor.Futex.Wake
import Gvisor.Futex.AtomicOp
import Gvisor.Semaphore.Atomicity
import Gvisor.Sharedmem.Rx
import Gvisor.Sharedmem.RxSpec
import Gvisor.Lib.Acyclic
import Gvisor.Epoll.EventPoll
import Gvisor.Epoll.Lists
import Gvisor.Epoll.Graph
import Gvisor.Epoll.Runs
import Gvisor.Ports.Reservations
import Gvisor.Unix.Transport
import Gvisor.Unix.Stream
import Gvisor.Lib.MultiwayTree
import Gvisor.Segment.BTree
import Gvisor.Lib.MultiwayTreeEdit
import Gvisor.Segment.BTreeInsert
import Gvisor.Segment.BTreeRemove
import Gvisor.Segment.BTreeOps
