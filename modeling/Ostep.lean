import Ostep.Library.Machine
import Ostep.Library.Ring
import Ostep.Library.Memory
import Ostep.Library.Mutex
import Ostep.Library.Count
import Ostep.Library.Circle
import Ostep.Library.History
import Ostep.Library.Balance
import Ostep.Library.BitField
import Ostep.Library.Patch
import Ostep.Library.Fifo
import Ostep.Library.Submask
import Ostep.Library.Lines
import Ostep.Construction.PacketProc
import Ostep.Proof.PacketProc.Move
import Ostep.Proof.PacketProc.Ownership
import Ostep.Proof.PacketProc.Delivery
import Ostep.Proof.PacketProc.Mirror
import Ostep.Construction.PacketFile
import Ostep.Proof.PacketFile
import Ostep.Construction.SparseSet
import Ostep.Proof.SparseSet.Entries
import Ostep.Proof.SparseSet.Represents
import Ostep.Proof.SparseSet.Refinement
import Ostep.Proof.SparseSet.Accounting
import Ostep.Proof.SparseSet.Universe
import Ostep.Construction.LogStore
import Ostep.Proof.LogStore.Contents
import Ostep.Proof.LogStore.Sequential
import Ostep.Proof.LogStore.Concurrent
import Ostep.Proof.LogStore.Bounds
import Ostep.Proof.LogStore.Compaction
import Ostep.Construction.BufferPool
import Ostep.Proof.BufferPool.FreeList
import Ostep.Proof.BufferPool.Init
import Ostep.Proof.BufferPool.Correctness
import Ostep.Construction.WorkerQueue
import Ostep.Proof.WorkerQueue
import Ostep.Construction.Transfer
import Ostep.Proof.Transfer.Move
import Ostep.Proof.Transfer.Locks
import Ostep.Proof.Transfer.Serial
import Ostep.Proof.Transfer.Totals
import Ostep.Construction.ReaderWriter
import Ostep.Proof.ReaderWriter.Accounts
import Ostep.Proof.ReaderWriter.Exclusion
import Ostep.Proof.ReaderWriter.Progress
import Ostep.Construction.BoundedQueue
import Ostep.Proof.BoundedQueue.Step
import Ostep.Proof.BoundedQueue.Fifo
import Ostep.Proof.BoundedQueue.Wakeups
import Ostep.Construction.Spsc
import Ostep.Proof.Spsc
import Ostep.Construction.Barrier
import Ostep.Proof.Barrier
import Ostep.Construction.EventQueue
import Ostep.Proof.EventQueue
import Ostep.Construction.ResourcePool
import Ostep.Proof.ResourcePool.Table
import Ostep.Proof.ResourcePool.Holders
import Ostep.Proof.ResourcePool.Releases
import Ostep.Construction.Counter
import Ostep.Proof.Counter.Access
import Ostep.Proof.Counter.Conservation
import Ostep.Proof.Counter.Tracking
import Ostep.Construction.ResetGuard
import Ostep.Proof.ResetGuard
import Ostep.Construction.Dispatcher
import Ostep.Proof.Dispatcher
import Ostep.Construction.ControlRegister
import Ostep.Proof.ControlRegister
import Ostep.Construction.MemBasics
import Ostep.Proof.MemBasics.Move
import Ostep.Proof.MemBasics.Set
import Ostep.Construction.IntegerParser
import Ostep.Proof.IntegerParser
import Ostep.Construction.Submasks
import Ostep.Proof.Submasks
import Ostep.Construction.PowerRing
import Ostep.Proof.PowerRing
import Ostep.Construction.IrqHandler
import Ostep.Proof.IrqHandler
import Ostep.Construction.MyTail
import Ostep.Proof.MyTail
import Ostep.Library.Locking
import Ostep.Library.Serial
import Ostep.Construction.VectorAdd
import Ostep.Library.Progress
import Ostep.Proof.VectorAdd.Atomic
import Ostep.Proof.VectorAdd.Retry
import Ostep.Construction.StatsTable
import Ostep.Proof.PacketProc.Checksum
import Ostep.Proof.PacketProc.Progress
import Ostep.Proof.StatsTable
import Ostep.Construction.Doorbell
import Ostep.Construction.Rendezvous
import Ostep.Construction.StatusRegister
import Ostep.Proof.Doorbell
import Ostep.Proof.Rendezvous
import Ostep.Proof.StatusRegister
