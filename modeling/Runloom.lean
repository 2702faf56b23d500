import Runloom.Deque
import Runloom.HandleTable.Safety
import Runloom.Pending.Safety
import Runloom.ParkWake
import Runloom.Netpoll.CommitSafety
import Runloom.Netpoll.ArmSafety
import Runloom.Netpoll.SignalSafety
import Runloom.WakeState.Safety
import Runloom.SimpleQueue.Safety
import Runloom.BlockPool
import Runloom.Admission.Safety
import Runloom.OffloadHubs.Safety
import Runloom.Parker.Safety
import Runloom.IoUring.Safety
import Runloom.Context.Safety
import Runloom.StackArena.Safety
import Runloom.Task.Safety
import Runloom.TlsStream.Safety
import Runloom.BlockingCall
import Runloom.StackGrow.Refinement
import Runloom.StreamTransport.Safety
import Runloom.TcpConn.Safety
import Runloom.Select.Safety
import Runloom.HubQueue.Safety
import Runloom.CoRLock.Refinement
import Runloom.CompletionQueue
import Runloom.Executor.Safety
import Runloom.Multishot.Safety
import Runloom.ProtocolServer
import Runloom.RWMutex
import Runloom.SemLock.Safety
import Runloom.Semaphore
import Runloom.SubmitQueue
import Runloom.CoCondition.Safety
import Runloom.CoEvent.Safety
import Runloom.CoFMutex.Safety
import Runloom.CoSemaphore.Safety
import Runloom.OffloadJob.Safety
import Runloom.SingleFlight.Safety
import Runloom.ThreadPool
import Runloom.Watch
import Runloom.CoEvent.Untimed
import Runloom.JoinSet.Safety
import Runloom.PumpKick
import Runloom.Netpoll.ArmCacheSafety
import Runloom.HandleTable.SlotSafety
import Runloom.Wakep.Safety
import Runloom.SleepSignal.Safety
import Runloom.Chan.ReferenceSafety
import Runloom.ReadyRing
import Runloom.SleepHeap
import Runloom.TimerHeap
import Runloom.Slab.Safety
import Runloom.ParkerPool.SweepSafety
import Runloom.ParkerPool.ExpirySafety
import Runloom.DnsResolve
import Runloom.BulkSpawn
import Runloom.DoneCallbacks
import Runloom.CoSelect
import Runloom.Context.Deadline
import Runloom.Timer.Silence
import Runloom.Executor.ShutdownSafety
import Runloom.StreamRead.Safety
import Runloom.LoopQueue
import Runloom.SimPump
import Runloom.StreamWrite
import Runloom.StrideWalk
import Runloom.CoroPool
import Runloom.StackPool.Live
import Runloom.Sendfile
import Runloom.IoRunner
import Runloom.Datagram
import Runloom.LockRank
import Runloom.OnceValue
