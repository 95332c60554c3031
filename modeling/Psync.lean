import Psync.MutexWakeup
import Psync.SharedWakeup
import Psync.TaggedWakeup
import Psync.TaggedPointer
import Psync.MicrolockWakeup
import Psync.SeqlockSnapshot
import Psync.BarrierTeam
import Psync.CondvarBroadcast
import Psync.CondvarWakeup
import Psync.LinkedLists
import Psync.LinkedLifetime
import Psync.SpscFifo
import Psync.IntrusiveFifo
import Psync.MpscFifo
import Psync.MpscClose
import Psync.EpochReclaim
import Psync.OnceState
import Psync.SemaphoreState
import Psync.BatonWakeup
import Psync.LatchState
import Psync.TicketFifo
import Psync.FallbackWake
import Psync.LocksOwnership
import Psync.TaggedExchange
import Psync.MpscEnd
import Psync.EpochQuiescent
import Psync.EpochFreed
import Psync.EpochTso
import Psync.MpscSize
import Psync.FutexTimeout
import Psync.CondvarTimeout
import Psync.RingAllocation
import Psync.TelemetryTotals
import Psync.TelemetryRegistry
import Psync.SpinlockTso
import Psync.SeqlockTso
import Psync.SpscTso
import Psync.BatchFinish
import Psync.MpscProgress
import Psync.SpscDestroy
import Psync.OnceTso
import Psync.MpscTso
