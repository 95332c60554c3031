import Psync.RunBatch
import Psync.SpinlockModel
import Psync.MutexModel
import Psync.TicketModel
import Psync.MicrolockModel
import Psync.SharedModel

/-! `batch_execute` and its guards: the constructor of a `BatchGuard` calls `lock`, and its destructor
calls `unlock`, also when the function of the batch has thrown. `batch_execute_exclusive` and
`batch_execute_shared` do so on a `SharedMutex`, in one of two modes.

A guard is the code of its lock with the calls that the guard makes, and `LockCode.batches` the threads
that execute batches with it. -/

namespace Psync.Batch

open Concurrency

variable (Tid : Type*)

/-- The phase of a thread inside `lock`, and of one inside `unlock`. A thread that takes the lock a second
time has none. -/
def locking (held : Bool) : Option (LockPhase Unit) := if held then none else some (.acquiring ())

def releasing (inside : Bool) : Option (LockPhase Unit) := if inside then some (.releasing ()) else none

def resting (held : Bool) : LockPhase Unit := if held then .holding () else .out

def mutexPhase (th : Mutex.Thread) : Option (LockPhase Unit) :=
  match th.pc with
  | .idle => some (resting th.held)
  | .lockFast | .spin .. | .register | .waitLoad | .waitCas _ | .waitFutex _ => locking th.held
  | .unlockLoad | .unlockCas | .unlockReload | .unlockClear => releasing th.held
  | .unlockWake => releasing !th.held
  | .tryLock | .tried _ => none

/-- `BatchGuard<Mutex>`. -/
def mutexGuard : LockCode Tid U32 Mutex.Thread Unit Mutex.Label Unit where
  code := Mutex.program Tid
  acquire _ := .lock
  release _ := .unlock
  run := .run
  idle th := th.pc = .idle
  phase := mutexPhase

def spinLockPhase (th : SpinLock.Thread) : Option (LockPhase Unit) :=
  match th.pc with
  | .idle => some (resting th.held)
  | .lockFast | .load _ | .lockCas _ => locking th.held
  | .unlock => releasing th.held
  | .tryCas | .tried _ => none

/-- `BatchGuard<SpinLock>`. -/
def spinLockGuard : LockCode Tid U32 SpinLock.Thread Empty SpinLock.Label Unit where
  code := SpinLock.program Tid
  acquire _ := .lock
  release _ := .unlock
  run := .run
  idle th := th.pc = .idle
  phase := spinLockPhase

def ticketLockPhase (th : TicketLock.Thread) : Option (LockPhase Unit) :=
  match th.pc with
  | .idle => some (resting th.held)
  | .draw | .spin _ => locking th.held
  | .unlock => releasing th.held
  | .tryServing | .tryNext _ | .tryCas _ | .tried _ => none

/-- `BatchGuard<TicketLock>`. -/
def ticketLockGuard : LockCode Tid TicketLock.Mem TicketLock.Thread Empty TicketLock.Label Unit where
  code := TicketLock.program Tid
  acquire _ := .lock
  release _ := .unlock
  run := .run
  idle th := th.pc = .idle
  phase := ticketLockPhase

variable {Tid}

/-- The phase in the calls on the lock at `this`. -/
def microLockPhase (this : U64) (th : MicroLock.Thread Tid) : Option (LockPhase Unit) :=
  match th.pc with
  | .idle => some (resting (th.held this))
  | .lockCas a | .spinCas a _ | .park a _ | .retryCas a =>
      if a = this then locking (th.held this) else none
  | .unlockStore a => if a = this then releasing (th.held this) else none
  | .unpark a _ => if a = this then releasing !th.held this else none
  | .tryCas _ | .tried .. => none

variable (Tid) in
/-- `BatchGuard<MicroLock>` on the lock at `this`. -/
def microLockGuard [DecidableEq Tid] (this : U64) :
    LockCode Tid (MicroLock.Mem Tid) (MicroLock.Thread Tid) Tid MicroLock.Label Unit where
  code := MicroLock.program Tid
  acquire _ := .lock this
  release _ := .unlock this
  run := .run
  idle th := th.pc = .idle
  phase := microLockPhase this

/-! ### Batches on a `SharedMutex` -/

inductive SharedMode
  | exclusive
  | shared
  deriving DecidableEq

def SharedMode.writes : SharedMode → Bool
  | exclusive => true
  | shared => false

def sharedResting (th : SharedMutex.Thread) : Option (LockPhase SharedMode) :=
  match th.held, th.shared with
  | false, 0 => some .out
  | true, 0 => some (.holding .exclusive)
  | false, 1 => some (.holding .shared)
  | _, _ => none

def sharedPhase (th : SharedMutex.Thread) : Option (LockPhase SharedMode) :=
  match th.pc with
  | .idle => sharedResting th
  | .lockFast | .register | .waitLoad .. | .waitCas .. | .waitFutex _ =>
      if sharedResting th = some .out then some (.acquiring .exclusive) else none
  | .sharedLoad false | .sharedCas false _ | .sharedWaitLoad .. | .sharedWaitCas .. | .sharedWaitFutex _ =>
      if sharedResting th = some .out then some (.acquiring .shared) else none
  | .unlockClear => if sharedResting th = some (.holding .exclusive) then some (.releasing .exclusive) else none
  | .unlockWake => if sharedResting th = some .out then some (.releasing .exclusive) else none
  | .unlockSharedSub =>
      if sharedResting th = some (.holding .shared) then some (.releasing .shared) else none
  | .unlockSharedWake => if sharedResting th = some .out then some (.releasing .shared) else none
  | .tryLock | .tried _ | .sharedLoad true | .sharedCas true _ | .triedShared _ => none

variable (Tid) in
/-- `UniqueLockGuard`, or `ExclusiveBatchGuard`, and `SharedLockGuard`, or `SharedBatchGuard`. -/
def sharedMutexGuard : LockCode Tid U32 SharedMutex.Thread Unit SharedMutex.Label SharedMode where
  code := SharedMutex.program Tid
  acquire
    | .exclusive => .lock
    | .shared => .lockShared
  release
    | .exclusive => .unlock
    | .shared => .unlockShared
  run := .run
  idle th := th.pc = .idle
  phase := sharedPhase

/-- At most 65535 shared holds and 32767 registered writers. -/
def SharedFits [Fintype Tid] (s : Config Tid U32 SharedMutex.Thread Unit) : Prop :=
  tally SharedMutex.Thread.shared s.thread ≤ SharedMutex.maxReaders ∧
    count SharedMutex.Thread.registered s.thread ≤ SharedMutex.maxWaitingWriters

instance [Fintype Tid] (s : Config Tid U32 SharedMutex.Thread Unit) : Decidable (SharedFits s) :=
  instDecidableAnd

/-! ### What batches promise -/

variable {M Th Addr L Mode K X : Type*} [DecidableEq Tid] [Fintype Tid] [DecidableEq Addr]

/-- The state of batches, and those that have ended. -/
abbrev State (Tid M Th Addr Mode K X : Type*) :=
  Config Tid (M × X) (BatchThread Th Mode K) Addr × List (Concurrency.Batch Tid Mode K)

/-- All runs of batches with the guard are serializable, whatever their functions do to the data. -/
def Serializes (C : LockCode Tid M Th Addr L Unit) : Prop :=
  ∀ (K X : Type) (func : K × X → Option (K × X)) (x : X) (w : State Tid M Th Addr Unit K X),
    (C.observed (fun _ => func) x).Reachable anyStep w →
      Serializable (fun _ => func) (fun _ => true) x (fun t => (w.1.thread t).stage) w.1.mem.2 w.2

/-- The states of batches on a `SharedMutex`. -/
abbrev SharedState (Tid K X : Type*) := State Tid U32 SharedMutex.Thread Unit SharedMode K X

/-- The documented limits of the lock. -/
def sharedLimits : StepCond (SharedState Tid K X) (Act Tid (BatchLabel SharedMode K)) :=
  fun _ _ w => SharedFits (LockCode.lockState w.1)

instance (w : SharedState Tid K X) (a : Act Tid (BatchLabel SharedMode K)) (w' : SharedState Tid K X) :
    Decidable (sharedLimits w a w') :=
  inferInstanceAs (Decidable (SharedFits (LockCode.lockState w'.1)))

end Psync.Batch
