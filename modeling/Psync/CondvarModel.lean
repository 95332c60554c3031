import Psync.MutexModel

/-! The condition variable over the mutex: `wait(mutex)`, `signal`, `broadcast` and
`broadcast(mutex)`, beside ordinary calls on the mutex. The two futex words are `seq_` and the
state word of the mutex. A call of the mutex inside `wait` runs the code of the mutex. -/

namespace Psync.ConditionVariable

open Concurrency

/-- `state_` of the mutex and `seq_`. -/
structure Mem where
  mutexState : U32
  seq : U32
  deriving DecidableEq

inductive Addr
  | mutex
  | seq
  deriving DecidableEq

/-- The next atomic step of a thread in the code of the condition variable. -/
inductive Pc
  /-- Outside the condition variable. -/
  | idle
  /-- `wait`: the load of `seq_`. -/
  | waitLoad
  /-- `wait`: inside `mutex.unlock()`. -/
  | waitUnlock (seq : U32)
  /-- `wait`: `futex::wait`. -/
  | waitFutex (seq : U32)
  /-- `wait`: inside `mutex.lock()`. -/
  | waitLock
  | signalAdd
  | signalWake
  | broadcastAdd
  | broadcastWake
  /-- `broadcast(mutex)`: the `fetch_add`. -/
  | requeueAdd
  /-- `broadcast(mutex)`: `futex::requeue`. -/
  | requeueCall (oldSeq : U32)
  deriving DecidableEq

structure Thread where
  mutex : Mutex.Thread
  pc : Pc
  deriving DecidableEq

inductive Label
  | lock
  | tryLock
  | unlock
  | wait
  | signal
  | broadcast
  | broadcastMutex
  | run
  deriving DecidableEq

def Thread.at (th : Thread) (pc : Pc) : Thread := { th with pc := pc }

/-- A thread whose call of the mutex has returned goes on in `wait`, or is back with its client. -/
def Thread.settle (th : Thread) : Thread :=
  if th.mutex.pc = .idle then
    match th.pc with
    | .waitUnlock seq => th.at (.waitFutex seq)
    | .waitLock => th.at .idle
    | _ => th
  else th

/-- The thread is outside every call. -/
def Thread.free (th : Thread) : Prop := th.pc = .idle ∧ th.mutex.pc = .idle

instance (th : Thread) : Decidable th.free := instDecidableAnd

/-- One atomic step of a call of the mutex. -/
def mutexStep (l : Mutex.Label) (m : Mem) (th : Thread) : Option (Mem × Thread) :=
  (Mutex.step l m.mutexState th.mutex).map fun r =>
    ({ m with mutexState := r.1 }, { th with mutex := r.2 }.settle)

/-- The `fetch_add` of the three notifications. -/
def addSeq (m : Mem) (th : Thread) (pc : Pc) : Mem × Thread := ({ m with seq := m.seq + 1 }, th.at pc)

/-- One atomic step inside a call. -/
def run (m : Mem) (th : Thread) : Option (Mem × Thread) :=
  match th.pc with
  | .idle | .waitUnlock _ | .waitLock => mutexStep .run m th
  | .waitLoad => some (m, ⟨th.mutex.at .unlockLoad, .waitUnlock m.seq⟩)
  | .signalAdd => some (addSeq m th .signalWake)
  | .broadcastAdd => some (addSeq m th .broadcastWake)
  | .requeueAdd => some (addSeq m th (.requeueCall m.seq))
  | .waitFutex _ | .signalWake | .broadcastWake | .requeueCall _ => none

/-- A client begins a call only outside every call; `unlock` and `wait` need the mutex. -/
def step (l : Label) (m : Mem) (th : Thread) : Option (Mem × Thread) :=
  match l with
  | .lock => if th.free then mutexStep .lock m th else none
  | .tryLock => if th.free then mutexStep .tryLock m th else none
  | .unlock => if th.free then mutexStep .unlock m th else none
  | .wait => if th.free ∧ th.mutex.held = true then some (m, th.at .waitLoad) else none
  | .signal => if th.free then some (m, th.at .signalAdd) else none
  | .broadcast => if th.free then some (m, th.at .broadcastAdd) else none
  | .broadcastMutex => if th.free then some (m, th.at .requeueAdd) else none
  | .run => run m th

/-- `futex::wait` in `wait`, or in `lock` of the mutex. -/
def wait (th : Thread) : Option (WaitCall Mem Thread Addr) :=
  match th.pc with
  | .waitFutex seq => some (futex.wait .seq Mem.seq seq ⟨th.mutex.at .lockFast, .waitLock⟩)
  | _ => (Mutex.wait th.mutex).map fun w =>
      { addr := .mutex, holds := fun m => w.holds m.mutexState, after := { th with mutex := w.after } }

/-- `futex::wake` in `signal` and `broadcast`, or in `unlock` of the mutex. -/
def wake (th : Thread) : Option (WakeCall Thread Addr) :=
  match th.pc with
  | .signalWake => some (futex.wake .seq 1 (th.at .idle))
  | .broadcastWake => some (futex.wakeAll .seq (th.at .idle))
  | _ => (Mutex.wake th.mutex).map fun w =>
      { addr := .mutex, count := w.count, after := { th with mutex := w.after }.settle }

/-- `futex::requeue` in `broadcast(mutex)`. -/
def requeue (th : Thread) : Option (RequeueCall Mem Thread Addr) :=
  match th.pc with
  | .requeueCall oldSeq =>
      some (futex.requeue .seq .mutex 0x7fffffff Mem.seq oldSeq (th.at .idle))
  | _ => none

def program (Tid : Type*) : Program Tid Mem Thread Addr Label where
  mem := ⟨Mutex.unlocked, 0⟩
  start := ⟨⟨false, .idle⟩, .idle⟩
  step _ := step
  wait := wait
  wake := wake
  requeue := requeue

/-- The thread is inside `broadcast(mutex)`. -/
def Thread.broadcasting (th : Thread) : Bool :=
  match th.pc with
  | .requeueAdd | .requeueCall _ => true
  | _ => false

end Psync.ConditionVariable
