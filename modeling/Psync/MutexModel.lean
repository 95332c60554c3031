import Psync.Platform

/-! The 4-byte adaptive mutex: `lock`, `try_lock` and `unlock` on one state word, with the
contended paths. Bit 0 of the word is the locked flag; the bits above count the registered
waiters. -/

namespace Psync.Mutex

open Concurrency

def unlocked : U32 := 0x00000000
def lockedNoWaiters : U32 := 0x00000001
def lockedFlag : U32 := 0x00000001
def waiterIncrement : U32 := 0x00000002

/-- The next atomic step of a thread, with the local variables that are live there. -/
inductive Pc
  /-- Outside every call. -/
  | idle
  /-- `lock`: the CAS of the fast path. -/
  | lockFast
  /-- `try_lock`: its CAS. -/
  | tryLock
  /-- `try_lock` has returned `result`. -/
  | tried (result : Bool)
  /-- `lock_contended`: the CAS in iteration `i` of the spin loop. -/
  | spin (i spinCount backoff : ℕ)
  /-- `lock_contended`: the `fetch_add` that registers the waiter. -/
  | register
  /-- `lock_contended`: the load at the head of the inner loop. -/
  | waitLoad
  /-- `lock_contended`: the CAS that acquires and removes the waiter. -/
  | waitCas (current : U32)
  /-- `lock_contended`: `futex::wait`. -/
  | waitFutex (current : U32)
  /-- `unlock`: the first load. -/
  | unlockLoad
  /-- `unlock`: the CAS of the fast path. -/
  | unlockCas
  /-- `unlock`: the load after the failed CAS. -/
  | unlockReload
  /-- `unlock_contended`: the `fetch_and`. -/
  | unlockClear
  /-- `unlock_contended`: `futex::wake`. -/
  | unlockWake
  deriving DecidableEq

/-- A thread: whether it owns the mutex, and where it is. Ownership begins at the step that sets
the locked flag and ends at the step that clears it. -/
structure Thread where
  held : Bool
  pc : Pc
  deriving DecidableEq

def Thread.at (th : Thread) (pc : Pc) : Thread := { th with pc := pc }

/-- A call that a client begins, or `run` for the next step inside a call. -/
inductive Label
  | lock
  | tryLock
  | unlock
  | run
  deriving DecidableEq

/-- The way from one iteration of the spin loop to the next, or to the registration. -/
def afterSpin (i spinCount backoff : ℕ) : Pc :=
  if i + 1 < backoff then .spin (i + 1) spinCount backoff
  else if spinCount + 1 < futexThreshold then
    .spin 0 (spinCount + 1) (min (backoff * backoffMultiplier) backoffMax)
  else .register

/-- One atomic step of the code on the state word. -/
def run (state : U32) (th : Thread) : Option (U32 × Thread) :=
  match th.pc with
  | .lockFast =>
      some (if state = unlocked then (lockedNoWaiters, ⟨true, .idle⟩)
        else (state, th.at (.spin 0 0 spinInitial)))
  | .tryLock =>
      some (if state = unlocked then (lockedNoWaiters, ⟨true, .tried true⟩) else (state, th.at (.tried false)))
  | .tried _ => some (state, th.at .idle)
  | .spin i spinCount backoff =>
      some (if state = unlocked then (lockedNoWaiters, ⟨true, .idle⟩)
        else (state, th.at (afterSpin i spinCount backoff)))
  | .register => some (state + waiterIncrement, th.at .waitLoad)
  | .waitLoad =>
      some (state, th.at (if state &&& lockedFlag = 0 then .waitCas state else .waitFutex state))
  | .waitCas current =>
      some (if state = current then ((current - waiterIncrement) ||| lockedFlag, ⟨true, .idle⟩)
        else (state, th.at .waitLoad))
  | .unlockLoad =>
      some (state, th.at (if state = lockedNoWaiters then .unlockCas else .unlockClear))
  | .unlockCas =>
      some (if state = lockedNoWaiters then (unlocked, ⟨false, .idle⟩)
        else (state, th.at .unlockReload))
  | .unlockReload => some (state, th.at .unlockClear)
  | .unlockClear => some (state &&& ~~~lockedFlag, ⟨false, .unlockWake⟩)
  | _ => none

/-- A client begins a call only outside every call, and `unlock` only while it owns the mutex. -/
def step (l : Label) (state : U32) (th : Thread) : Option (U32 × Thread) :=
  match l with
  | .lock => if th.pc = .idle then some (state, th.at .lockFast) else none
  | .tryLock => if th.pc = .idle then some (state, th.at .tryLock) else none
  | .unlock => if th.pc = .idle ∧ th.held = true then some (state, th.at .unlockLoad) else none
  | .run => run state th

/-- `futex::wait(&state_, current)`. The loop loads the word again whenever it returns. -/
def wait (th : Thread) : Option (WaitCall U32 Thread Unit) :=
  match th.pc with
  | .waitFutex current => some (futex.wait () id current (th.at .waitLoad))
  | _ => none

/-- `futex::wake(&state_, 1)`. -/
def wake (th : Thread) : Option (WakeCall Thread Unit) :=
  match th.pc with
  | .unlockWake => some (futex.wake () 1 (th.at .idle))
  | _ => none

def program (Tid : Type*) : Program Tid U32 Thread Unit Label where
  mem := unlocked
  start := ⟨false, .idle⟩
  step _ := step
  wait := wait
  wake := wake

/-- The thread has executed the registering `fetch_add` and has not acquired since. -/
def Thread.registered (th : Thread) : Bool :=
  match th.pc with
  | .waitLoad | .waitCas _ | .waitFutex _ => true
  | _ => false

/-- The thread is between the `fetch_and` and the `futex::wake` of `unlock_contended`. -/
def Thread.waking (th : Thread) : Bool := th.pc = .unlockWake

/-- The thread is inside `lock`. -/
def Thread.locking (th : Thread) : Bool :=
  match th.pc with
  | .lockFast | .spin .. | .register | .waitLoad | .waitCas _ | .waitFutex _ => true
  | _ => false

/-- The thread is inside `unlock`. -/
def Thread.unlocking (th : Thread) : Bool :=
  match th.pc with
  | .unlockLoad | .unlockCas | .unlockReload | .unlockClear | .unlockWake => true
  | _ => false

theorem Thread.locking_of_registered {th : Thread} (h : th.registered = true) :
    th.locking = true := by
  obtain ⟨held, pc⟩ := th
  cases pc <;> first | rfl | cases h

end Psync.Mutex
