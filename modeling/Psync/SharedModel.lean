import Psync.Platform

/-! The 4-byte reader/writer lock: exclusive and shared acquisition and release on one state word.
Bit 0 is the writer flag, bits 1 to 15 count the waiting writers and bits 16 to 31 the readers. -/

namespace Psync.SharedMutex

open Concurrency

def unlocked : U32 := 0x00000000
def writerLocked : U32 := 0x00000001
def writerWaitingInc : U32 := 0x00000002
def writerWaitingMask : U32 := 0x0000FFFE
def readerShift : ℕ := 16
def readerIncrement : U32 := 0x00010000
def readerMask : U32 := 0xFFFF0000
def maxReaders : ℕ := 0x0000FFFF

/-- The largest number of waiting writers that bits 1 to 15 can count. -/
def maxWaitingWriters : ℕ := 32767

/-- The next atomic step of a thread, with the local variables that are live there. -/
inductive Pc
  /-- Outside every call. -/
  | idle
  /-- `lock`: the CAS of the fast path. -/
  | lockFast
  /-- `try_lock`: its CAS. -/
  | tryLock
  /-- `try_lock` has returned `result`. -/
  | tried (result : Bool)
  /-- `lock_contended`: the `fetch_add` that registers the writer. -/
  | register
  /-- `lock_contended`: the load at the head of the loop. -/
  | waitLoad (spinCount backoff : ℕ)
  /-- `lock_contended`: the CAS that acquires and removes the waiting writer. -/
  | waitCas (current : U32) (spinCount backoff : ℕ)
  /-- `lock_contended`: `futex::wait`. -/
  | waitFutex (current : U32)
  /-- `unlock`: the `fetch_and`. -/
  | unlockClear
  /-- `unlock`: `futex::wake_all`. -/
  | unlockWake
  /-- `lock_shared`, or `try_lock_shared` when `trying`: the load. -/
  | sharedLoad (trying : Bool)
  /-- `lock_shared`, or `try_lock_shared` when `trying`: the CAS. -/
  | sharedCas (trying : Bool) (current : U32)
  /-- `try_lock_shared` has returned `result`. -/
  | triedShared (result : Bool)
  /-- `lock_shared_contended`: the load at the head of the loop. -/
  | sharedWaitLoad (spinCount backoff : ℕ)
  /-- `lock_shared_contended`: the CAS. -/
  | sharedWaitCas (current : U32) (spinCount backoff : ℕ)
  /-- `lock_shared_contended`: `futex::wait`. -/
  | sharedWaitFutex (current : U32)
  /-- `unlock_shared`: the `fetch_sub`. -/
  | unlockSharedSub
  /-- `unlock_shared`: `futex::wake_all`. -/
  | unlockSharedWake
  deriving DecidableEq

/-- A thread: whether it owns the lock, how many shared holds it has, and where it is. -/
structure Thread where
  held : Bool
  shared : ℕ
  pc : Pc
  deriving DecidableEq

def Thread.at (th : Thread) (pc : Pc) : Thread := { th with pc := pc }

/-- The thread has just become the owner. -/
def Thread.own (th : Thread) (pc : Pc) : Thread := { th with held := true, pc := pc }

/-- The thread has just been granted one more shared hold. -/
def Thread.share (th : Thread) (pc : Pc) : Thread := { th with shared := th.shared + 1, pc := pc }

/-- A call that a client begins, or `run` for the next step inside a call. -/
inductive Label
  | lock
  | tryLock
  | unlock
  | lockShared
  | tryLockShared
  | unlockShared
  | run
  deriving DecidableEq

/-- `backoff` after one more round of spinning. -/
def nextBackoff (backoff : ℕ) : ℕ :=
  if backoff * backoffMultiplier > backoffMax then backoffMax else backoff * backoffMultiplier

/-- What `lock_shared` and `try_lock_shared` do with a value of the word they have observed. -/
def sharedTest (trying : Bool) (current : U32) : Pc :=
  if current &&& (writerLocked ||| writerWaitingMask) ≠ 0 then
    if trying then .triedShared false else .sharedWaitLoad 0 spinInitial
  else .sharedCas trying current

/-- The way out of the two calls after their CAS. -/
def sharedGranted (trying : Bool) : Pc := if trying then .triedShared true else .idle

/-- The test of `unlock_shared` on the word before its `fetch_sub`: the last reader is leaving and
a writer waits. -/
def lastReader (prev : U32) : Bool :=
  ((prev &&& readerMask) >>> readerShift) - 1 = 0 ∧ prev &&& writerWaitingMask ≠ 0

/-- One atomic step of the code on the state word. -/
def run (state : U32) (th : Thread) : Option (U32 × Thread) :=
  match th.pc with
  | .lockFast =>
      some (if state = unlocked then (writerLocked, th.own .idle) else (state, th.at .register))
  | .tryLock =>
      some (if state = unlocked then (writerLocked, th.own (.tried true)) else (state, th.at (.tried false)))
  | .tried _ | .triedShared _ => some (state, th.at .idle)
  | .register => some (state + writerWaitingInc, th.at (.waitLoad 0 spinInitial))
  | .waitLoad spinCount backoff =>
      some (state, th.at (
        if state &&& (writerLocked ||| readerMask) = 0 then .waitCas state spinCount backoff
        else if spinCount < futexThreshold then .waitLoad (spinCount + 1) (nextBackoff backoff)
        else .waitFutex state))
  | .waitCas current spinCount backoff =>
      some (if state = current then ((current - writerWaitingInc) ||| writerLocked, th.own .idle)
        else (state, th.at (.waitLoad spinCount backoff)))
  | .unlockClear => some (state &&& ~~~writerLocked, { th with held := false, pc := .unlockWake })
  | .sharedLoad trying => some (state, th.at (sharedTest trying state))
  | .sharedCas trying current =>
      some (if state = current then (current + readerIncrement, th.share (sharedGranted trying))
        else (state, th.at (sharedTest trying state)))
  | .sharedWaitLoad spinCount backoff =>
      some (state, th.at (
        if state &&& (writerLocked ||| writerWaitingMask) = 0 then
          .sharedWaitCas state spinCount backoff
        else if spinCount < futexThreshold then
          .sharedWaitLoad (spinCount + 1) (nextBackoff backoff)
        else .sharedWaitFutex state))
  | .sharedWaitCas current spinCount backoff =>
      some (if state = current then (current + readerIncrement, th.share .idle)
        else (state, th.at (.sharedWaitLoad spinCount backoff)))
  | .unlockSharedSub =>
      some (state - readerIncrement, { th with
        shared := th.shared - 1
        pc := if lastReader state then .unlockSharedWake else .idle })
  | _ => none

/-- A client begins a call only outside every call; `unlock` needs ownership and `unlock_shared` a
shared hold. -/
def step (l : Label) (state : U32) (th : Thread) : Option (U32 × Thread) :=
  match l with
  | .lock => if th.pc = .idle then some (state, th.at .lockFast) else none
  | .tryLock => if th.pc = .idle then some (state, th.at .tryLock) else none
  | .unlock => if th.pc = .idle ∧ th.held = true then some (state, th.at .unlockClear) else none
  | .lockShared => if th.pc = .idle then some (state, th.at (.sharedLoad false)) else none
  | .tryLockShared => if th.pc = .idle then some (state, th.at (.sharedLoad true)) else none
  | .unlockShared =>
      if th.pc = .idle ∧ 0 < th.shared then some (state, th.at .unlockSharedSub) else none
  | .run => run state th

/-- `futex::wait(&state_, current)`; the spin count starts again when it returns. -/
def wait (th : Thread) : Option (WaitCall U32 Thread Unit) :=
  match th.pc with
  | .waitFutex current => some (futex.wait () id current (th.at (.waitLoad 0 spinInitial)))
  | .sharedWaitFutex current =>
      some (futex.wait () id current (th.at (.sharedWaitLoad 0 spinInitial)))
  | _ => none

/-- `futex::wake_all(&state_)`. -/
def wake (th : Thread) : Option (WakeCall Thread Unit) :=
  match th.pc with
  | .unlockWake | .unlockSharedWake => some (futex.wakeAll () (th.at .idle))
  | _ => none

def program (Tid : Type*) : Program Tid U32 Thread Unit Label where
  mem := unlocked
  start := ⟨false, 0, .idle⟩
  step _ := step
  wait := wait
  wake := wake

/-- The thread is a writer that has registered in `lock_contended` and has not acquired since. -/
def Thread.registered (th : Thread) : Bool :=
  match th.pc with
  | .waitLoad .. | .waitCas .. | .waitFutex _ => true
  | _ => false

@[simp] theorem Thread.own_held (th : Thread) (pc : Pc) : (th.own pc).held = true := rfl
@[simp] theorem Thread.own_shared (th : Thread) (pc : Pc) : (th.own pc).shared = th.shared := rfl
@[simp] theorem Thread.share_held (th : Thread) (pc : Pc) : (th.share pc).held = th.held := rfl
@[simp] theorem Thread.share_shared (th : Thread) (pc : Pc) : (th.share pc).shared = th.shared + 1 := rfl

/-- The thread still has to execute the `wake_all` of `unlock` or `unlock_shared`. -/
def Thread.waking (th : Thread) : Bool :=
  match th.pc with
  | .unlockWake | .unlockSharedWake => true
  | _ => false

/-- The documented limits: at most 65535 readers and 32767 waiting writers at a time. -/
def withinLimits {Tid : Type*} [Fintype Tid] :
    StepCond (Config Tid U32 Thread Unit) (Act Tid Label) :=
  fun _ _ s' => tally Thread.shared s'.thread ≤ maxReaders ∧
    count Thread.registered s'.thread ≤ maxWaitingWriters

instance {Tid : Type*} [Fintype Tid] (s : Config Tid U32 Thread Unit) (a : Act Tid Label)
    (s' : Config Tid U32 Thread Unit) : Decidable (withinLimits s a s') := instDecidableAnd

end Psync.SharedMutex
