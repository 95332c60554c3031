import Psync.ParkingModel

/-! The lock in the low bits of a pointer: `lock`, `try_lock` and `unlock` with the parking lot, and
the operations `get`, `exchange` and `compare_exchange` on the pointer. Bit 0 is the locked flag, bit 1
says that threads wait in the parking lot, bit 2 belongs to the user. -/

namespace Psync.TaggedLockPtr

open Concurrency ParkingLot

def lockedBit : U64 := 0x1
def waitersBit : U64 := 0x2
def markedBit : U64 := 0x4
def flagMask : U64 := 0x7
def pointerMask : U64 := ~~~flagMask

/-- A pointer that is aligned to 8 bytes. -/
structure Pointer where
  value : U64
  aligned : value &&& flagMask = 0
  deriving DecidableEq

/-- The atomic steps of the validation callback of `lock_contended`. -/
inductive Validate
  /-- The load. -/
  | load
  /-- The `fetch_or` that sets the waiters bit. -/
  | setWaiters
  deriving DecidableEq

/-- The next atomic step of a thread, with the local variables that are live there. -/
inductive Pc (Tid : Type*)
  /-- Outside every call. -/
  | idle
  | lockLoad
  | lockCas (current : U64)
  | tryLoad
  | tryCas (current : U64)
  /-- `try_lock` has returned `result`. -/
  | tried (result : Bool)
  /-- `lock_contended`: the load in iteration `i` of the spin loop. -/
  | spinLoad (i : ℕ)
  | spinCas (i : ℕ) (current : U64)
  /-- `lock_contended`: the load at the head of the inner loop. -/
  | parkLoad
  | parkCas (current : U64)
  | park (pc : ParkPc Tid Validate)
  | unlockLoad
  /-- `unlock`: the CAS after a load that saw the waiters bit. -/
  | unlockCasWaiters (current : U64)
  /-- `unlock`: the CAS after a load that did not. -/
  | unlockCas (current : U64)
  | unpark (pc : UnparkPc Tid)
  | get
  /-- `get` has returned `result`. -/
  | got (result : U64)
  | compareExchange (expected desired : Pointer)
  /-- `compare_exchange` has returned `result`. -/
  | exchanged (result : Bool)
  deriving DecidableEq

/-- A thread: whether it owns the lock, and where it is. -/
structure Thread (Tid : Type*) where
  held : Bool
  pc : Pc Tid
  deriving DecidableEq

/-- The tagged word, and the parking lot of the process. A thread has one waiter node; `park` clears
its wake flag before anybody reads it. -/
structure Mem (Tid : Type*) where
  taggedPtr : U64
  lot : Lot Tid

inductive Label
  | lock
  | tryLock
  | unlock
  | get
  | compareExchange (expected desired : Pointer)
  | run
  deriving DecidableEq

variable {Tid : Type*}

def Thread.at (th : Thread Tid) (pc : Pc Tid) : Thread Tid := { th with pc := pc }

/-- The CAS of the tagged word from `current` to `new`. -/
def cas (m : Mem Tid) (current new : U64) (won lost : Thread Tid) : Mem Tid × Thread Tid :=
  if m.taggedPtr = current then ({ m with taggedPtr := new }, won) else (m, lost)

/-- The CAS of every acquisition. -/
def casLock (m : Mem Tid) (th : Thread Tid) (current : U64) (won lost : Pc Tid) : Mem Tid × Thread Tid :=
  cas m current (current ||| lockedBit) ⟨true, won⟩ (th.at lost)

/-- The new word and the result of `exchange`. -/
def exchange (newPtr : Pointer) (word : U64) : U64 × U64 := (newPtr.value, word &&& pointerMask)

/-- The new word and the result of `compare_exchange`. -/
def compareExchange (expected desired : Pointer) (word : U64) : U64 × Bool :=
  if word = expected.value then (desired.value, true) else (word, false)

/-- The way from one iteration of the spin loop to the next, or to the inner loop. -/
def afterSpin (i : ℕ) : Pc Tid := if i + 1 < spinInitial then .spinLoad (i + 1) else .parkLoad

def validate : Validate → U64 → U64 × Flow Validate Bool
  | .load, cur => (cur, if cur &&& lockedBit = 0 then .ret false
      else if cur &&& waitersBit = 0 then .at .setWaiters else .ret true)
  | .setWaiters, cur => (cur ||| waitersBit, .ret true)

/-- The callback of `unlock`. -/
def clearWaiters (res : UnparkResult) (word : U64) : U64 :=
  if res ≠ .hasMoreWaiters then word &&& ~~~waitersBit else word

/-- `lock_contended` spins again after `park`, whatever it returned. -/
def afterPark : Flow (ParkPc Tid Validate) Bool → Pc Tid
  | .at pc => .park pc
  | .ret _ => .spinLoad 0

def afterUnpark : Flow (UnparkPc Tid) UnparkResult → Pc Tid
  | .at pc => .unpark pc
  | .ret _ => .idle

variable [DecidableEq Tid]

/-- One atomic step of thread `t` in the code of the lock at address `this`, except for the calls into the
kernel. -/
def run (this : U64) (t : Tid) (m : Mem Tid) (th : Thread Tid) : Option (Mem Tid × Thread Tid) :=
  match th.pc with
  | .idle => none
  | .lockLoad => some (m, th.at (
      if m.taggedPtr &&& lockedBit ≠ 0 then .spinLoad 0 else .lockCas m.taggedPtr))
  | .lockCas current => some (casLock m th current .idle .lockLoad)
  | .tryLoad => some (m, th.at (
      if m.taggedPtr &&& lockedBit ≠ 0 then .tried false else .tryCas m.taggedPtr))
  | .tryCas current => some (casLock m th current (.tried true) (.tried false))
  | .tried _ => some (m, th.at .idle)
  | .spinLoad i => some (m, th.at (
      if m.taggedPtr &&& lockedBit = 0 then .spinCas i m.taggedPtr else afterSpin i))
  | .spinCas i current => some (casLock m th current .idle (afterSpin i))
  | .parkLoad => some (m, th.at (
      if m.taggedPtr &&& lockedBit = 0 then .parkCas m.taggedPtr else .park .lockBucket))
  | .parkCas current => some (casLock m th current .idle .parkLoad)
  | .park pc => (park .load validate this t m.taggedPtr m.lot pc).map fun r =>
      (⟨r.1, r.2.1⟩, th.at (afterPark r.2.2))
  | .unlockLoad => some (m, th.at (
      if m.taggedPtr &&& waitersBit ≠ 0 then .unlockCasWaiters m.taggedPtr
      else .unlockCas m.taggedPtr))
  | .unlockCasWaiters current =>
      some (cas m current (current &&& ~~~lockedBit) ⟨false, .unpark .lockBucket⟩ (th.at .unlockLoad))
  | .unlockCas current =>
      some (cas m current (current &&& ~~~lockedBit) ⟨false, .idle⟩ (th.at .unlockLoad))
  | .unpark pc => (unparkOne clearWaiters this m.taggedPtr m.lot pc).map fun r =>
      (⟨r.1, r.2.1⟩, th.at (afterUnpark r.2.2))
  | .get => some (m, th.at (.got (m.taggedPtr &&& pointerMask)))
  | .got _ => some (m, th.at .idle)
  | .compareExchange expected desired =>
      some ({ m with taggedPtr := (compareExchange expected desired m.taggedPtr).1 },
        th.at (.exchanged (compareExchange expected desired m.taggedPtr).2))
  | .exchanged _ => some (m, th.at .idle)

/-- A client begins a call only outside every call, and `unlock` only while it owns the lock. -/
def step (this : U64) (t : Tid) (l : Label) (m : Mem Tid) (th : Thread Tid) :
    Option (Mem Tid × Thread Tid) :=
  match l with
  | .lock => if th.pc = .idle then some (m, th.at .lockLoad) else none
  | .tryLock => if th.pc = .idle then some (m, th.at .tryLoad) else none
  | .unlock => if th.pc = .idle ∧ th.held = true then some (m, th.at .unlockLoad) else none
  | .get => if th.pc = .idle then some (m, th.at .get) else none
  | .compareExchange expected desired =>
      if th.pc = .idle then some (m, th.at (.compareExchange expected desired)) else none
  | .run => run this t m th

def wait (th : Thread Tid) : Option (WaitCall (Mem Tid) (Thread Tid) Tid) :=
  match th.pc with
  | .park pc => parkWait Mem.lot (fun pc => th.at (.park pc)) pc
  | _ => none

def wake (th : Thread Tid) : Option (WakeCall (Thread Tid) Tid) :=
  match th.pc with
  | .unpark pc => unparkWake (fun result => th.at (afterUnpark (.ret result))) pc
  | _ => none

/-- The threads on one lock at address `this` that begins with the pointer `ptr`. -/
def program (Tid : Type*) [DecidableEq Tid] (this : U64) (ptr : Pointer) :
    Program Tid (Mem Tid) (Thread Tid) Tid Label where
  mem := ⟨ptr.value, .init⟩
  start := ⟨false, .idle⟩
  step := step this
  wait := wait
  wake := wake

abbrev State (Tid : Type*) := Config Tid (Mem Tid) (Thread Tid) Tid

/-- The thread is in the loop of `park` on its wake flag. -/
def Pc.parked : Pc Tid → Bool
  | .park .load | .park (.wait _) => true
  | _ => false

/-- The thread is parked, and cannot go on by itself: its flag is not set, or it sleeps in the kernel. -/
def Parked (s : State Tid) (t : Tid) : Prop :=
  (s.thread t).pc.parked = true ∧ (s.mem.lot.wakeFlag t = 0 ∨ s.asleep t ≠ none)

/-- The thread is inside `lock`, `try_lock` or `unlock`. -/
def Thread.calling (th : Thread Tid) : Bool :=
  match th.pc with
  | .idle | .tried _ | .get | .got _ | .compareExchange .. | .exchanged _ => false
  | _ => true

/-- The lock is free, a thread is parked on it, and nobody is left to wake it. -/
def Stranded (s : State Tid) : Prop :=
  s.mem.taggedPtr &&& lockedBit = 0 ∧ (∃ t, Parked s t) ∧
    ∀ t, ¬ Parked s t → (s.thread t).calling = false

/-- The validation sets the waiters bit only while the lock is still owned. -/
def validatesOwned : StepCond (State Tid) (Act Tid Label) :=
  fun s a _ => match a with
    | .step t .run => (s.thread t).pc = .park (.validate .setWaiters) →
        s.mem.taggedPtr &&& lockedBit ≠ 0
    | _ => True

instance (s : State Tid) (t : Tid) : Decidable (Parked s t) := instDecidableAnd

instance (s : State Tid) (a : Act Tid Label) (s' : State Tid) : Decidable (validatesOwned s a s') :=
  match a with
  | .step t .run => inferInstanceAs (Decidable ((s.thread t).pc = .park (.validate .setWaiters) →
      s.mem.taggedPtr &&& lockedBit ≠ 0))
  | .step _ .lock | .step _ .tryLock | .step _ .unlock | .step _ .get => .isTrue trivial
  | .step _ (.compareExchange ..) => .isTrue trivial
  | .sleep _ | .ret _ | .wake .. | .requeue .. => .isTrue trivial

end Psync.TaggedLockPtr
