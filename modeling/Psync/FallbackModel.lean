import Psync.Platform

/-! The futex of Windows when `WaitOnAddress` is missing: `wait`, `wait_for` and `wake` over a table of
slots, each with a lock, a condition variable and the flag `waiting`, after the table has been
initialized.

The lock of a slot is held by at most one thread. `SleepConditionVariableSRW` releases it and sleeps in
one step, and acquires it again before it returns; `WakeConditionVariable` wakes one arbitrary sleeper of
the slot and `WakeAllConditionVariable` all of them; a sleeper may also wake up by itself. -/

namespace Psync.Fallback

open Concurrency

abbrev I32 := BitVec 32
abbrev Addr := U64
abbrev Slot := U64

variable {Tid : Type*}

def fallbackSlots : U64 := 64

def hashAddress (addr : Addr) : Slot := addr % fallbackSlots

/-- The words that threads wait for, and of every slot the thread that holds its lock and its flag. -/
structure Mem (Tid : Type*) where
  word : Addr → U32
  lock : Slot → Option Tid
  waiting : Slot → Bool

namespace Mem

variable (m : Mem Tid)

def store (addr : Addr) (val : U32) : Mem Tid := { m with word := Function.update m.word addr val }

def setLock (slot : Slot) (owner : Option Tid) : Mem Tid :=
  { m with lock := Function.update m.lock slot owner }

def setWaiting (slot : Slot) (b : Bool) : Mem Tid :=
  { m with waiting := Function.update m.waiting slot b }

end Mem

/-- A call of `wait`, or of `wait_for` when `timed`. -/
structure Wait where
  addr : Addr
  val : U32
  timed : Bool
  deriving DecidableEq

/-- The next step of a thread. -/
inductive Pc
  /-- Outside every call; the last one returned `result`. -/
  | idle (result : I32)
  /-- `wait`: `AcquireSRWLockExclusive`. -/
  | acquire (w : Wait)
  /-- `waiting = true`. -/
  | announce (w : Wait)
  /-- The load of the word. -/
  | compare (w : Wait)
  /-- `SleepConditionVariableSRW`. -/
  | sleep (w : Wait)
  /-- `SleepConditionVariableSRW` before it returns `res`. -/
  | reacquire (w : Wait) (res : Bool)
  /-- `waiting = false`. -/
  | clear (addr : Addr) (result : I32)
  /-- `ReleaseSRWLockExclusive`. -/
  | release (addr : Addr) (result : I32)
  /-- `wake`: `AcquireSRWLockExclusive`. -/
  | wakeAcquire (addr : Addr) (count : I32)
  /-- The test of `waiting`. -/
  | wakeTest (addr : Addr) (count : I32)
  /-- `WakeConditionVariable` or `WakeAllConditionVariable`. -/
  | wakeCond (addr : Addr) (count : I32)
  /-- `ReleaseSRWLockExclusive`. -/
  | wakeRelease (addr : Addr) (count : I32)
  deriving DecidableEq

inductive Label
  | wait (addr : Addr) (val : U32)
  | waitFor (addr : Addr) (val : U32)
  | wake (addr : Addr) (count : I32)
  /-- A client writes a word. -/
  | store (addr : Addr) (val : U32)
  | run
  deriving DecidableEq

/-- `wake_all`. -/
def wakeAll (addr : Addr) : Label := .wake addr (-1)

/-- What the call returns when `SleepConditionVariableSRW` returns `res`. -/
def Wait.result (w : Wait) (res : Bool) : I32 := if w.timed && !res then -1 else 0

/-- `AcquireSRWLockExclusive` for a thread that goes on at `pc`. -/
def acquire (t : Tid) (slot : Slot) (m : Mem Tid) (pc : Pc) : Option (Mem Tid × Pc) :=
  if m.lock slot = none then some (m.setLock slot (some t), pc) else none

variable [DecidableEq Tid]

def run (t : Tid) (m : Mem Tid) (pc : Pc) : Option (Mem Tid × Pc) :=
  match pc with
  | .acquire w => acquire t (hashAddress w.addr) m (.announce w)
  | .announce w => some (m.setWaiting (hashAddress w.addr) true, .compare w)
  | .compare w => some (m, if m.word w.addr ≠ w.val then .clear w.addr 0 else .sleep w)
  | .reacquire w res => acquire t (hashAddress w.addr) m (.clear w.addr (w.result res))
  | .clear addr result => some (m.setWaiting (hashAddress addr) false, .release addr result)
  | .release addr result => some (m.setLock (hashAddress addr) none, .idle result)
  | .wakeAcquire addr count => acquire t (hashAddress addr) m (.wakeTest addr count)
  | .wakeTest addr count =>
      some (m, if m.waiting (hashAddress addr) = true then .wakeCond addr count
        else .wakeRelease addr count)
  | .wakeRelease addr count => some (m.setLock (hashAddress addr) none, .idle count)
  | _ => none

def step (t : Tid) (l : Label) (m : Mem Tid) (pc : Pc) : Option (Mem Tid × Pc) :=
  match l, pc with
  | .wait addr val, .idle _ => some (m, .acquire ⟨addr, val, false⟩)
  | .waitFor addr val, .idle _ => some (m, .acquire ⟨addr, val, true⟩)
  | .wake addr count, .idle _ => some (m, .wakeAcquire addr count)
  | .store addr val, .idle result => some (m.store addr val, .idle result)
  | .run, pc => run t m pc
  | _, _ => none

/-! ### The condition variables -/

/-- The position of every thread, and the address that a thread asleep on the condition variable of
its slot waits for. -/
abbrev State (Tid : Type*) := Config Tid (Mem Tid) Pc Addr

inductive Act (Tid : Type*)
  | step (t : Tid) (l : Label)
  | sleep (t : Tid)
  /-- A sleeper wakes up by itself, or at its timeout. -/
  | ret (t : Tid) (timeout : Bool)
  | wake (t : Tid) (woken : Finset Tid)

/-- `SleepConditionVariableSRW` has been woken up. -/
def Pc.wakes (res : Bool) : Pc → Pc
  | .sleep w => .reacquire w res
  | pc => pc

/-- The threads in `woken` are runnable again. -/
def resume (s : State Tid) (res : Bool) (woken : Finset Tid) : State Tid :=
  { s with
    thread := fun u => if u ∈ woken then (s.thread u).wakes res else s.thread u
    asleep := fun u => if u ∈ woken then none else s.asleep u }

/-- The lock of the slot is released and the thread sleeps. -/
def sleepOn (s : State Tid) (t : Tid) (addr : Addr) : State Tid :=
  { s with
    mem := s.mem.setLock (hashAddress addr) none
    asleep := Function.update s.asleep t (some addr) }

/-- `WakeConditionVariable` is called for one thread, and `WakeAllConditionVariable` otherwise. -/
def woken (count : I32) : Option ℕ := if count = 1 then some 1 else none

variable [Fintype Tid]

/-- The threads asleep on the condition variable of a slot. -/
def sleepersOf (s : State Tid) (slot : Slot) : Finset Tid :=
  Finset.univ.filter fun u => (s.asleep u).map hashAddress = some slot

def next (s : State Tid) : Act Tid → Option (State Tid)
  | .step t l => if s.asleep t = none then
      (step t l s.mem (s.thread t)).map fun r => s.move t r.1 r.2 else none
  | .sleep t => match s.thread t with
    | .sleep w => if s.asleep t = none then some (sleepOn s t w.addr) else none
    | _ => none
  | .ret t timeout => match s.thread t with
    | .sleep w => if s.asleep t ≠ none ∧ (timeout = true → w.timed = true) then
        some (resume s (!timeout) {t}) else none
    | _ => none
  | .wake t ts => match s.thread t with
    | .wakeCond addr count => if Chosen (woken count) (sleepersOf s (hashAddress addr)) ts then
        some ((resume s true ts).move t s.mem (.wakeRelease addr count)) else none
    | _ => none

def machine (Tid : Type*) [DecidableEq Tid] [Fintype Tid] : Machine (State Tid) (Act Tid) where
  init := ⟨⟨fun _ => 0, fun _ => none, fun _ => false⟩, fun _ => .idle 0, fun _ => none⟩
  next := next

/-! ### What a wake owes -/

/-- How many of the `k` sleepers on its address a wake must make runnable. -/
def due (count : I32) (k : ℕ) : ℕ := if count.toInt ≤ 0 then k else min count.toInt.toNat k

/-- Thread `t` has not come to the release of the lock in its wake. -/
def beforeRelease (t : Tid) (addr : Addr) (count : I32) : StepCond (State Tid) (Act Tid) :=
  fun s _ _ => s.thread t ≠ .wakeRelease addr count

/-- Thread `t` is about to take the lock in `wake`, in the state `s`, and has it in `s'`: however the run
goes on, when the lock is released enough of the threads that slept on `addr` are runnable. -/
def Honoured (s s' : State Tid) (t : Tid) (addr : Addr) (count : I32) : Prop :=
  ∀ u, (machine Tid).Leads (beforeRelease t addr count) s' u → u.thread t = .wakeRelease addr count →
      due count (s.sleepers addr).card ≤ ((s.sleepers addr).filter fun v => u.asleep v = none).card

/-- Nobody sleeps on `addr`; or the flag of the slot is set, and a wake for one thread finds nobody asleep
on another address of the slot. -/
def Heard (s : State Tid) (addr : Addr) (count : I32) : Prop :=
  s.sleepers addr = ∅ ∨ (s.mem.waiting (hashAddress addr) = true ∧
    (count = 1 → sleepersOf s (hashAddress addr) ⊆ s.sleepers addr))

instance (s : State Tid) (addr : Addr) (count : I32) : Decidable (Heard s addr count) :=
  instDecidableOr

end Psync.Fallback
