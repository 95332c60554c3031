import Psync.CondvarModel

/-! Consumers and producers around one condition variable. The mutex protects a counter of items. A
consumer waits with the predicate `items > 0`, takes one item and unlocks. A producer adds one item
and calls `signal`, or adds any number and calls `broadcast`, before or after it unlocks. The calls
run the code of the condition variable and of the mutex. -/

namespace Psync.ConditionVariable.Client

open Concurrency

/-- The two futex words, and the counter. -/
structure Mem where
  cv : ConditionVariable.Mem
  items : ℕ
  deriving DecidableEq

inductive Notify
  | signal
  | broadcast
  deriving DecidableEq

/-- What a client does when the call it is in has returned. -/
inductive Pc
  /-- The client goes back to rest. -/
  | idle
  /-- A consumer calls `wait(mutex, items > 0)`. -/
  | enter
  /-- `wait(mutex, pred)`: the evaluation of the predicate. -/
  | loop
  /-- The predicate wait has returned; the consumer takes an item. -/
  | take
  /-- `mutex.unlock()`, the last call of a consumer, or of a producer that notifies early. -/
  | leave
  /-- A producer adds its items. -/
  | produce
  /-- `mutex.unlock()` of a producer that notifies late. -/
  | release (notify : Notify)
  /-- The notification; `early` if the producer still owns the mutex. -/
  | notify (notify : Notify) (early : Bool)
  deriving DecidableEq

structure Thread where
  cv : ConditionVariable.Thread
  pc : Pc
  deriving DecidableEq

inductive Label
  | consume
  | produce
  | add (n : ℕ) (notify : Notify) (early : Bool)
  | run
  deriving DecidableEq

def Thread.at (th : Thread) (pc : Pc) : Thread := { th with pc := pc }

def Notify.call : Notify → ConditionVariable.Label
  | .signal => .signal
  | .broadcast => .broadcast

/-- One atomic step of the condition variable, after which the client is at `pc`. -/
def call (l : ConditionVariable.Label) (m : Mem) (th : Thread) (pc : Pc) : Option (Mem × Thread) :=
  (ConditionVariable.step l m.cv th.cv).map fun r => ({ m with cv := r.1 }, ⟨r.2, pc⟩)

/-- The step of a client that is outside every call. -/
def advance (m : Mem) (th : Thread) : Option (Mem × Thread) :=
  match th.pc with
  | .idle | .produce => none
  | .enter => some (m, th.at .loop)
  | .loop => if 0 < m.items then some (m, th.at .take) else call .wait m th .loop
  | .take => some ({ m with items := m.items - 1 }, th.at .leave)
  | .leave => call .unlock m th .idle
  | .release notify => call .unlock m th (.notify notify false)
  | .notify notify early => call notify.call m th (if early then .leave else .idle)

/-- A producer that signals adds one item. -/
def step (l : Label) (m : Mem) (th : Thread) : Option (Mem × Thread) :=
  match l with
  | .consume => if th.pc = .idle ∧ th.cv.free then call .lock m th .enter else none
  | .produce => if th.pc = .idle ∧ th.cv.free then call .lock m th .produce else none
  | .add n notify early =>
      if th.pc = .produce ∧ th.cv.free ∧ (notify = .signal → n = 1) then
        some ({ m with items := m.items + n },
          th.at (if early then .notify notify true else .release notify))
      else none
  | .run => if th.cv.free then advance m th else call .run m th th.pc

def wait (th : Thread) : Option (WaitCall Mem Thread Addr) :=
  (ConditionVariable.wait th.cv).map fun w =>
    { addr := w.addr, holds := fun m => w.holds m.cv, after := { th with cv := w.after } }

def wake (th : Thread) : Option (WakeCall Thread Addr) :=
  (ConditionVariable.wake th.cv).map fun w =>
    { addr := w.addr, count := w.count, after := { th with cv := w.after } }

def program (Tid : Type*) : Program Tid Mem Thread Addr Label where
  mem := ⟨⟨Mutex.unlocked, 0⟩, 0⟩
  start := ⟨⟨⟨false, .idle⟩, .idle⟩, .idle⟩
  step _ := step
  wait := wait
  wake := wake

/-- The thread owns the mutex. -/
def Thread.held (th : Thread) : Bool := th.cv.mutex.held

/-- The thread is inside `wait(mutex, pred)`. -/
def Thread.waiting (th : Thread) : Bool := th.pc = .loop

/-- The thread is a producer between the addition of its items and the end of its wake. -/
def Thread.notifying (th : Thread) : Bool :=
  match th.pc with
  | .release _ | .notify .. => true
  | _ => match th.cv.pc with
    | .signalAdd | .signalWake | .broadcastAdd | .broadcastWake => true
    | _ => false

/-! ### The notifications between a load and a compare -/

/-- How many notifications there have been, and how many there had been at the last load of `seq_`
by a thread. -/
structure History (Tid : Type*) where
  total : ℕ
  loaded : Tid → ℕ

variable {Tid : Type*} [Fintype Tid] [DecidableEq Tid]

abbrev State (Tid : Type*) := Config Tid Mem Thread Addr

/-- The history after the step of a thread at `pc`. -/
def History.after (w : History Tid) (t : Tid) : ConditionVariable.Pc → History Tid
  | .waitLoad => { w with loaded := Function.update w.loaded t w.total }
  | .signalAdd | .broadcastAdd => { w with total := w.total + 1 }
  | _ => w

def record (w : History Tid) (s : State Tid) (a : Act Tid Label) (_ : State Tid) : History Tid :=
  match a with
  | .step t .run => w.after t (s.thread t).cv.pc
  | _ => w

def observed (Tid : Type*) [Fintype Tid] [DecidableEq Tid] :
    Machine (State Tid × History Tid) (Act Tid Label) :=
  (program Tid).machine.observe ⟨0, fun _ => 0⟩ record

/-- The thread is at the `futex::wait` on `seq_`. -/
def Thread.comparing (th : Thread) : Bool :=
  match th.cv.pc with
  | .waitFutex _ => true
  | _ => false

/-- When the kernel compares and puts a thread to sleep on `seq_`, fewer than `2^32` notifications
have come since the thread loaded `seq_`. -/
def fewNotifications : StepCond (State Tid × History Tid) (Act Tid Label) := fun s a _ =>
  match a with
  | .sleep t => (s.1.thread t).comparing = true → s.2.total - s.2.loaded t < 2 ^ 32
  | _ => True

instance (s : State Tid × History Tid) (a : Act Tid Label) (s' : State Tid × History Tid) :
    Decidable (fewNotifications s a s') :=
  match a with
  | .sleep t => inferInstanceAs
      (Decidable ((s.1.thread t).comparing = true → s.2.total - s.2.loaded t < 2 ^ 32))
  | .step .. | .ret _ | .wake .. | .requeue .. => .isTrue trivial

end Psync.ConditionVariable.Client
