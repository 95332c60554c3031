import Psync.Platform

/-! `call_once` on one flag. The callable of a call returns or throws, and does not use the flag. -/

namespace Psync.Once

open Concurrency

variable {Tid : Type*}

/-- The next atomic step of a thread. -/
inductive Pc
  /-- Outside every call. -/
  | idle
  /-- The load of the fast path. -/
  | load
  /-- The CAS at the head of the loop. -/
  | cas
  /-- Inside the callable. -/
  | callable
  /-- The callable has returned: the store of 2. -/
  | store
  | wakeAll
  /-- The callable has thrown: the store of 0 in the handler. -/
  | reset
  /-- `futex::wake_all` in the handler, which then throws the exception again. -/
  | wakeReset
  /-- `futex::wait`. -/
  | futexWait
  deriving DecidableEq

inductive Label
  | callOnce
  | run
  /-- The callable returns. -/
  | complete
  /-- The callable throws. -/
  | throw
  deriving DecidableEq

/-- One atomic step inside a call, except for the end of the callable. -/
def run (state : U32) : Pc → Option (U32 × Pc)
  | .load => some (state, if state = 2 then .idle else .cas)
  | .cas => some (
      if state = 0 then (1, .callable) else if state = 2 then (state, .idle) else (state, .futexWait))
  | .store => some (2, .wakeAll)
  | .reset => some (0, .wakeReset)
  | .idle | .callable | .wakeAll | .wakeReset | .futexWait => none

def step (l : Label) (state : U32) (pc : Pc) : Option (U32 × Pc) :=
  match l with
  | .callOnce => if pc = .idle then some (state, .load) else none
  | .run => run state pc
  | .complete => if pc = .callable then some (state, .store) else none
  | .throw => if pc = .callable then some (state, .reset) else none

def wait : Pc → Option (WaitCall U32 Pc Unit)
  | .futexWait => some (futex.wait () id 1 .cas)
  | _ => none

def wake : Pc → Option (WakeCall Pc Unit)
  | .wakeAll | .wakeReset => some (futex.wakeAll () .idle)
  | _ => none

/-- The threads on one `OnceFlag`. -/
def program (Tid : Type*) : Program Tid U32 Pc Unit Label where
  mem := 0
  start := .idle
  step _ := step
  wait := wait
  wake := wake

abbrev State (Tid : Type*) := Config Tid U32 Pc Unit

/-- The thread has won the CAS and has not stored to the flag since. -/
def Pc.inside : Pc → Bool
  | .callable | .store | .reset => true
  | _ => false

/-- The thread is at `futex::wake_all`. -/
def Pc.waking : Pc → Bool
  | .wakeAll | .wakeReset => true
  | _ => false

/-- The callable of the thread has ended, and its `futex::wake_all` is still to come. -/
def Pc.owes : Pc → Bool
  | .store | .wakeAll | .reset | .wakeReset => true
  | _ => false

/-! ### What happens in a call -/

inductive Event
  | called
  /-- The callable begins. -/
  | started
  | completed
  | threw
  /-- `call_once` returns. -/
  | returned
  /-- An exception leaves `call_once`. -/
  | raised
  deriving DecidableEq

/-- The events of the calls that have ended, the latest first. Either another callable has been
completed, or the call has run its own; and an exception leaves a call whose callable threw. -/
inductive Calls : List Event → Prop
  | nil : Calls []
  | skipped {l : List Event} (h : Calls l) : Calls (.returned :: .called :: l)
  | returned {l : List Event} (h : Calls l) : Calls (.returned :: .completed :: .started :: .called :: l)
  | raised {l : List Event} (h : Calls l) : Calls (.raised :: .threw :: .started :: .called :: l)

/-- The events of the call that a thread is in. -/
def Pc.events : Pc → List Event
  | .idle => []
  | .load | .cas | .futexWait => [.called]
  | .callable => [.started, .called]
  | .store | .wakeAll => [.completed, .started, .called]
  | .reset | .wakeReset => [.threw, .started, .called]

/-- The events of all threads, the latest first. -/
abbrev History (Tid : Type*) := List (Tid × Event)

/-- What a step of a thread at `pc` does. -/
def Pc.event (state : U32) (l : Label) (pc : Pc) : Option Event :=
  match l, pc with
  | .callOnce, _ => some .called
  | .complete, _ => some .completed
  | .throw, _ => some .threw
  | .run, .load => if state = 2 then some .returned else none
  | .run, .cas => if state = 0 then some .started else if state = 2 then some .returned else none
  | .run, _ => none

/-- What the end of `futex::wake_all` does. -/
def Pc.leaves : Pc → Option Event
  | .wakeAll => some .returned
  | .wakeReset => some .raised
  | _ => none

def push (t : Tid) (w : History Tid) : Option Event → History Tid
  | some e => (t, e) :: w
  | none => w

def record (w : History Tid) (s : State Tid) (a : Act Tid Label) (_ : State Tid) : History Tid :=
  match a with
  | .step t l => push t w ((s.thread t).event s.mem l)
  | .wake t _ => push t w (s.thread t).leaves
  | _ => w

def observed (Tid : Type*) [Fintype Tid] [DecidableEq Tid] :
    Machine (State Tid × History Tid) (Act Tid Label) :=
  (program Tid).machine.observe [] record

/-- The events of thread `t`. -/
def own [DecidableEq Tid] (t : Tid) (w : History Tid) : List Event :=
  (w.filter fun e => e.1 = t).map Prod.snd

end Psync.Once
