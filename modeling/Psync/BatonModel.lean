import Psync.RunSleepers
import Psync.Platform

/-! The baton: `post`, `wait`, `wait_for`, `try_wait` and `reset` on one word. A waiter announces itself
in the word before it sleeps, and `post` wakes only if it has found an announcement. -/

namespace Psync.Baton

open Concurrency

variable {Tid : Type*}

def kEmpty : U32 := 0
def kWaiting : U32 := 1
def kReady : U32 := 2

/-- The next atomic step of a thread. -/
inductive Pc
  /-- Outside every call. -/
  | idle
  /-- `post`: the exchange. -/
  | exchange
  /-- `post`: `futex::wake_all`. -/
  | wakeAll
  /-- The load before the spin loop of `wait` or `wait_for`. -/
  | load (timed : Bool)
  /-- The load in iteration `i` of the spin loop. -/
  | spin (timed : Bool) (i : ℕ)
  /-- The CAS from `kEmpty` to `kWaiting`. -/
  | announce (timed : Bool)
  /-- The load at the head of the loop. -/
  | loop (timed : Bool)
  /-- `wait_for`: the clock is read. -/
  | clock
  /-- `futex::wait` or `futex::wait_for`. -/
  | futexWait (timed : Bool)
  /-- The load of `try_wait`, by a client or by `wait_for` after the deadline. -/
  | tryWait
  /-- `reset`: the store. -/
  | reset
  deriving DecidableEq

/-- A thread: whether a wait of its own has returned true since its last `reset`, and where it is. -/
structure Thread where
  passed : Bool
  pc : Pc
  deriving DecidableEq

def Thread.at (th : Thread) (pc : Pc) : Thread := { th with pc := pc }

/-- A wait returns true. -/
def Thread.pass : Thread := ⟨true, .idle⟩

inductive Label
  | post
  | wait
  | waitFor
  | tryWait
  | reset
  | run
  /-- The clock is read; the deadline has passed or not. -/
  | now (expired : Bool)
  deriving DecidableEq

/-- The number of iterations of the spin loop. -/
def spins (timed : Bool) : ℕ := if timed then 16 else 32

/-- A load of the word in a wait: it returns true if the baton has been posted. -/
def check (state : U32) (th : Thread) (pc : Pc) : U32 × Thread :=
  (state, if state = kReady then .pass else th.at pc)

/-- One atomic step of the code on `state_`. -/
def run (state : U32) (th : Thread) : Option (U32 × Thread) :=
  match th.pc with
  | .exchange => some (kReady, th.at (if state = kWaiting then .wakeAll else .idle))
  | .load timed => some (check state th (.spin timed 0))
  | .spin timed i =>
      some (check state th (if i + 1 < spins timed then .spin timed (i + 1) else .announce timed))
  | .announce timed => some (if state = kEmpty then kWaiting else state, th.at (.loop timed))
  | .loop timed => some (check state th (if timed then .clock else .futexWait false))
  | .tryWait => some (check state th .idle)
  | .reset => some (kEmpty, th.at .idle)
  | .idle | .wakeAll | .clock | .futexWait _ => none

/-- A client begins a call only outside every call, and `reset` only after a wait of its own. -/
def step (l : Label) (state : U32) (th : Thread) : Option (U32 × Thread) :=
  match l with
  | .post => if th.pc = .idle then some (state, th.at .exchange) else none
  | .wait => if th.pc = .idle then some (state, th.at (.load false)) else none
  | .waitFor => if th.pc = .idle then some (state, th.at (.load true)) else none
  | .tryWait => if th.pc = .idle then some (state, th.at .tryWait) else none
  | .reset => if th.pc = .idle ∧ th.passed = true then some (state, ⟨false, .reset⟩) else none
  | .run => run state th
  | .now expired =>
      if th.pc = .clock then some (state, th.at (if expired then .tryWait else .futexWait true)) else none

def wait (th : Thread) : Option (WaitCall U32 Thread Unit) :=
  match th.pc with
  | .futexWait timed => some (futex.wait () id kWaiting (th.at (.loop timed)))
  | _ => none

def wake (th : Thread) : Option (WakeCall Thread Unit) :=
  match th.pc with
  | .wakeAll => some (futex.wakeAll () (th.at .idle))
  | _ => none

def program (Tid : Type*) : Program Tid U32 Thread Unit Label where
  mem := kEmpty
  start := ⟨false, .idle⟩
  step _ := step
  wait := wait
  wake := wake

abbrev State (Tid : Type*) := Config Tid U32 Thread Unit

/-- The thread is in `post`, between an exchange that has found an announcement and its wake. -/
def Thread.waking (th : Thread) : Bool := th.pc = .wakeAll

/-- A `reset` does not wipe out the announcement of a sleeping thread that nobody is going to wake. -/
def keepsAnnouncement : StepCond (State Tid) (Act Tid Label) := fun s a _ => match a with
  | .step t .run => (s.thread t).pc = .reset → s.mem = kWaiting → (∃ u, s.asleep u = some ()) →
      ∃ u, (s.thread u).waking = true
  | _ => True

instance [Fintype Tid] (s : State Tid) (a : Act Tid Label) (s' : State Tid) :
    Decidable (keepsAnnouncement s a s') :=
  match a with
  | .step t .run => inferInstanceAs (Decidable ((s.thread t).pc = .reset → s.mem = kWaiting →
      (∃ u, s.asleep u = some ()) → ∃ u, (s.thread u).waking = true))
  | .step _ .post | .step _ .wait | .step _ .waitFor | .step _ .tryWait | .step _ .reset => .isTrue trivial
  | .step _ (.now _) | .sleep _ | .ret _ | .wake .. | .requeue .. => .isTrue trivial

end Psync.Baton
