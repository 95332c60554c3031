import Psync.Platform

/-! The counting semaphore: `release`, `try_acquire`, `acquire` and `try_acquire_for` on one word. The
clock is the environment's. -/

namespace Psync.CountingSemaphore

open Concurrency

variable {Tid : Type*}

/-- Where `try_acquire` has been called: by a client, or in `acquire` or `try_acquire_for`. -/
inductive Caller
  | client
  | first (timed : Bool)
  /-- Iteration `i` of the spin loop. -/
  | spin (timed : Bool) (i : ℕ)
  | loop (timed : Bool)
  /-- After the deadline. -/
  | last
  deriving DecidableEq

/-- The next atomic step of a thread. -/
inductive Pc
  /-- Outside every call. -/
  | idle
  /-- `release`: the `fetch_add`. -/
  | releaseAdd (update : U32)
  | releaseWake (update : U32)
  /-- `try_acquire`: the load. -/
  | tryLoad (c : Caller)
  /-- `try_acquire`: the CAS. -/
  | tryCas (c : Caller) (current : U32)
  /-- `try_acquire_for`: the clock is read. -/
  | clock
  /-- The load after a failed `try_acquire` in the loop. -/
  | loopLoad (timed : Bool)
  /-- `futex::wait` or `futex::wait_for`. -/
  | futexWait (timed : Bool)
  /-- `try_acquire` has returned `result` to the client. -/
  | tryAcquired (result : Bool)
  /-- `acquire` has returned. -/
  | acquired
  /-- `try_acquire_for` has returned `result`. -/
  | tryAcquiredFor (result : Bool)
  deriving DecidableEq

inductive Label
  | release (update : U32)
  | tryAcquire
  | acquire
  | tryAcquireFor
  | run
  /-- The clock is read; the deadline has passed or not. -/
  | now (expired : Bool)
  deriving DecidableEq

/-- The number of iterations of the spin loop. -/
def spins (timed : Bool) : ℕ := if timed then 16 else 32

/-- Where a thread continues after `try_acquire` has returned true. -/
def Caller.succeeded : Caller → Pc
  | .client => .tryAcquired true
  | .first timed | .spin timed _ | .loop timed => if timed then .tryAcquiredFor true else .acquired
  | .last => .tryAcquiredFor true

/-- Where a thread continues after `try_acquire` has returned false. -/
def Caller.failed : Caller → Pc
  | .client => .tryAcquired false
  | .last => .tryAcquiredFor false
  | .first timed => .tryLoad (.spin timed 0)
  | .spin timed i => .tryLoad (if i + 1 < spins timed then .spin timed (i + 1) else .loop timed)
  | .loop timed => if timed then .clock else .loopLoad timed

/-- The head of the loop of `try_acquire`, with the value of `current`. -/
def tryNext (c : Caller) (current : U32) : Pc := if current = 0 then c.failed else .tryCas c current

/-- One atomic step of the code on `count_`. -/
def run (count : U32) : Pc → Option (U32 × Pc)
  | .releaseAdd update => some (count + update, .releaseWake update)
  | .tryLoad c => some (count, tryNext c count)
  | .tryCas c current =>
      some (if count = current then (current - 1, c.succeeded) else (count, tryNext c count))
  | .loopLoad timed =>
      some (count, if count = 0 then .futexWait timed else .tryLoad (.loop timed))
  | .tryAcquired _ | .acquired | .tryAcquiredFor _ => some (count, .idle)
  | .idle | .releaseWake _ | .clock | .futexWait _ => none

def step (l : Label) (count : U32) (pc : Pc) : Option (U32 × Pc) :=
  match l with
  | .release update => if pc = .idle then some (count, .releaseAdd update) else none
  | .tryAcquire => if pc = .idle then some (count, .tryLoad .client) else none
  | .acquire => if pc = .idle then some (count, .tryLoad (.first false)) else none
  | .tryAcquireFor => if pc = .idle then some (count, .tryLoad (.first true)) else none
  | .run => run count pc
  | .now expired =>
      if pc = .clock then some (count, if expired then .tryLoad .last else .loopLoad true) else none

def wait : Pc → Option (WaitCall U32 Pc Unit)
  | .futexWait timed => some (futex.wait () id 0 (.tryLoad (.loop timed)))
  | _ => none

/-- `futex::wake(&count_, static_cast<i32>(update))`. -/
def wake : Pc → Option (WakeCall Pc Unit)
  | .releaseWake update => some (futex.wake () update.toInt .idle)
  | _ => none

/-- The threads on a semaphore constructed with `desired`. -/
def program (Tid : Type*) (desired : U32) : Program Tid U32 Pc Unit Label where
  mem := desired
  start := .idle
  step _ := step
  wait := wait
  wake := wake

abbrev State (Tid : Type*) := Config Tid U32 Pc Unit

def Caller.acquiring : Caller → Bool
  | .client => false
  | _ => true

/-- The thread is inside `acquire` or `try_acquire_for`. -/
def Pc.acquiring : Pc → Bool
  | .tryLoad c | .tryCas c _ => c.acquiring
  | .clock | .loopLoad _ | .futexWait _ => true
  | .idle | .releaseAdd _ | .releaseWake _ | .tryAcquired _ | .acquired | .tryAcquiredFor _ => false

/-- A call has just returned with a token. -/
def Pc.success : Pc → Bool
  | .tryAcquired result | .tryAcquiredFor result => result
  | .acquired => true
  | _ => false

/-- The wakes that a `release` has still to ask for after its `fetch_add`. -/
def Pc.owed : Pc → ℕ
  | .releaseWake update => update.toNat
  | _ => 0

/-- The number of threads that are awake inside `acquire` or `try_acquire_for`. -/
def awake [Fintype Tid] (s : State Tid) : ℕ :=
  count (fun p : Pc × Option Unit => p.1.acquiring && p.2.isNone) fun t => (s.thread t, s.asleep t)

/-- The count does not exceed `max()`, and so does not overflow. -/
def within (leastMaxValue : U32) : StepCond (State Tid) (Act Tid Label) := fun s a _ => match a with
  | .step t .run => match s.thread t with
      | .releaseAdd update => s.mem.toNat + update.toNat ≤ leastMaxValue.toNat
      | _ => True
  | _ => True

instance (leastMaxValue : U32) (s : State Tid) (a : Act Tid Label) (s' : State Tid) :
    Decidable (within leastMaxValue s a s') :=
  match a with
  | .step t .run => match h : s.thread t with
      | .releaseAdd update => decidable_of_iff
          (s.mem.toNat + update.toNat ≤ leastMaxValue.toNat) (by rw [within, h])
      | .idle | .releaseWake _ | .tryLoad _ | .tryCas .. | .clock | .loopLoad _ | .futexWait _
      | .tryAcquired _ | .acquired | .tryAcquiredFor _ => .isTrue (by rw [within, h]; trivial)
  | .step _ (.release _) | .step _ .tryAcquire | .step _ .acquire => .isTrue trivial
  | .step _ .tryAcquireFor | .step _ (.now _) => .isTrue trivial
  | .sleep _ | .ret _ | .wake .. | .requeue .. => .isTrue trivial

/-- What has been released, and how many calls have returned with a token. -/
structure History where
  released : ℕ
  acquired : ℕ

def record (h : History) (s : State Tid) (a : Act Tid Label) (s' : State Tid) : History :=
  match a with
  | .step t .run => match s.thread t with
      | .releaseAdd update => { h with released := h.released + update.toNat }
      | _ => { h with acquired := h.acquired + (s'.thread t).success.toNat }
  | _ => h

def observed (Tid : Type*) [Fintype Tid] [DecidableEq Tid] (desired : U32) :
    Machine (State Tid × History) (Act Tid Label) :=
  (program Tid desired).machine.observe ⟨0, 0⟩ record

end Psync.CountingSemaphore
