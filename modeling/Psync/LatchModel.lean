import Psync.RunSleepers
import Psync.Platform

/-! The latch: `count_down`, `try_wait`, `wait`, `arrive_and_wait` and `wait_for` on one word. -/

namespace Psync.Latch

open Concurrency

variable {Tid : Type*}

/-- The next atomic step of a thread; `joins` says that a `count_down` is part of `arrive_and_wait`. -/
inductive Pc
  /-- Outside every call. -/
  | idle
  /-- `count_down`: the `fetch_sub`. -/
  | fetchSub (n : U32) (joins : Bool)
  /-- `count_down`: `futex::wake_all`. -/
  | wakeAll (joins : Bool)
  /-- The load of `try_wait`, by a client or by `wait_for` after the deadline. -/
  | tryWait
  /-- `wait_for`: the load of its first `try_wait`. -/
  | load
  /-- The load at the head of the loop of `wait` or `wait_for`. -/
  | loop (timed : Bool)
  /-- `wait_for`: the clock is read. -/
  | clock (current : U32)
  /-- `futex::wait` or `futex::wait_for`. -/
  | futexWait (timed : Bool) (current : U32)
  deriving DecidableEq

inductive Label
  | countDown (n : U32)
  | tryWait
  | wait
  | arriveAndWait (n : U32)
  | waitFor
  | run
  /-- The clock is read; the deadline has passed or not. -/
  | now (expired : Bool)
  deriving DecidableEq

/-- Where a thread continues after `count_down`. -/
def afterCountDown (joins : Bool) : Pc := if joins then .loop false else .idle

/-- One atomic step of the code on `count_`. -/
def run (count : U32) : Pc → Option (U32 × Pc)
  | .fetchSub n joins =>
      some (count - n, if count ≤ n then .wakeAll joins else afterCountDown joins)
  | .tryWait => some (count, .idle)
  | .load => some (count, if count = 0 then .idle else .loop true)
  | .loop timed => some (count, if count = 0 then .idle
      else if timed then .clock count else .futexWait false count)
  | .idle | .wakeAll _ | .clock _ | .futexWait .. => none

/-- The amount of a `count_down` is positive. -/
def step (l : Label) (count : U32) (pc : Pc) : Option (U32 × Pc) :=
  match l with
  | .countDown n => if pc = .idle ∧ n ≠ 0 then some (count, .fetchSub n false) else none
  | .tryWait => if pc = .idle then some (count, .tryWait) else none
  | .wait => if pc = .idle then some (count, .loop false) else none
  | .arriveAndWait n => if pc = .idle ∧ n ≠ 0 then some (count, .fetchSub n true) else none
  | .waitFor => if pc = .idle then some (count, .load) else none
  | .run => run count pc
  | .now expired => match pc with
      | .clock current => some (count, if expired then .tryWait else .futexWait true current)
      | _ => none

def wait : Pc → Option (WaitCall U32 Pc Unit)
  | .futexWait timed current => some (futex.wait () id current (.loop timed))
  | _ => none

def wake : Pc → Option (WakeCall Pc Unit)
  | .wakeAll joins => some (futex.wakeAll () (afterCountDown joins))
  | _ => none

/-- The threads on a latch constructed with `count`. -/
def program (Tid : Type*) (count : U32) : Program Tid U32 Pc Unit Label where
  mem := count
  start := .idle
  step _ := step
  wait := wait
  wake := wake

abbrev State (Tid : Type*) := Config Tid U32 Pc Unit

/-- What `try_wait` returns. -/
def opened (s : State Tid) : Bool := s.mem = 0

/-- The thread is in `count_down`, before its `futex::wake_all`. -/
def Pc.waking : Pc → Bool
  | .wakeAll _ => true
  | _ => false

/-- No `count_down` takes more than is left. -/
def covered : StepCond (State Tid) (Act Tid Label) := fun s a _ => match a with
  | .step t .run => match s.thread t with
      | .fetchSub n _ => n ≤ s.mem
      | _ => True
  | _ => True

instance (s : State Tid) (a : Act Tid Label) (s' : State Tid) : Decidable (covered s a s') :=
  match a with
  | .step t .run => match h : s.thread t with
      | .fetchSub n _ => decidable_of_iff (n ≤ s.mem) (by rw [covered, h])
      | .idle | .wakeAll _ | .tryWait | .load | .loop _ | .clock _ | .futexWait .. =>
          .isTrue (by rw [covered, h]; trivial)
  | .step _ (.countDown _) | .step _ .tryWait | .step _ .wait | .step _ (.arriveAndWait _) => .isTrue trivial
  | .step _ .waitFor | .step _ (.now _) => .isTrue trivial
  | .sleep _ | .ret _ | .wake .. | .requeue .. => .isTrue trivial

/-- The sum of the decrements. -/
def record (h : ℕ) (s : State Tid) (a : Act Tid Label) (_ : State Tid) : ℕ :=
  match a with
  | .step t .run => match s.thread t with
      | .fetchSub n _ => h + n.toNat
      | _ => h
  | _ => h

def observed (Tid : Type*) [Fintype Tid] [DecidableEq Tid] (count : U32) :
    Machine (State Tid × ℕ) (Act Tid Label) :=
  (program Tid count).machine.observe 0 record

end Psync.Latch
