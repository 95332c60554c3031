import Psync.Platform

/-! The cyclic barrier: `arrive_and_wait`, and the split interface of `arrive` and `wait`. The last
thread to arrive resets the counter, advances the phase and wakes everybody in three separate
steps. -/

namespace Psync.Barrier

open Concurrency

variable {Tid : Type*}

/-- The two words of the barrier, and the tokens that `arrive` has returned; any thread may wait for
any of them. -/
structure Mem where
  arrived : U32
  phase : U32
  tokens : List U32

/-- The function that arrives. -/
inductive Call
  | arrive
  | arriveAndWait
  deriving DecidableEq

/-- The next atomic step of a thread; `current` is the phase it has loaded. -/
inductive Pc
  | idle
  | loadPhase (call : Call)
  /-- The `fetch_sub` of `arrived_`. -/
  | fetchSub (call : Call) (current : U32)
  /-- The last thread stores to `arrived_`. -/
  | reset (call : Call) (current : U32)
  /-- The `fetch_add` of `phase_`. -/
  | advance (call : Call) (current : U32)
  | wakeAll (call : Call) (current : U32)
  /-- `arrive` returns. -/
  | ret (token : U32)
  /-- The load in the loop of `wait`. -/
  | waitLoad (current : U32)
  | waitFutex (current : U32)
  deriving DecidableEq

inductive Label
  | arrive
  | arriveAndWait
  /-- `wait` for the `i`-th token. -/
  | wait (i : ℕ)
  | run
  deriving DecidableEq

/-- Where a thread continues that is not the last one. -/
def afterArrival : Call → U32 → Pc
  | .arrive, current => .ret current
  | .arriveAndWait, current => .waitLoad current

/-- Where the last thread continues after `futex::wake_all`. -/
def afterWake : Call → U32 → Pc
  | .arrive, current => .ret current
  | .arriveAndWait, _ => .idle

/-- One atomic step inside a call. -/
def run (expected : U32) (m : Mem) : Pc → Option (Mem × Pc)
  | .loadPhase call => some (m, .fetchSub call m.phase)
  | .fetchSub call current => some ({ m with arrived := m.arrived - 1 },
      if m.arrived = 1 then .reset call current else afterArrival call current)
  | .reset call current => some ({ m with arrived := expected }, .advance call current)
  | .advance call current => some ({ m with phase := m.phase + 1 }, .wakeAll call current)
  | .ret token => some ({ m with tokens := m.tokens ++ [token] }, .idle)
  | .waitLoad current => some (m, if m.phase = current then .waitFutex current else .idle)
  | .idle | .wakeAll .. | .waitFutex _ => none

def step (expected : U32) (l : Label) (m : Mem) (pc : Pc) : Option (Mem × Pc) :=
  match l with
  | .arrive => if pc = .idle then some (m, .loadPhase .arrive) else none
  | .arriveAndWait => if pc = .idle then some (m, .loadPhase .arriveAndWait) else none
  | .wait i => if pc = .idle then m.tokens[i]?.map fun token => (m, .waitLoad token) else none
  | .run => run expected m pc

/-- The threads sleep on `phase_`. -/
def wait : Pc → Option (WaitCall Mem Pc Unit)
  | .waitFutex current => some (futex.wait () Mem.phase current (.waitLoad current))
  | _ => none

def wake : Pc → Option (WakeCall Pc Unit)
  | .wakeAll call current => some (futex.wakeAll () (afterWake call current))
  | _ => none

def program (Tid : Type*) (expected : U32) : Program Tid Mem Pc Unit Label where
  mem := ⟨expected, 0, []⟩
  start := .idle
  step _ := step expected
  wait := wait
  wake := wake

/-! ### Runs -/

/-- The thread was the last one to arrive and has not advanced the phase. -/
def Pc.last : Pc → Bool
  | .reset .. | .advance .. => true
  | _ => false

/-- Every `fetch_sub` is executed in the phase that its thread has loaded, and not while the last
thread of that phase is about to reset the counter and to advance the phase. -/
def prompt : StepCond (Config Tid Mem Pc Unit) (Act Tid Label) := fun s a _ => match a with
  | .step t .run => match s.thread t with
      | .fetchSub _ current => current = s.mem.phase ∧ ∀ u, (s.thread u).last = false
      | _ => True
  | _ => True

/-- All calls are calls of `arrive_and_wait`. -/
def teamOnly : StepCond (Config Tid Mem Pc Unit) (Act Tid Label) := fun _ a _ => match a with
  | .step _ .arrive | .step _ (.wait _) => False
  | _ => True

instance [Fintype Tid] (s : Config Tid Mem Pc Unit) (a : Act Tid Label)
    (s' : Config Tid Mem Pc Unit) : Decidable (prompt s a s') :=
  match a with
  | .step t .run => match h : s.thread t with
      | .fetchSub _ current => decidable_of_iff
          (current = s.mem.phase ∧ ∀ u, (s.thread u).last = false) (by rw [prompt, h])
      | .idle | .loadPhase _ | .reset .. | .advance .. | .wakeAll .. | .ret _ | .waitLoad _
      | .waitFutex _ => .isTrue (by rw [prompt, h]; trivial)
  | .step _ .arrive | .step _ .arriveAndWait | .step _ (.wait _) => .isTrue trivial
  | .sleep _ | .ret _ | .wake .. | .requeue .. => .isTrue trivial

instance (s : Config Tid Mem Pc Unit) (a : Act Tid Label) (s' : Config Tid Mem Pc Unit) :
    Decidable (teamOnly s a s') :=
  match a with
  | .step _ .arrive | .step _ (.wait _) => .isFalse id
  | .step _ .arriveAndWait | .step _ .run => .isTrue trivial
  | .sleep _ | .ret _ | .wake .. | .requeue .. => .isTrue trivial

/-- The thread is in a call of `arrive`. -/
def Pc.split : Pc → Bool
  | .loadPhase call | .fetchSub call _ | .reset call _ | .advance call _ | .wakeAll call _ =>
      call = .arrive
  | .ret _ => true
  | .idle | .waitLoad _ | .waitFutex _ => false

def Pc.waking : Pc → Bool
  | .wakeAll .. => true
  | _ => false

/-- What has happened. An arrival is counted when its `fetch_sub` is executed, in the phase whose
number is that of the phases completed so far. -/
structure History (Tid : Type*) where
  /-- How often each thread has called `arrive_and_wait`. -/
  calls : Tid → ℕ
  /-- How often each thread has arrived. -/
  arrivals : Tid → ℕ
  completed : ℕ
  /-- How many arrivals were counted in a phase. -/
  counted : ℕ → ℕ
  /-- The phase in which the arrival was counted that a thread has made or waits for. -/
  own : Tid → ℕ
  /-- The same for each token. -/
  tokenPhase : List ℕ

def History.init : History Tid := ⟨fun _ => 0, fun _ => 0, 0, fun _ => 0, fun _ => 0, []⟩

variable [DecidableEq Tid]

def History.arrive (h : History Tid) (t : Tid) : History Tid :=
  { h with
    arrivals := Function.update h.arrivals t (h.arrivals t + 1)
    counted := Function.update h.counted h.completed (h.counted h.completed + 1)
    own := Function.update h.own t h.completed }

def record (h : History Tid) (s : Config Tid Mem Pc Unit) (a : Act Tid Label)
    (_ : Config Tid Mem Pc Unit) : History Tid :=
  match a with
  | .step t .run => match s.thread t with
      | .fetchSub .. => h.arrive t
      | .advance .. => { h with completed := h.completed + 1 }
      | .ret _ => { h with tokenPhase := h.tokenPhase ++ [h.own t] }
      | _ => h
  | .step t .arriveAndWait => { h with calls := Function.update h.calls t (h.calls t + 1) }
  | .step t (.wait i) => { h with own := Function.update h.own t (h.tokenPhase.getD i 0) }
  | _ => h

/-- The machine with its history. -/
def machine (Tid : Type*) [DecidableEq Tid] [Fintype Tid] (expected : U32) :
    Machine (Config Tid Mem Pc Unit × History Tid) (Act Tid Label) :=
  (program Tid expected).machine.observe .init record

/-- A condition on the steps of the threads. -/
abbrev under (ok : StepCond (Config Tid Mem Pc Unit) (Act Tid Label)) :
    StepCond (Config Tid Mem Pc Unit × History Tid) (Act Tid Label) :=
  fun s a s' => ok s.1 a s'.1

end Psync.Barrier
