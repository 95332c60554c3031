import Psync.Platform

/-! Lock telemetry: `TelemetryLock::lock` and `unlock` over any mutually exclusive lock, with telemetry
enabled. The sums of the collector are atomic and its maximum is raised by a CAS loop, but all threads
share one `start_time_`. The cycle counter only moves forward. -/

namespace Psync.TelemetryLock

open Concurrency

/-- The owner of the lock, the collector, and what the cycle counter reads. -/
structure Mem (Tid : Type*) where
  owner : Option Tid
  startTime : U64
  totalWaitCycles : U64
  totalContentionCount : U64
  acquisitionCount : U64
  maxWaitCycles : U64
  cycles : U64

/-- The next atomic step of a thread, with the local variables that are live there. -/
inductive Pc
  /-- Outside every call. -/
  | idle
  /-- `record_acquisition_start`: the reading of the counter. -/
  | start
  /-- `record_acquisition_start`: the store to `start_time_`. -/
  | storeStart (reading : U64)
  /-- `lock_.try_lock()`. -/
  | tryLock
  /-- `record_acquisition_success`: its `fetch_add`. -/
  | success
  /-- `lock_.lock()`. -/
  | lock
  /-- `record_acquisition_contended`: the reading of the counter. -/
  | endTime
  /-- `record_acquisition_contended`: the load of `start_time_`. -/
  | loadStart (endTime : U64)
  /-- `record_acquisition_contended`: the `fetch_add` on `total_wait_cycles`. -/
  | addTotal (waitCycles : U64)
  /-- `record_acquisition_contended`: the `fetch_add` on `total_contention_count`. -/
  | addContention (waitCycles : U64)
  /-- `record_acquisition_contended`: the `fetch_add` on `acquisition_count`. -/
  | addAcquisition (waitCycles : U64)
  /-- `record_acquisition_contended`: the load of `max_wait_cycles`. -/
  | loadMax (waitCycles : U64)
  /-- `record_acquisition_contended`: the CAS on `max_wait_cycles`. -/
  | casMax (waitCycles currentMax : U64)
  deriving DecidableEq

inductive Label
  | lock
  | unlock
  /-- The next step inside a call. -/
  | run
  /-- A `try_lock` that fails on a free lock. -/
  | spurious
  /-- The cycle counter moves. -/
  | tick (now : U64)
  deriving DecidableEq

variable {Tid : Type*}

/-- `while (wait_cycles > current_max)`. -/
def raise (waitCycles currentMax : U64) : Pc :=
  if currentMax < waitCycles then .casMax waitCycles currentMax else .idle

/-- One atomic step inside a call of thread `t`. -/
def run (t : Tid) (m : Mem Tid) : Pc → Option (Mem Tid × Pc)
  | .idle => none
  | .start => some (m, .storeStart m.cycles)
  | .storeStart reading => some ({ m with startTime := reading }, .tryLock)
  | .tryLock => some (if m.owner.isNone then ({ m with owner := some t }, .success) else (m, .lock))
  | .success => some ({ m with acquisitionCount := m.acquisitionCount + 1 }, .idle)
  | .lock => if m.owner.isNone then some ({ m with owner := some t }, .endTime) else none
  | .endTime => some (m, .loadStart m.cycles)
  | .loadStart endTime => some (m, .addTotal (endTime - m.startTime))
  | .addTotal waitCycles =>
      some ({ m with totalWaitCycles := m.totalWaitCycles + waitCycles }, .addContention waitCycles)
  | .addContention waitCycles =>
      some ({ m with totalContentionCount := m.totalContentionCount + 1 }, .addAcquisition waitCycles)
  | .addAcquisition waitCycles =>
      some ({ m with acquisitionCount := m.acquisitionCount + 1 }, .loadMax waitCycles)
  | .loadMax waitCycles => some (m, raise waitCycles m.maxWaitCycles)
  | .casMax waitCycles currentMax => some (
      if m.maxWaitCycles = currentMax then ({ m with maxWaitCycles := waitCycles }, .idle)
      else (m, raise waitCycles m.maxWaitCycles))

variable [DecidableEq Tid]

/-- A call begins only outside every call, and `unlock`, one step of the lock, is called by its owner. -/
def step (t : Tid) (l : Label) (m : Mem Tid) (pc : Pc) : Option (Mem Tid × Pc) :=
  match l with
  | .lock => if pc = .idle then some (m, .start) else none
  | .unlock => if pc = .idle ∧ m.owner = some t then some ({ m with owner := none }, .idle) else none
  | .run => run t m pc
  | .spurious => if pc = .tryLock then some (m, .lock) else none
  | .tick now => if m.cycles ≤ now then some ({ m with cycles := now }, pc) else none

/-- The threads around one lock, from the given reading of the cycle counter. -/
def program (Tid : Type*) [DecidableEq Tid] (now : U64) : Program Tid (Mem Tid) Pc Empty Label where
  mem := ⟨none, 0, 0, 0, 0, 0, now⟩
  start := .idle
  step := step

abbrev State (Tid : Type*) := Config Tid (Mem Tid) Pc Empty

/-! ### The history of a run -/

/-- The two readings of a contended call. -/
structure Wait where
  began : U64
  ended : U64
  deriving DecidableEq

def Wait.cycles (w : Wait) : ℕ := w.ended.toNat - w.began.toNat

structure History (Tid : Type*) where
  /-- The number of calls of `lock`. -/
  calls : ℕ
  /-- The number of those whose `try_lock` has failed. -/
  contended : ℕ
  /-- The first reading of the call that a thread is in, or was in last. -/
  began : Tid → U64
  /-- The contended calls that have loaded `start_time_`, with their own readings. -/
  waits : List Wait

def History.contend (h : History Tid) : History Tid := { h with contended := h.contended + 1 }

def History.step (h : History Tid) (t : Tid) (l : Label) (m : Mem Tid) (pc : Pc) : History Tid :=
  match l, pc with
  | .lock, _ => { h with calls := h.calls + 1 }
  | .spurious, _ => h.contend
  | .run, .start => { h with began := Function.update h.began t m.cycles }
  | .run, .tryLock => if m.owner.isNone then h else h.contend
  | .run, .loadStart endTime => { h with waits := h.waits ++ [⟨h.began t, endTime⟩] }
  | _, _ => h

def record (h : History Tid) (s : State Tid) (a : Act Tid Label) (_ : State Tid) : History Tid :=
  match a with
  | .step t l => h.step t l s.mem (s.thread t)
  | _ => h

def observed (Tid : Type*) [Fintype Tid] [DecidableEq Tid] (now : U64) :
    Machine (State Tid × History Tid) (Act Tid Label) :=
  (program Tid now).machine.observe ⟨0, 0, fun _ => 0, []⟩ record

/-- A contended call finds its own reading in `start_time_`, and the calls can be counted in 64 bits. -/
def Unmixed (m : Mem Tid) (h : History Tid) (t : Tid) : Label → Pc → Prop
  | .lock, _ => h.calls + 1 < 2 ^ 64
  | .run, .loadStart _ => m.startTime = h.began t
  | _, _ => True

def unmixed : StepCond (State Tid × History Tid) (Act Tid Label) := fun s a _ =>
  match a with
  | .step t l => Unmixed s.1.mem s.2 t l (s.1.thread t)
  | _ => True

instance (m : Mem Tid) (h : History Tid) (t : Tid) (l : Label) (pc : Pc) : Decidable (Unmixed m h t l pc) :=
  match l with
  | .lock => inferInstanceAs (Decidable (h.calls + 1 < 2 ^ 64))
  | .run => match pc with
    | .loadStart _ => inferInstanceAs (Decidable (m.startTime = h.began t))
    | .idle | .start | .storeStart _ | .tryLock | .success | .lock | .endTime | .addTotal _
    | .addContention _ | .addAcquisition _ | .loadMax _ | .casMax .. => .isTrue trivial
  | .unlock | .spurious | .tick _ => .isTrue trivial

instance (s : State Tid × History Tid) (a : Act Tid Label) (s' : State Tid × History Tid) :
    Decidable (unmixed s a s') :=
  match a with
  | .step t l => inferInstanceAs (Decidable (Unmixed s.1.mem s.2 t l (s.1.thread t)))
  | .sleep _ | .ret _ | .wake .. | .requeue .. => .isTrue trivial

end Psync.TelemetryLock
