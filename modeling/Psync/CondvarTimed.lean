import Psync.FutexTimeout

/-! The timed waits of the condition variable: the four overloads of `wait_for` and `wait_until` over
any mutually exclusive lock, beside threads that lock, write what the lock protects, unlock and notify.
The clock only moves forward. The kernel wait returns at any time woken, interrupted or because the
value has changed, and as timed out only once the requested timeout has passed. -/

namespace Psync.ConditionVariable.Timed

open Concurrency

/-- A count of nanoseconds: a `duration`, or a `time_point` of the clock. -/
abbrev I64 := BitVec 64

/-- `seq_`, the owner of the lock, the data the lock protects, and what `Clock::now()` reads. -/
structure Mem (Tid D : Type*) where
  seq : U32
  owner : Option Tid
  data : D
  clock : I64

/-- `cv_status`. -/
inductive Status
  | noTimeout
  | timeout
  deriving DecidableEq

/-- What `FUTEX_WAIT` returns. -/
inductive Outcome
  | woken
  | valueChanged
  | interrupted
  | timedOut
  deriving DecidableEq

/-- Who called `wait_for(lock, rel_time)`: a client, `wait_for` with a predicate, or `wait_until`, which
may itself be called by `wait_until` with a predicate. -/
inductive Caller (D : Type*)
  | client
  | waitFor (deadline : I64) (pred : D → Bool)
  | waitUntil (timeoutTime : I64) (pred : Option (D → Bool))

/-- The next atomic step of a thread. -/
inductive Pc (D : Type*)
  /-- Outside every call. -/
  | idle
  /-- `wait_for(lock, rel_time)`: the load of `seq_`. -/
  | load (caller : Caller D) (relTime : I64)
  /-- `wait_for(lock, rel_time)`: `lock.unlock()`. -/
  | unlock (caller : Caller D) (relTime : I64) (seq : U32)
  /-- `wait_for(lock, rel_time)`: the call of `futex::wait_for`. -/
  | futex (caller : Caller D) (relTime : I64) (seq : U32)
  /-- `wait_for(lock, rel_time)`: in the kernel since the clock read `since`. -/
  | asleep (caller : Caller D) (relTime : I64) (seq : U32) (since : I64)
  /-- `wait_for(lock, rel_time)`: `lock.lock()`. -/
  | lock (caller : Caller D) (relTime : I64) (seq : U32)
  /-- `wait_for(lock, rel_time)`: the second load of `seq_`. -/
  | reload (caller : Caller D) (relTime : I64) (seq : U32)
  /-- `wait_for(lock, rel_time)` has returned. -/
  | returned (caller : Caller D) (relTime : I64) (status : Status)
  /-- `wait_for(lock, rel_time, pred)`: the deadline is computed. -/
  | forNow (relTime : I64) (pred : D → Bool)
  /-- `wait_for(lock, rel_time, pred)`: `while (!pred())`. -/
  | forPred (deadline : I64) (pred : D → Bool)
  /-- `wait_for(lock, rel_time, pred)`: `now >= deadline`. -/
  | forCheck (deadline : I64) (pred : D → Bool)
  /-- `wait_for(lock, rel_time, pred)`: `return pred()`. -/
  | forLast (deadline : I64) (pred : D → Bool)
  /-- `wait_until(lock, timeout_time)`: `now >= timeout_time`. -/
  | untilNow (timeoutTime : I64) (pred : Option (D → Bool))
  /-- `wait_until(lock, timeout_time)` has returned. -/
  | untilReturned (timeoutTime : I64) (pred : Option (D → Bool)) (status : Status)
  /-- `wait_until(lock, timeout_time, pred)`: `while (!pred())`. -/
  | untilPred (timeoutTime : I64) (pred : D → Bool)
  /-- `wait_until(lock, timeout_time, pred)`: `Clock::now() >= timeout_time`. -/
  | untilCheck (timeoutTime : I64) (pred : D → Bool)
  /-- `wait_until(lock, timeout_time, pred)`: `return pred()`. -/
  | untilLast (timeoutTime : I64) (pred : D → Bool)
  /-- A wait with the predicate `pred` has returned `result`. -/
  | answered (pred : D → Bool) (result : Bool)

inductive Label (D : Type*)
  | lock
  | unlock
  | write (data : D)
  | notify
  | waitFor (relTime : I64)
  | waitForPred (relTime : I64) (pred : D → Bool)
  | waitUntil (timeoutTime : I64)
  | waitUntilPred (timeoutTime : I64) (pred : D → Bool)
  /-- The next step inside a call. -/
  | run
  /-- The kernel wait returns. -/
  | ret (outcome : Outcome)
  /-- The clock moves. -/
  | tick (now : I64)

/-- `static_cast<u64>(duration_cast<nanoseconds>(rel_time).count())`. -/
def nanoseconds (relTime : I64) : U64 := relTime

variable {Tid D : Type*}

/-- Where a thread goes on when `wait_for(lock, rel_time)` has returned. -/
def Caller.resume (status : Status) : Caller D → Pc D
  | .client => .idle
  | .waitFor deadline pred => .forPred deadline pred
  | .waitUntil timeoutTime pred => .untilReturned timeoutTime pred status

/-- One atomic step inside a call of thread `t`. -/
def run (t : Tid) (m : Mem Tid D) : Pc D → Option (Mem Tid D × Pc D)
  | .idle | .asleep .. => none
  | .load caller relTime => some (m, .unlock caller relTime m.seq)
  | .unlock caller relTime seq => some ({ m with owner := none }, .futex caller relTime seq)
  | .futex caller relTime seq => some (m, .asleep caller relTime seq m.clock)
  | .lock caller relTime seq => if m.owner.isNone then
      some ({ m with owner := some t }, .reload caller relTime seq) else none
  | .reload caller relTime seq =>
      some (m, .returned caller relTime (if m.seq = seq then .timeout else .noTimeout))
  | .returned caller _ status => some (m, caller.resume status)
  | .forNow relTime pred => some (m, .forPred (m.clock + relTime) pred)
  | .forPred deadline pred => some (m,
      if pred m.data then .answered pred true else .forCheck deadline pred)
  | .forCheck deadline pred => some (m,
      if deadline.toInt ≤ m.clock.toInt then .forLast deadline pred
      else .load (.waitFor deadline pred) (deadline - m.clock))
  | .untilNow timeoutTime pred => some (m,
      if timeoutTime.toInt ≤ m.clock.toInt then .untilReturned timeoutTime pred .timeout
      else .load (.waitUntil timeoutTime pred) (timeoutTime - m.clock))
  | .untilReturned _ none _ => some (m, .idle)
  | .untilReturned timeoutTime (some pred) _ => some (m, .untilPred timeoutTime pred)
  | .untilPred timeoutTime pred => some (m,
      if pred m.data then .answered pred true else .untilCheck timeoutTime pred)
  | .untilCheck timeoutTime pred => some (m,
      if timeoutTime.toInt ≤ m.clock.toInt then .untilLast timeoutTime pred
      else .untilNow timeoutTime (some pred))
  | .forLast _ pred | .untilLast _ pred => some (m, .answered pred (pred m.data))
  | .answered .. => some (m, .idle)

/-- The kernel wait of a thread returns. -/
def ret (outcome : Outcome) (m : Mem Tid D) : Pc D → Option (Mem Tid D × Pc D)
  | .asleep caller relTime seq since =>
      if outcome = .timedOut →
          since.toInt + (futex.linuxTimeout (nanoseconds relTime)).nanos ≤ m.clock.toInt then
        some (m, .lock caller relTime seq) else none
  | _ => none

variable [DecidableEq Tid]

/-- A client acts only outside every call; it writes, unlocks and waits as the owner of the lock. -/
def client (t : Tid) (owned : Bool) (m : Mem Tid D) (next : Mem Tid D × Pc D) :
    Pc D → Option (Mem Tid D × Pc D)
  | .idle => if owned = true → m.owner = some t then some next else none
  | _ => none

/-- The `fetch_add` of `signal` and `broadcast` is the whole of `notify`: the wake that follows lets a
wait return, which it may at any time. -/
def step (t : Tid) (l : Label D) (m : Mem Tid D) (pc : Pc D) : Option (Mem Tid D × Pc D) :=
  match l with
  | .lock => if m.owner.isNone then client t false m ({ m with owner := some t }, .idle) pc else none
  | .unlock => client t true m ({ m with owner := none }, .idle) pc
  | .write data => client t true m ({ m with data := data }, .idle) pc
  | .notify => client t false m ({ m with seq := m.seq + 1 }, .idle) pc
  | .waitFor relTime => client t true m (m, .load .client relTime) pc
  | .waitForPred relTime pred => client t true m (m, .forNow relTime pred) pc
  | .waitUntil timeoutTime => client t true m (m, .untilNow timeoutTime none) pc
  | .waitUntilPred timeoutTime pred => client t true m (m, .untilPred timeoutTime pred) pc
  | .run => run t m pc
  | .ret outcome => ret outcome m pc
  | .tick now => if m.clock.toInt ≤ now.toInt then some ({ m with clock := now }, pc) else none

/-- The threads around one condition variable, from the given time and data. -/
def program (Tid : Type*) [DecidableEq Tid] (now : I64) (data : D) :
    Program Tid (Mem Tid D) (Pc D) Empty (Label D) where
  mem := ⟨0, none, data, now⟩
  start := .idle
  step := step

abbrev State (Tid D : Type*) := Config Tid (Mem Tid D) (Pc D) Empty

/-! ### The history of a run -/

/-- The calls a thread is in, or was in last. -/
structure Call where
  /-- The time of the call of `wait_for(lock, rel_time)`. -/
  began : ℤ
  /-- The number of notifications before its first load of `seq_`. -/
  loaded : ℕ
  /-- Its kernel wait returned for another reason than the timeout. -/
  early : Bool
  /-- The number of notifications before its second load of `seq_`. -/
  reloaded : ℕ
  /-- The time until which a wait with a predicate may last. -/
  deadline : ℤ

structure History (Tid : Type*) where
  notified : ℕ
  call : Tid → Call

/-- The step of a thread at a position, after `notified` notifications. -/
def Call.step (notified : ℕ) (now : ℤ) (c : Call) : Label D → Pc D → Call
  | .waitFor _, _ => { c with began := now }
  | .waitUntilPred timeoutTime _, _ => { c with deadline := timeoutTime.toInt }
  | .ret outcome, _ => { c with early := outcome ≠ .timedOut }
  | .run, .forNow relTime _ => { c with deadline := now + relTime.toInt }
  | .run, .forCheck .. | .run, .untilNow .. => { c with began := now }
  | .run, .load .. => { c with loaded := notified }
  | .run, .reload .. => { c with reloaded := notified }
  | _, _ => c

def Label.notifications : Label D → ℕ
  | .notify => 1
  | _ => 0

def History.step (h : History Tid) (t : Tid) (l : Label D) (m : Mem Tid D) (pc : Pc D) : History Tid where
  notified := h.notified + l.notifications
  call := Function.update h.call t ((h.call t).step h.notified m.clock.toInt l pc)

@[simp] theorem History.step_notified (h : History Tid) (t : Tid) (l : Label D) (m : Mem Tid D) (pc : Pc D) :
    (h.step t l m pc).notified = h.notified + l.notifications := rfl
@[simp] theorem History.step_call (h : History Tid) (t : Tid) (l : Label D) (m : Mem Tid D) (pc : Pc D) :
    (h.step t l m pc).call =
      Function.update h.call t ((h.call t).step h.notified m.clock.toInt l pc) := rfl

def record (h : History Tid) (s : State Tid D) (a : Act Tid (Label D)) (_ : State Tid D) : History Tid :=
  match a with
  | .step t l => h.step t l s.mem (s.thread t)
  | _ => h

def observed (Tid : Type*) [Fintype Tid] [DecidableEq Tid] (now : I64) (data : D) :
    Machine (State Tid D × History Tid) (Act Tid (Label D)) :=
  (program Tid now data).machine.observe ⟨0, fun _ => ⟨0, 0, false, 0, 0⟩⟩ record

/-! ### Where the waits go wrong -/

/-- A signed 64-bit value. -/
def Fits (z : ℤ) : Prop := -2 ^ 63 ≤ z ∧ z < 2 ^ 63

instance (z : ℤ) : Decidable (Fits z) := instDecidableAnd

/-- A client asks for a duration that is not negative, the time points can be computed, the notifications
between the two loads of `seq_` do not bring it back to where it was, and a kernel wait that returned
early is followed by a notification, unless the duration is over before the second load. -/
def Sound (notified : ℕ) (now : ℤ) (c : Call) : Label D → Pc D → Prop
  | .waitFor relTime, _ => 0 ≤ relTime.toInt
  | .run, .forNow relTime _ => Fits (now + relTime.toInt)
  | .run, .untilNow timeoutTime _ => now < timeoutTime.toInt → Fits (timeoutTime.toInt - now)
  | .run, .reload _ relTime _ =>
      (c.loaded < notified → ¬ 2 ^ 32 ∣ notified - c.loaded) ∧
        (c.early = true → now < c.began + relTime.toInt → c.loaded < notified)
  | _, _ => True

def sound : StepCond (State Tid D × History Tid) (Act Tid (Label D)) := fun s a _ =>
  match a with
  | .step t l => Sound s.2.notified s.1.mem.clock.toInt (s.2.call t) l (s.1.thread t)
  | _ => True

instance (notified : ℕ) (now : ℤ) (c : Call) (l : Label D) (pc : Pc D) :
    Decidable (Sound notified now c l pc) :=
  match l with
  | .waitFor relTime => inferInstanceAs (Decidable (0 ≤ relTime.toInt))
  | .run => match pc with
    | .forNow relTime _ => inferInstanceAs (Decidable (Fits (now + relTime.toInt)))
    | .untilNow timeoutTime _ =>
        inferInstanceAs (Decidable (now < timeoutTime.toInt → Fits (timeoutTime.toInt - now)))
    | .reload _ relTime _ => inferInstanceAs (Decidable
        ((c.loaded < notified → ¬ 2 ^ 32 ∣ notified - c.loaded) ∧
          (c.early = true → now < c.began + relTime.toInt → c.loaded < notified)))
    | .idle | .load .. | .unlock .. | .futex .. | .asleep .. | .lock .. | .returned .. | .forPred ..
    | .forCheck .. | .forLast .. | .untilReturned .. | .untilPred .. | .untilCheck .. | .untilLast ..
    | .answered .. => .isTrue trivial
  | .lock | .unlock | .write _ | .notify | .waitForPred .. | .waitUntil _ | .waitUntilPred .. | .ret _
  | .tick _ => .isTrue trivial

instance (s : State Tid D × History Tid) (a : Act Tid (Label D)) (s' : State Tid D × History Tid) :
    Decidable (sound s a s') :=
  match a with
  | .step t l => inferInstanceAs
      (Decidable (Sound s.2.notified s.1.mem.clock.toInt (s.2.call t) l (s.1.thread t)))
  | .sleep _ | .ret _ | .wake .. | .requeue .. => .isTrue trivial

end Psync.ConditionVariable.Timed
