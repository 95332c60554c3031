import Psync.ParkingModel

/-! The one-byte lock. All locks share the parking lot of the process, and their addresses may fall
into one bucket. The byte has no room for a waiters bit, so `unlock` always calls `unpark_one`. The futex
words are the wake flags of the threads' nodes. -/

namespace Psync.MicroLock

open Concurrency ParkingLot

abbrev U8 := BitVec 8

def unlocked : U8 := 0x00
def locked : U8 := 0x01

/-- The next atomic step of a thread, in a call on the lock at `this`. -/
inductive Pc (Tid : Type*)
  /-- Outside every call. -/
  | idle
  /-- `lock`: the CAS of the fast path. -/
  | lockCas (this : U64)
  /-- `try_lock`: its CAS. -/
  | tryCas (this : U64)
  /-- `try_lock` has returned `result`. -/
  | tried (this : U64) (result : Bool)
  /-- `lock_contended`: the CAS in iteration `i` of the spin loop. -/
  | spinCas (this : U64) (i : ℕ)
  | park (this : U64) (pc : ParkPc Tid Unit)
  /-- `lock_contended`: the CAS after `park`. -/
  | retryCas (this : U64)
  /-- `unlock`: the store. -/
  | unlockStore (this : U64)
  | unpark (this : U64) (pc : UnparkPc Tid)
  deriving DecidableEq

/-- A thread: the locks it owns, and where it is. -/
structure Thread (Tid : Type*) where
  held : U64 → Bool
  pc : Pc Tid

/-- The byte of every lock, and the parking lot. -/
structure Mem (Tid : Type*) where
  state : U64 → U8
  lot : Lot Tid

inductive Label
  | lock (this : U64)
  | tryLock (this : U64)
  | unlock (this : U64)
  | run
  deriving DecidableEq

variable {Tid : Type*}

def Thread.at (th : Thread Tid) (pc : Pc Tid) : Thread Tid := { th with pc := pc }

def Mem.setState (m : Mem Tid) (this : U64) (v : U8) : Mem Tid :=
  { m with state := Function.update m.state this v }

/-- The CAS of every acquisition. -/
def cas (this : U64) (m : Mem Tid) (th : Thread Tid) (won lost : Pc Tid) : Mem Tid × Thread Tid :=
  if m.state this = unlocked then
    (m.setState this locked, ⟨Function.update th.held this true, won⟩)
  else (m, th.at lost)

/-- The way from one iteration of the spin loop to the next, or to the parking lot. -/
def afterSpin (this : U64) (i : ℕ) : Pc Tid :=
  if i + 1 < spinInitial then .spinCas this (i + 1) else .park this .lockBucket

/-- The validation callback: one load of the byte. -/
def validate (this : U64) : Unit → (U64 → U8) → (U64 → U8) × ParkingLot.Flow Unit Bool
  | (), state => (state, .ret (state this = locked))

/-- `lock_contended` ignores what `park` returns. -/
def afterPark (this : U64) : ParkingLot.Flow (ParkPc Tid Unit) Bool → Pc Tid
  | .at pc => .park this pc
  | .ret _ => .retryCas this

def afterUnpark (this : U64) : ParkingLot.Flow (UnparkPc Tid) UnparkResult → Pc Tid
  | .at pc => .unpark this pc
  | .ret _ => .idle

variable [DecidableEq Tid]

/-- One atomic step of thread `t`, except for the calls into the kernel. -/
def run (t : Tid) (m : Mem Tid) (th : Thread Tid) : Option (Mem Tid × Thread Tid) :=
  match th.pc with
  | .idle => none
  | .lockCas this => some (cas this m th .idle (.spinCas this 0))
  | .tryCas this => some (cas this m th (.tried this true) (.tried this false))
  | .tried _ _ => some (m, th.at .idle)
  | .spinCas this i => some (cas this m th .idle (afterSpin this i))
  | .park this pc => (park () (validate this) this t m.state m.lot pc).map fun r =>
      (⟨r.1, r.2.1⟩, th.at (afterPark this r.2.2))
  | .retryCas this => some (cas this m th .idle (.spinCas this 0))
  | .unlockStore this => some (m.setState this unlocked,
      ⟨Function.update th.held this false, .unpark this .lockBucket⟩)
  | .unpark this pc => (unparkOne (fun _ state => state) this m.state m.lot pc).map fun r =>
      (⟨r.1, r.2.1⟩, th.at (afterUnpark this r.2.2))

/-- A client begins a call only outside every call, and `unlock` only on a lock it owns. -/
def step (t : Tid) (l : Label) (m : Mem Tid) (th : Thread Tid) : Option (Mem Tid × Thread Tid) :=
  match l with
  | .lock this => if th.pc = .idle then some (m, th.at (.lockCas this)) else none
  | .tryLock this => if th.pc = .idle then some (m, th.at (.tryCas this)) else none
  | .unlock this =>
      if th.pc = .idle ∧ th.held this = true then some (m, th.at (.unlockStore this)) else none
  | .run => run t m th

def wait (th : Thread Tid) : Option (WaitCall (Mem Tid) (Thread Tid) Tid) :=
  match th.pc with
  | .park this pc => parkWait Mem.lot (fun pc => th.at (.park this pc)) pc
  | _ => none

def wake (th : Thread Tid) : Option (WakeCall (Thread Tid) Tid) :=
  match th.pc with
  | .unpark this pc => unparkWake (fun result => th.at (afterUnpark this (.ret result))) pc
  | _ => none

/-- The threads of a process, with a lock at every address. -/
def program (Tid : Type*) [DecidableEq Tid] : Program Tid (Mem Tid) (Thread Tid) Tid Label where
  mem := ⟨fun _ => unlocked, .init⟩
  start := ⟨fun _ => false, .idle⟩
  step := step
  wait := wait
  wake := wake

abbrev State (Tid : Type*) := Config Tid (Mem Tid) (Thread Tid) Tid

/-- The thread sleeps in the kernel, in `park` for the lock at `this`. -/
def Asleep (s : State Tid) (this : U64) (t : Tid) : Prop :=
  s.asleep t ≠ none ∧ ∃ pc, (s.thread t).pc = .park this pc

/-- The lock for which a thread is in `lock`, and is going to try again unless it sleeps in the kernel. -/
def Pc.seeks (flag : U32) : Pc Tid → Option U64
  | .lockCas this | .spinCas this _ | .retryCas this => some this
  | .park this pc => if pc.tries flag then some this else none
  | .idle | .tryCas _ | .tried .. | .unlockStore _ | .unpark .. => none

end Psync.MicroLock
