import Psync.RunMachine
import Psync.RunThreads

/-! `UniqueLock` and `SharedLock`: wrappers that hold a pointer to a mutex and know whether they own a
hold of it. The two classes have the same code; a `UniqueLock` takes and gives up exclusive holds and a
`SharedLock` shared ones. -/

namespace Psync.Locks

open Concurrency

/-- The class of a wrapper, and the kind of its holds. -/
inductive Kind
  | uniqueLock
  | sharedLock
  deriving DecidableEq

variable {Obj Mx : Type*}

/-- A wrapper; `mutex` is a pointer. -/
structure Lock (Mx : Type*) where
  mutex : Option Mx
  owns : Bool
  deriving DecidableEq

/-- A call that a wrapper makes to a mutex and that takes or gives up a hold. -/
inductive Call (Mx : Type*)
  | lock (m : Mx)
  | unlock (m : Mx)
  deriving DecidableEq

namespace Lock

variable (l : Lock Mx)

/-- `UniqueLock()`. -/
def default : Lock Mx := ⟨none, false⟩

/-- `UniqueLock(m)`. -/
def locked (m : Mx) : Lock Mx × Option (Call Mx) := (⟨some m, true⟩, some (.lock m))

/-- `UniqueLock(m, defer_lock)`. -/
def deferLock (m : Mx) : Lock Mx := ⟨some m, false⟩

/-- `UniqueLock(m, try_to_lock)` when `m.try_lock()` returns `ok`. -/
def tryToLock (m : Mx) (ok : Bool) : Lock Mx × Option (Call Mx) :=
  (⟨some m, ok⟩, if ok then some (.lock m) else none)

/-- `UniqueLock(m, adopt_lock)`. -/
def adoptLock (m : Mx) : Lock Mx := ⟨some m, true⟩

/-- The destructor. -/
def destroy : Option (Call Mx) :=
  match l.mutex with
  | some m => if l.owns then some (.unlock m) else none
  | none => none

def lock : Lock Mx × Option (Call Mx) :=
  match l.mutex with
  | some m => if l.owns then (l, none) else (⟨some m, true⟩, some (.lock m))
  | none => (l, none)

/-- The result is the last component; `ok` is what the mutex answers. -/
def tryLock (ok : Bool) : Lock Mx × Option (Call Mx) × Bool :=
  match l.mutex with
  | some m => if l.owns then (l, none, false) else (⟨some m, ok⟩, if ok then some (.lock m) else none, ok)
  | none => (l, none, false)

def unlock : Lock Mx × Option (Call Mx) :=
  match l.mutex with
  | some m => if l.owns then (⟨some m, false⟩, some (.unlock m)) else (l, none)
  | none => (l, none)

def release : Lock Mx × Option Mx := (⟨none, false⟩, l.mutex)

/-- The wrapper refers to `m` with `owns_`. -/
def holds [DecidableEq Mx] (m : Mx) (l : Lock Mx) : Bool := l.owns && decide (l.mutex = some m)

end Lock

/-- The holds of every mutex, the live wrappers, and the holds that the client has taken out of wrappers
and not adopted again. -/
structure State (Obj Mx : Type*) where
  holds : Kind → Mx → ℕ
  lock : Kind → Obj → Option (Lock Mx)
  released : Kind → Mx → ℕ

def State.init : State Obj Mx := ⟨fun _ _ => 0, fun _ _ => none, fun _ _ => 0⟩

inductive Op (Obj Mx : Type*)
  | default (o : Obj)
  | locked (o : Obj) (m : Mx)
  | deferLock (o : Obj) (m : Mx)
  | tryToLock (o : Obj) (m : Mx) (ok : Bool)
  | adoptLock (o : Obj) (m : Mx)
  | moveConstruct (o other : Obj)
  | destroy (o : Obj)
  | moveAssign (o other : Obj)
  | lock (o : Obj)
  | tryLock (o : Obj) (ok : Bool)
  | unlock (o : Obj)
  | release (o : Obj)
  | swap (o other : Obj)
  deriving DecidableEq

/-- The wrapper whose member function runs. -/
def Op.this : Op Obj Mx → Obj
  | .default o | .locked o _ | .deferLock o _ | .tryToLock o _ _ | .adoptLock o _ | .moveConstruct o _
  | .destroy o | .moveAssign o _ | .lock o | .tryLock o _ | .unlock o | .release o | .swap o _ => o

variable [DecidableEq Obj] [DecidableEq Mx]

def adjust (f : Kind → Mx → ℕ) (k : Kind) (m : Mx) (n : ℕ) : Kind → Mx → ℕ :=
  fun j x => if j = k ∧ x = m then n else f j x

/-- Whether a hold can be taken out of a mutex, given the numbers of its holds of either kind. -/
abbrev Admits := Kind → (Kind → ℕ) → Bool

/-- An exclusive hold excludes all others. -/
def exclusion : Admits
  | .uniqueLock, n => n .uniqueLock = 0 ∧ n .sharedLock = 0
  | .sharedLock, n => n .uniqueLock = 0

namespace State

variable (s : State Obj Mx) (k : Kind)

def setLock (o : Obj) (w : Option (Lock Mx)) : State Obj Mx :=
  { s with lock := fun j => if j = k then Function.update (s.lock j) o w else s.lock j }

/-- A call to a mutex; a hold is taken only where that is possible. -/
def call (admits : Admits) : Option (Call Mx) → Option (State Obj Mx)
  | none => some s
  | some (.lock m) => if admits k (fun j => s.holds j m) = true then
      some { s with holds := adjust s.holds k m (s.holds k m + 1) } else none
  | some (.unlock m) => some { s with holds := adjust s.holds k m (s.holds k m - 1) }

/-- The hold that an owning wrapper had is in the hands of the client. -/
def handOut (m : Option Mx) (owned : Bool) : State Obj Mx :=
  match m with
  | some m => if owned then { s with released := adjust s.released k m (s.released k m + 1) } else s
  | none => s

def handIn (m : Mx) : State Obj Mx :=
  { s with released := adjust s.released k m (s.released k m - 1) }

/-- A wrapper is constructed where there is none. -/
def construct (admits : Admits) (o : Obj) (r : Lock Mx × Option (Call Mx)) :
    Option (State Obj Mx × Option (Call Mx)) :=
  match s.lock k o with
  | none => (s.call k admits r.2).map fun s => (s.setLock k o (some r.1), r.2)
  | some _ => none

/-- A member function of a live wrapper. -/
def member (admits : Admits) (o : Obj) (f : Lock Mx → Lock Mx × Option (Call Mx)) :
    Option (State Obj Mx × Option (Call Mx)) :=
  match s.lock k o with
  | some l => (s.call k admits (f l).2).map fun s => (s.setLock k o (some (f l).1), (f l).2)
  | none => none

end State

/-- The call of an operation and the state after it. Only a hold that was taken out is adopted. -/
def step (admits : Admits) (k : Kind) (s : State Obj Mx) :
    Op Obj Mx → Option (State Obj Mx × Option (Call Mx))
  | .default o => s.construct k admits o (.default, none)
  | .locked o m => s.construct k admits o (Lock.locked m)
  | .deferLock o m => s.construct k admits o (.deferLock m, none)
  | .tryToLock o m ok => s.construct k admits o (Lock.tryToLock m ok)
  | .adoptLock o m =>
      if 0 < s.released k m then (s.handIn k m).construct k admits o (.adoptLock m, none) else none
  | .moveConstruct o other => match s.lock k o, s.lock k other with
    | none, some l => some ((s.setLock k o (some l)).setLock k other (some .default), none)
    | _, _ => none
  | .destroy o => match s.lock k o with
    | some l => (s.call k admits l.destroy).map fun s => (s.setLock k o none, l.destroy)
    | none => none
  | .moveAssign o other => match s.lock k o, s.lock k other with
    | some l, some l' => if o = other then some (s, none)
        else (s.call k admits l.destroy).map fun s =>
          ((s.setLock k o (some l')).setLock k other (some .default), l.destroy)
    | _, _ => none
  | .lock o => s.member k admits o Lock.lock
  | .tryLock o ok => s.member k admits o fun l => ((l.tryLock ok).1, (l.tryLock ok).2.1)
  | .unlock o => s.member k admits o Lock.unlock
  | .release o => match s.lock k o with
    | some l => some ((s.handOut k l.release.2 l.owns).setLock k o (some l.release.1), none)
    | none => none
  | .swap o other => match s.lock k o, s.lock k other with
    | some l, some l' => some ((s.setLock k o (some l')).setLock k other (some l), none)
    | _, _ => none

/-- All sequences of operations on wrappers of both classes. -/
def machine (Obj Mx : Type*) [DecidableEq Obj] [DecidableEq Mx] (admits : Admits) :
    Machine (State Obj Mx) (Kind × Op Obj Mx) where
  init := .init
  next s a := (step admits a.1 s a.2).map Prod.fst

/-- The wrapper is alive and owns a hold of `m`. -/
def ownsHold (m : Mx) (w : Option (Lock Mx)) : Bool := w.any (Lock.holds m)

end Psync.Locks
