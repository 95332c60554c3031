import Psync.Platform

/-! The bounded multi-producer single-consumer queue: a ring of slots, each with a sequence number,
claimed by producers through a CAS on `head_`. -/

namespace Psync.MPSCQueue

open Concurrency

variable {V Tid : Type*}

/-- A slot; `data` is `none` while it is default-constructed or moved from. -/
structure Slot (V : Type*) where
  sequence : U64
  data : Option V
  deriving DecidableEq

structure Mem (V : Type*) where
  head : U64
  tail : U64
  closed : Bool
  sizeApprox : U64
  buffer : U64 → Slot V

def roundUpPow2 (v : U64) : U64 :=
  let v := v - 1
  let v := v ||| v >>> 1
  let v := v ||| v >>> 2
  let v := v ||| v >>> 4
  let v := v ||| v >>> 8
  let v := v ||| v >>> 16
  let v := v ||| v >>> 32
  v + 1

/-- `mask_` of a queue constructed with `capacity`. -/
def maskOf (capacity : U64) : U64 := roundUpPow2 (if capacity < 2 then 2 else capacity) - 1

/-- The constructor. -/
def Mem.init : Mem V where
  head := 0
  tail := 0
  closed := false
  sizeApprox := 0
  buffer i := ⟨i, none⟩

/-- A call of `try_push`, by a client or by `push_blocking`. -/
structure Push (V : Type*) where
  value : V
  blocking : Bool
  deriving DecidableEq

/-- A call of `try_pop`: by a client, or by `pop_blocking` in its loop or after it saw the queue
closed. -/
inductive PopMode
  | once
  | blocking
  | last
  deriving DecidableEq

/-- The next atomic step of a thread, with the local variables that are live there. -/
inductive Pc (V : Type*)
  /-- Outside every call. -/
  | idle
  /-- `push_blocking`: the load of `closed_`. -/
  | pushCheck (c : Push V)
  /-- `try_push`: a load of `head_`. -/
  | pushHead (c : Push V)
  /-- `try_push`: the load of the sequence of the slot. -/
  | pushSeq (c : Push V) (head : U64)
  /-- `try_push`: the weak CAS on `head_`. -/
  | pushCas (c : Push V) (head : U64)
  /-- `try_push`: the load of `closed_`. -/
  | pushClosed (c : Push V) (head : U64)
  /-- `try_push`: the store that reverts the turn. -/
  | pushRevert (c : Push V) (head : U64)
  /-- `try_push`: the value moves into the slot. -/
  | pushData (c : Push V) (head : U64)
  /-- `try_push`: the store that publishes the slot. -/
  | pushPublish (c : Push V) (head : U64)
  /-- `try_push`: the `fetch_add` on `size_approx_`. -/
  | pushSize (c : Push V)
  /-- `try_push` has returned `result`, and `value` is what it has left in its argument. -/
  | pushed (c : Push V) (result : Bool) (value : Option V)
  /-- `try_pop`: the load of the sequence of the slot at `tail_`. -/
  | popSeq (mode : PopMode)
  /-- `try_pop`: the data moves out of the slot. -/
  | popData (mode : PopMode) (tail : U64)
  /-- `try_pop`: the store that hands the slot to the next lap. -/
  | popRecycle (mode : PopMode) (tail : U64) (result : Option V)
  /-- `try_pop`: the `fetch_sub` on `size_approx_`. -/
  | popSize (mode : PopMode) (result : Option V)
  /-- `try_pop` has returned. -/
  | popped (mode : PopMode) (result : Option (Option V))
  /-- `pop_blocking`: the load of `closed_`. -/
  | popClosed
  /-- `close`: its store. -/
  | close
  deriving DecidableEq

/-- A call that a client begins, `run` for the next step inside a call, or `spurious` for a weak CAS
that fails without cause. -/
inductive Label (V : Type*)
  | tryPush (value : V)
  | pushBlocking (value : V)
  | tryPop
  | popBlocking
  | close
  | run
  | spurious

namespace Mem

variable (mask : U64) (m : Mem V)

/-- `buffer_[i & mask_]`. -/
def slot (i : U64) : Slot V := m.buffer (i &&& mask)

def setSlot (i : U64) (slot : Slot V) : Mem V :=
  { m with buffer := Function.update m.buffer (i &&& mask) slot }

def setSequence (i sequence : U64) : Mem V := m.setSlot mask i { m.slot mask i with sequence }

def setData (i : U64) (data : Option V) : Mem V := m.setSlot mask i { m.slot mask i with data }

end Mem

/-- `capacity()`. -/
def capacity (mask : U64) : U64 := mask + 1

/-- `static_cast<isize>(seq) - static_cast<isize>(pos)`. -/
def diff (seq pos : U64) : ℤ := (seq - pos).toInt

/-- One atomic step of the code. -/
def run (mask : U64) (m : Mem V) : Pc V → Option (Mem V × Pc V)
  | .idle => none
  | .pushCheck c => some (m, if m.closed then .idle else .pushHead c)
  | .pushHead c => some (m, .pushSeq c m.head)
  | .pushSeq c head => some (m,
      if diff (m.slot mask head).sequence head = 0 then .pushCas c head
      else if diff (m.slot mask head).sequence head < 0 then .pushed c false (some c.value)
      else .pushHead c)
  | .pushCas c head => some (
      if m.head = head then ({ m with head := head + 1 }, .pushClosed c head)
      else (m, .pushSeq c m.head))
  | .pushClosed c head => some (m, if m.closed then .pushRevert c head else .pushData c head)
  | .pushRevert c head => some (m.setSequence mask head head, .pushed c false (some c.value))
  | .pushData c head => some (m.setData mask head (some c.value), .pushPublish c head)
  | .pushPublish c head => some (m.setSequence mask head (head + 1), .pushSize c)
  | .pushSize c => some ({ m with sizeApprox := m.sizeApprox + 1 }, .pushed c true none)
  | .pushed c result _ => some (m, if c.blocking && !result then .pushCheck c else .idle)
  | .popSeq mode => some (
      if diff (m.slot mask m.tail).sequence (m.tail + 1) = 0 then
        ({ m with tail := m.tail + 1 }, .popData mode m.tail)
      else (m, .popped mode none))
  | .popData mode tail =>
      some (m.setData mask tail none, .popRecycle mode tail (m.slot mask tail).data)
  | .popRecycle mode tail result =>
      some (m.setSequence mask tail (tail + mask + 1), .popSize mode result)
  | .popSize mode result =>
      some ({ m with sizeApprox := m.sizeApprox - 1 }, .popped mode (some result))
  | .popped mode result =>
      some (m, if mode = .blocking ∧ result.isNone then .popClosed else .idle)
  | .popClosed => some (m, .popSeq (if m.closed then .last else .blocking))
  | .close => some ({ m with closed := true }, .idle)

/-- A weak CAS that fails has loaded the current `head_`. -/
def spurious (m : Mem V) : Pc V → Option (Mem V × Pc V)
  | .pushCas c _ => some (m, .pushSeq c m.head)
  | _ => none

/-- A call begins only outside every call. -/
def start (m : Mem V) (first : Pc V) : Pc V → Option (Mem V × Pc V)
  | .idle => some (m, first)
  | _ => none

/-- Any thread may push and close; only the consumer pops. -/
def step (mask : U64) (isConsumer : Bool) (l : Label V) (m : Mem V) (pc : Pc V) :
    Option (Mem V × Pc V) :=
  match l with
  | .tryPush value => start m (.pushHead ⟨value, false⟩) pc
  | .pushBlocking value => start m (.pushCheck ⟨value, true⟩) pc
  | .tryPop => if isConsumer then start m (.popSeq .once) pc else none
  | .popBlocking => if isConsumer then start m (.popSeq .blocking) pc else none
  | .close => start m .close pc
  | .run => run mask m pc
  | .spurious => spurious m pc

/-- The threads on one queue constructed with `capacity`. -/
def program (V : Type*) {Tid : Type*} [DecidableEq Tid] (capacity : U64) (consumer : Tid) :
    Program Tid (Mem V) (Pc V) Empty (Label V) where
  mem := .init
  start := .idle
  step t := step (maskOf capacity) (t == consumer)

abbrev State (V Tid : Type*) := Config Tid (Mem V) (Pc V) Empty

/-- The thread is inside `try_push` or `push_blocking`. -/
def Pc.pushing : Pc V → Bool
  | .pushCheck _ | .pushHead _ | .pushSeq .. | .pushCas .. | .pushClosed .. | .pushRevert .. => true
  | .pushData .. | .pushPublish .. | .pushSize _ | .pushed .. => true
  | _ => false

/-- The slot a thread has claimed for itself: from the CAS of a producer to its sequence store, and
from the sequence check of the consumer to its recycling store. -/
def Pc.holds (mask : U64) : Pc V → Option U64
  | .pushClosed _ head | .pushRevert _ head | .pushData _ head | .pushPublish _ head =>
      some (head &&& mask)
  | .popData _ tail | .popRecycle _ tail _ => some (tail &&& mask)
  | _ => none

/-- The slot whose data the next step reads or writes. -/
def Pc.accesses (mask : U64) : Pc V → Option U64
  | .pushData _ head => some (head &&& mask)
  | .popData _ tail => some (tail &&& mask)
  | _ => none

/-- The value of `head_` that the CAS of the thread expects. -/
def Pc.claiming : Pc V → Option U64
  | .pushCas _ head => some head
  | _ => none

/-- A CAS that is about to win finds the slot ready for the position it claims. -/
def ClaimFree (mask : U64) (m : Mem V) (pc : Pc V) : Prop :=
  ∀ head ∈ pc.claiming, m.head = head → (m.slot mask head).sequence = head

/-! ### The pops of an undisturbed consumer -/

/-- The steps of the consumer alone until its `try_pop` returns. -/
def popAlone (mask : U64) : ℕ → Mem V × Pc V → Option (Mem V × Option (Option V))
  | _, (m, .popped _ result) => some (m, result)
  | fuel + 1, (m, pc) => (run mask m pc).bind (popAlone mask fuel)
  | 0, _ => none

/-- `try_pop` takes at most four steps. -/
def tryPop (mask : U64) (m : Mem V) : Option (Mem V × Option (Option V)) :=
  popAlone mask 4 (m, .popSeq .once)

/-- Calling `try_pop` until it returns `nullopt` yields `items`. -/
inductive Drains (mask : U64) : Mem V → List (Option V) → Prop
  | empty {m m' : Mem V} (h : tryPop mask m = some (m', none)) : Drains mask m []
  | pop {m m' : Mem V} {item : Option V} {items : List (Option V)}
      (h : tryPop mask m = some (m', some item)) (rest : Drains mask m' items) :
      Drains mask m (item :: items)

end Psync.MPSCQueue
