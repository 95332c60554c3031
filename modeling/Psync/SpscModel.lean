import Psync.MpscModel

/-! The bounded single-producer single-consumer queue: a ring of raw slots between two indices that
only their owners store to, each side with a cached copy of the other side's index. -/

namespace Psync.SPSCQueue

open Concurrency

variable {V Tid : Type*}

/-- A slot of the buffer: raw memory, or an object, which may be moved from. -/
inductive Slot (V : Type*)
  | raw
  | live (value : V)
  | moved
  deriving DecidableEq

structure Mem (V : Type*) where
  head : U64
  tailCached : U64
  tail : U64
  headCached : U64
  buffer : U64 → Slot V

/-- `mask_`; both queues round their capacity up in the same way. -/
def maskOf (capacity : U64) : U64 := MPSCQueue.maskOf capacity

/-- `capacity()`. -/
def capacityOf (mask : U64) : U64 := mask + 1

/-- The constructor. -/
def Mem.init : Mem V where
  head := 0
  tailCached := 0
  tail := 0
  headCached := 0
  buffer _ := .raw

/-- The next atomic step of a thread, with the local variables that are live there. -/
inductive Pc (V : Type*)
  /-- Outside every call. -/
  | idle
  /-- `try_push`: the load of `head_`. -/
  | pushHead (value : V)
  /-- `try_push`: the load of `tail_`. -/
  | pushTail (value : V) (head : U64)
  /-- `try_push`: the construction of the slot. -/
  | pushConstruct (value : V) (head : U64)
  /-- `try_push`: the store to `head_`. -/
  | pushStore (value : V) (head : U64)
  /-- `try_push` has returned. -/
  | pushed (result : Bool)
  /-- `try_pop`: the load of `tail_`. -/
  | popTail
  /-- `try_pop`: the load of `head_`. -/
  | popHead (tail : U64)
  /-- `try_pop`: the move out of the slot. -/
  | popMove (tail : U64)
  /-- `try_pop`: the destructor of the slot. -/
  | popDestroy (tail : U64) (out : Option V)
  /-- `try_pop`: the store to `tail_`. -/
  | popStore (tail : U64) (out : Option V)
  /-- `try_pop` has returned: `none` is `false`. -/
  | popped (result : Option (Option V))
  deriving DecidableEq

inductive Label (V : Type*)
  | tryPush (value : V)
  | tryPop
  | run

def Mem.slot (m : Mem V) (mask i : U64) : Slot V := m.buffer (i &&& mask)

def Mem.setSlot (m : Mem V) (mask i : U64) (slot : Slot V) : Mem V :=
  { m with buffer := Function.update m.buffer (i &&& mask) slot }

/-- What `std::move` finds in a slot. -/
def Slot.value : Slot V → Option V
  | .live value => some value
  | _ => none

/-- The unsigned comparison of `try_push`. -/
def full (mask head tail : U64) : Prop := mask < head - tail

instance (mask head tail : U64) : Decidable (full mask head tail) :=
  inferInstanceAs (Decidable (mask < head - tail))

/-- One atomic step inside a call; the cached indices are read and written by their owner only. -/
def run (mask : U64) (m : Mem V) : Pc V → Option (Mem V × Pc V)
  | .pushHead value => some (m,
      if full mask m.head m.tailCached then .pushTail value m.head else .pushConstruct value m.head)
  | .pushTail value head => some ({ m with tailCached := m.tail },
      if full mask head m.tail then .pushed false else .pushConstruct value head)
  | .pushConstruct value head => some (m.setSlot mask head (.live value), .pushStore value head)
  | .pushStore _ head => some ({ m with head := head + 1 }, .pushed true)
  | .popTail => some (m, if m.tail = m.headCached then .popHead m.tail else .popMove m.tail)
  | .popHead tail => some ({ m with headCached := m.head },
      if tail = m.head then .popped none else .popMove tail)
  | .popMove tail =>
      some (m.setSlot mask tail .moved, .popDestroy tail (m.slot mask tail).value)
  | .popDestroy tail out => some (m.setSlot mask tail .raw, .popStore tail out)
  | .popStore tail out => some ({ m with tail := tail + 1 }, .popped (some out))
  | .pushed _ | .popped _ => some (m, .idle)
  | .idle => none

/-- One thread pushes and one thread pops. -/
def step (mask : U64) (isProducer isConsumer : Bool) (l : Label V) (m : Mem V) (pc : Pc V) :
    Option (Mem V × Pc V) :=
  match l, pc with
  | .tryPush value, .idle => if isProducer then some (m, .pushHead value) else none
  | .tryPop, .idle => if isConsumer then some (m, .popTail) else none
  | .run, pc => run mask m pc
  | _, _ => none

variable [DecidableEq Tid]

def program (V : Type*) (capacity : U64) (producer consumer : Tid) :
    Program Tid (Mem V) (Pc V) Empty (Label V) where
  mem := .init
  start := .idle
  step t := step (maskOf capacity) (t = producer) (t = consumer)

/-- The values that pushes have accepted and the values that pops have returned, in order. -/
structure History (V : Type*) where
  pushed : List V
  popped : List (Option V)

abbrev State (V Tid : Type*) := Config Tid (Mem V) (Pc V) Empty

/-- A push is accepted at its store to `head_`, and a pop takes effect at its store to `tail_`. -/
def record (h : History V) (s : State V Tid) (a : Act Tid (Label V)) (_ : State V Tid) : History V :=
  match a with
  | .step t .run => match s.thread t with
      | .pushStore value _ => { h with pushed := h.pushed ++ [value] }
      | .popStore _ out => { h with popped := h.popped ++ [out] }
      | _ => h
  | _ => h

/-- The runs of the queue with their history. -/
def observed (V : Type*) [Fintype Tid] (capacity : U64) (producer consumer : Tid) :
    Machine (State V Tid × History V) (Act Tid (Label V)) :=
  (program V capacity producer consumer).machine.observe ⟨[], []⟩ record

/-- What the ring holds. -/
def History.items (h : History V) : List V := h.pushed.drop h.popped.length

end Psync.SPSCQueue
