import Psync.Platform
import Psync.RunChain

/-! The intrusive multi-producer single-consumer queue: a chain of entries through their `next`
pointers, with a stub that belongs to the queue. A push exchanges `head_` and then links its entry
behind the previous one, in two steps. -/

namespace Psync.MPSCIntrusiveQueue

open Concurrency

variable {Node Tid : Type*}

/-- A queue entry: that of a node of the clients, or `stub_`. -/
inductive Cell (Node : Type*)
  | stub
  | entry (node : Node)
  deriving DecidableEq

def Cell.node : Cell Node → Option Node
  | .stub => none
  | .entry node => some node

structure Mem (Node : Type*) where
  next : Cell Node → Option (Cell Node)
  head : Cell Node
  tail : Cell Node

/-- The constructor. -/
def Mem.init : Mem Node where
  next _ := none
  head := .stub
  tail := .stub

/-- The next atomic step of a thread. A push that `pop` makes of the stub returns to the `tail` of
its caller. -/
inductive Pc (Node : Type*)
  /-- Outside every call. -/
  | idle
  /-- `push`: the store to the `next` of the entry. -/
  | pushInit (entry : Cell Node) (caller : Option (Cell Node))
  /-- `push`: the exchange on `head_`. -/
  | pushExchange (entry : Cell Node) (caller : Option (Cell Node))
  /-- `push`: the store to the `next` of the previous entry. -/
  | pushLink (prev entry : Cell Node) (caller : Option (Cell Node))
  /-- `pop`: the load of the `next` of the tail. -/
  | popNext
  /-- `pop`: the same for the entry behind the stub. -/
  | popSecond (tail : Cell Node)
  /-- `pop`: the load of `head_`. -/
  | popHead (tail : Cell Node)
  /-- `pop`: the load after the push of the stub. -/
  | popLast (tail : Cell Node)
  /-- `pop` has returned. -/
  | popped (result : Option (Cell Node))
  deriving DecidableEq

inductive Label (Node : Type*)
  | push (node : Node)
  | pop
  | run

def afterPush : Option (Cell Node) → Pc Node
  | none => .idle
  | some tail => .popLast tail

variable [DecidableEq Node]

def Mem.setNext (m : Mem Node) (entry : Cell Node) (next : Option (Cell Node)) : Mem Node :=
  { m with next := Function.update m.next entry next }

/-- One atomic step inside a call; `tail_` is read and written by the consumer only. -/
def run (m : Mem Node) : Pc Node → Option (Mem Node × Pc Node)
  | .pushInit entry caller => some (m.setNext entry none, .pushExchange entry caller)
  | .pushExchange entry caller => some ({ m with head := entry }, .pushLink m.head entry caller)
  | .pushLink prev entry caller => some (m.setNext prev (some entry), afterPush caller)
  | .popNext => match m.next m.tail with
      | none => some (m, if m.tail = .stub then .popped none else .popHead m.tail)
      | some next => some ({ m with tail := next },
          if m.tail = .stub then .popSecond next else .popped (some m.tail))
  | .popSecond tail => match m.next tail with
      | none => some (m, .popHead tail)
      | some next => some ({ m with tail := next }, .popped (some tail))
  | .popHead tail => some (m,
      if tail ≠ m.head then .popped none else .pushInit .stub (some tail))
  | .popLast tail => match m.next tail with
      | none => some (m, .popped none)
      | some next => some ({ m with tail := next }, .popped (some tail))
  | .popped _ => some (m, .idle)
  | .idle => none

/-- Every thread may push, and one thread pops. -/
def step (isConsumer : Bool) (l : Label Node) (m : Mem Node) (pc : Pc Node) :
    Option (Mem Node × Pc Node) :=
  match l, pc with
  | .push node, .idle => some (m, .pushInit (.entry node) none)
  | .pop, .idle => if isConsumer then some (m, .popNext) else none
  | .run, pc => run m pc
  | _, _ => none

abbrev State (Node Tid : Type*) := Config Tid (Mem Node) (Pc Node) Empty

variable [DecidableEq Tid]

def program (Node : Type*) [DecidableEq Node] (consumer : Tid) :
    Program Tid (Mem Node) (Pc Node) Empty (Label Node) where
  mem := .init
  start := .idle
  step t := step (t = consumer)

/-! ### History -/

/-- A producer is between its exchange and its link. -/
def Pc.linking : Pc Node → Bool
  | .pushLink _ _ none => true
  | _ => false

structure History (Node : Type*) where
  /-- The nodes in the order of the exchanges on `head_`. -/
  exchanged : List Node
  /-- The nodes that pops have returned. -/
  popped : List Node
  /-- A push of the node has begun, and no pop has returned it since. -/
  inside : Node → Bool
  /-- At some step since the last pop began, the queue held no entry, or a producer was between its
  exchange and its link. -/
  excused : Bool

def History.init : History Node := ⟨[], [], fun _ => false, false⟩

/-- What a step adds to the history. -/
def History.grow (h : History Node) (s : State Node Tid) (a : Act Tid (Label Node))
    (s' : State Node Tid) : History Node :=
  match a with
  | .step _ (.push node) => { h with inside := Function.update h.inside node true }
  | .step _ .pop => { h with excused := false }
  | .step t .run => match s.thread t, s'.thread t with
      | .pushExchange (.entry node) _, _ => { h with exchanged := h.exchanged ++ [node] }
      | _, .popped (some (.entry node)) =>
          { h with popped := h.popped ++ [node], inside := Function.update h.inside node false }
      | _, _ => h
  | _ => h

/-- The state after the step may excuse a pop that finds nothing. -/
def History.note [Fintype Tid] (h : History Node) (s : State Node Tid) : History Node :=
  { h with excused := h.excused || decide (h.exchanged.length = h.popped.length) ||
      decide (∃ t, (s.thread t).linking = true) }

def record [Fintype Tid] (h : History Node) (s : State Node Tid) (a : Act Tid (Label Node))
    (s' : State Node Tid) : History Node :=
  (h.grow s a s').note s'

/-- The runs of the queue with their history. -/
def observed (Node : Type*) [DecidableEq Node] [Fintype Tid] (consumer : Tid) :
    Machine (State Node Tid × History Node) (Act Tid (Label Node)) :=
  (program Node consumer).machine.observe .init record

/-- A node is pushed again only after a pop has returned it. -/
def reuses : StepCond (State Node Tid × History Node) (Act Tid (Label Node)) := fun s a _ =>
  match a with
  | .step _ (.push node) => s.2.inside node = false
  | _ => True

instance (s : State Node Tid × History Node) (a : Act Tid (Label Node))
    (s' : State Node Tid × History Node) : Decidable (reuses s a s') :=
  match a with
  | .step _ (.push node) => inferInstanceAs (Decidable (s.2.inside node = false))
  | .step _ .pop | .step _ .run => .isTrue trivial
  | .sleep _ | .ret _ | .wake .. | .requeue .. => .isTrue trivial

/-- The entry to whose `next` the thread is about to store. -/
def Pc.storesTo : Pc Node → Option (Cell Node)
  | .pushInit entry _ => some entry
  | .pushLink prev _ _ => some prev
  | _ => none

/-- The chain of the queue from `tail_` to `head_`. Neighbours are linked, or a push is about to
link them. -/
structure Chain (s : State Node Tid) (chain : List (Cell Node)) : Prop where
  first : chain.head? = some s.mem.tail
  last : chain.getLast? = some s.mem.head
  nodup : chain.Nodup
  linked : ∀ a b, Consecutive chain a b → s.mem.next a = some b ∨
    s.mem.next a = none ∧ ∃ t caller, s.thread t = .pushLink a b caller
  ends : s.mem.next s.mem.head = none

end Psync.MPSCIntrusiveQueue
