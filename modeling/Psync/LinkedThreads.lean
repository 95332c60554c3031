import Psync.LinkedModel
import Psync.RunFutex

/-! The threads of a process in one parking lot. A thread parks on a node on its own stack; between two
calls the memory of the node is its own. The futex word of a parked thread is the wake flag of its
node. -/

namespace Psync.LinkedLot

open Concurrency
open ParkingLot (UnparkResult hashAddress)

variable {Node : Type*}

/-- The next atomic step of a thread. -/
inductive Pc (Node : Type*)
  /-- Outside every call. -/
  | idle
  | park (address : U64) (node : Node) (pc : ParkPc)
  | unparkOne (address : U64) (pc : UnparkPc Node)
  | unparkAll (address : U64) (pc : UnparkAllPc Node)
  deriving DecidableEq

inductive Label (Node : Type*)
  | park (address : U64) (node : Node)
  | unparkOne (address : U64)
  | unparkAll (address : U64)
  /-- A write of the owner to the memory of a node that is not in use. -/
  | store (node : Node) (v : WaiterNode Node)
  /-- A step of the call; `valid` is what the callback of `park` returns. -/
  | run (valid : Bool)

/-- A thread is inside the call, or outside every call. -/
def enter {P R : Type*} (call : P → Pc Node) : Next (Lot Node) P R → Lot Node × Pc Node
  | .at lot pc => (lot, call pc)
  | .ret lot _ => (lot, .idle)

variable [DecidableEq Node]

/-- One step of the call that a thread is in, except for the calls into the kernel. -/
def run (valid : Bool) (lot : Lot Node) : Pc Node → Option (Lot Node × Pc Node)
  | .idle => none
  | .park address node pc => (park address node valid lot pc).map (enter (.park address node))
  | .unparkOne _ (.wake ..) => none
  | .unparkOne address pc => some (enter (.unparkOne address) (unparkOne address lot pc))
  | .unparkAll _ (.wake ..) => none
  | .unparkAll address pc => some (enter (.unparkAll address) (unparkAll address lot pc))

/-- `futex::wait(&node->wake_flag, 0)`. -/
def wait : Pc Node → Option (WaitCall (Lot Node) (Pc Node) Node)
  | .park address node .wait => some
      { addr := node, holds := fun lot => (lot.nodes node).wakeFlag = 0, after := .park address node .load }
  | _ => none

/-- `futex::wake(&target->wake_flag, 1)`. The kernel uses the address of the word and does not read
the word. -/
def wake : Pc Node → Option (WakeCall (Pc Node) Node)
  | .unparkOne _ (.wake target _) => some ⟨target, some 1, .idle⟩
  | .unparkAll address (.wake count curr next) => some ⟨curr, some 1, match next with
      | some curr => .unparkAll address (.wakeNext count curr)
      | none => .idle⟩
  | _ => none

variable {Tid : Type*} [DecidableEq Tid] (owner : Node → Tid)

/-- A client begins a call only outside every call, and parks on a node of its own. -/
def step (t : Tid) (l : Label Node) (lot : Lot Node) (th : Pc Node) : Option (Lot Node × Pc Node) :=
  match l with
  | .park address node =>
      if th = .idle ∧ owner node = t then some (lot, .park address node .lockBucket) else none
  | .unparkOne address => if th = .idle then some (lot, .unparkOne address .lockBucket) else none
  | .unparkAll address => if th = .idle then some (lot, .unparkAll address .lockBucket) else none
  | .store node v => if th = .idle ∧ owner node = t then some (lot.setNode node v, .idle) else none
  | .run valid => run valid lot th

def program : Program Tid (Lot Node) (Pc Node) Node (Label Node) where
  mem := .init
  start := .idle
  step := step owner
  wait := wait
  wake := wake

abbrev Process (Tid Node : Type*) := Config Tid (Lot Node) (Pc Node) Node

/-! ### Pointers -/

/-- The nodes whose addresses `unpark_one` is still going to use. -/
def UnparkPc.pointers : UnparkPc Node → List Node
  | .lockBucket | .loadHead | .unlockBucket .. | .wake .. => []
  | .key prev curr | .loadNext prev curr | .fixTail prev curr => curr :: prev.toList
  | .unlink prev target after => target :: (prev.toList ++ after.toList)
  | .next curr => [curr]
  | .checkKey target check | .checkNext target check => [target, check]
  | .loadCheck target | .setFlag target _ => [target]
  | .callback target _ => target.toList

/-- The nodes whose addresses `unpark_all` is still going to use. -/
def UnparkAllPc.pointers : UnparkAllPc Node → List Node
  | .lockBucket | .loadHead => []
  | .next l curr => curr :: (l.prev.toList ++ l.toWakeHead.toList ++ l.toWakeTail.toList)
  | .key l curr after | .unlink l curr after | .fixTail l curr after | .clear l curr after
  | .link l curr after =>
      curr :: (after.toList ++ l.prev.toList ++ l.toWakeHead.toList ++ l.toWakeTail.toList)
  | .unlockBucket l => l.toWakeHead.toList
  | .wakeNext _ curr => [curr]
  | .setFlag _ curr after => curr :: after.toList
  | .wake _ _ after => after.toList

/-- The nodes of other threads whose addresses a thread is still going to use. -/
def Pc.pointers : Pc Node → List Node
  | .idle | .park .. => []
  | .unparkOne _ pc => pc.pointers
  | .unparkAll _ pc => pc.pointers

/-- The node that the thread has linked in the `park` it is in. -/
def Pc.linked : Pc Node → Option Node
  | .park _ node .setTail | .park _ node .unlockBucket | .park _ node .load | .park _ node .wait => some node
  | _ => none

/-- The owner of the node is parked on it, and has not been released. -/
def Live (s : Process Tid Node) (n : Node) : Prop :=
  (s.thread (owner n)).linked = some n ∧ (s.mem.nodes n).wakeFlag = 0

/-- No step that thread `t` can take next reads or writes a field of `n`: the step is the same
whatever `n` holds, and leaves it there. -/
structure Ignores (s : Process Tid Node) (t : Tid) (n : Node) : Prop where
  step : ∀ l v, step owner t l (s.mem.setNode n v) (s.thread t) =
    (step owner t l s.mem (s.thread t)).map fun r => (r.1.setNode n v, r.2)
  wait : ∀ w, wait (s.thread t) = some w → ∀ v, w.holds (s.mem.setNode n v) = w.holds s.mem

/-! ### What happens to a node -/

/-- A call of one of the three functions: the thread, the address, and how many calls the thread had
begun with it. -/
structure Call (Tid : Type*) where
  tid : Tid
  address : U64
  index : ℕ
  deriving DecidableEq

inductive Event (Tid : Type*)
  /-- `park` has linked the node. -/
  | linked (park : Call Tid)
  /-- `unpark_one` or `unpark_all` has unlinked the node from the bucket. -/
  | removed (unpark : Call Tid)
  /-- The wake flag has been set. -/
  | flagged (unpark : Call Tid)
  /-- `park` has returned true. -/
  | returned (park : Call Tid)
  deriving DecidableEq

/-- The events of every node, the latest first, and the number of calls every thread has begun. -/
structure History (Tid Node : Type*) where
  log : Node → List (Event Tid)
  calls : Tid → ℕ

def Pc.address : Pc Node → U64
  | .idle => 0
  | .park address _ _ | .unparkOne address _ | .unparkAll address _ => address

/-- The call that a thread at `th` is in. -/
def History.call (w : History Tid Node) (t : Tid) (th : Pc Node) : Call Tid :=
  ⟨t, th.address, w.calls t⟩

/-- What the next step of a thread in the call `c` does to a node. -/
def Pc.event (c : Call Tid) (valid : Bool) (lot : Lot Node) : Pc Node → Option (Node × Event Tid)
  | .park address node pc => match LinkedLot.park address node valid lot pc with
    | some (.at _ .setTail) => some (node, .linked c)
    | some (.ret _ true) => some (node, .returned c)
    | _ => none
  | .unparkOne _ (.unlink _ target _) => some (target, .removed c)
  | .unparkOne _ (.setFlag target _) => some (target, .flagged c)
  | .unparkAll _ (.unlink _ curr _) => some (curr, .removed c)
  | .unparkAll _ (.setFlag _ curr _) => some (curr, .flagged c)
  | _ => none

def History.begin (w : History Tid Node) (t : Tid) : History Tid Node :=
  { w with calls := Function.update w.calls t (w.calls t + 1) }

def History.push (w : History Tid Node) : Option (Node × Event Tid) → History Tid Node
  | some (n, e) => { w with log := Function.update w.log n (e :: w.log n) }
  | none => w

def record (w : History Tid Node) (s : Process Tid Node) (a : Act Tid (Label Node)) (_ : Process Tid Node) :
    History Tid Node :=
  match a with
  | .step t (.run valid) => w.push ((s.thread t).event (w.call t (s.thread t)) valid s.mem)
  | .step t (.park ..) | .step t (.unparkOne _) | .step t (.unparkAll _) => w.begin t
  | _ => w

def observed [Fintype Tid] : Machine (Process Tid Node × History Tid Node) (Act Tid (Label Node)) :=
  (program owner).machine.observe ⟨fun _ => [], fun _ => 0⟩ record

end Psync.LinkedLot
