import Psync.EpochState
import Psync.RunSolo

/-! The manager with its pointers: the `RetiredNode` objects on the heap, linked through `next` from
`retired_head_`. What the code does to the slots and the epochs is taken from the model with a list;
the steps of `retire_internal`, `try_reclaim` and `reclaim_all` that touch the objects are here. -/

namespace Psync.EpochHeap

open Concurrency
open EpochManager (Slot ThreadState Guard RetiredNode History)

variable {Tid Loc Node Addr : Type*}

/-- A `RetiredNode` object. -/
structure Cell (Node Addr : Type*) extends RetiredNode Node where
  next : Option Addr

/-- The manager, the locations that its clients share, and the objects that `new` has allocated. -/
structure Mem (Loc Node Addr : Type*) where
  globalEpoch : U64
  threads : Slot → ThreadState
  retiredHead : Option Addr
  /-- `reclaim_mu_` is locked. -/
  reclaimMu : Bool
  shared : Loc → Option Node
  cells : Addr → Option (Cell Node Addr)

/-- The constructor; nothing is allocated. -/
def Mem.init : Mem Loc Node Addr where
  globalEpoch := 1
  threads _ := ⟨EpochManager.kInactiveEpoch, false⟩
  retiredHead := none
  reclaimMu := false
  shared _ := none
  cells _ := none

/-- The next atomic step of a thread. What `reclaim_mu_` protects is merged with the step next to it. -/
inductive Pc (Node Addr : Type*)
  /-- A position without a pointer to an object. -/
  | outer (pc : EpochManager.Pc Node)
  /-- `retire_internal`: locking `reclaim_mu_`. -/
  | retireLock (node : Addr)
  /-- `retire_internal`: `node->next = retired_head_`. -/
  | retireHead (node : Addr)
  /-- `retire_internal`: `retired_head_ = node`. -/
  | retireStore (node : Addr)
  /-- `try_reclaim`: `curr` is kept or unlinked. At the end of the list, unlocking `reclaim_mu_`. -/
  | sweep (minEpoch : U64) (prev curr : Option Addr)
  /-- `try_reclaim`: the deleter of `to_del`, and `delete to_del`. -/
  | delete (minEpoch : U64) (prev : Option Addr) (toDel : Addr) (curr : Option Addr)

/-- A thread: its slot, its guards and its position. -/
structure Local (Node Addr : Type*) where
  slot : Option Slot
  guards : List Guard
  pc : Pc Node Addr

/-- What the model with a list labels, or the load of `retire_internal`, for which `new` has returned
`node`. -/
inductive Label (Loc Node Addr : Type*)
  | code (label : EpochManager.Label Loc Node)
  | new (node : Addr)

namespace Mem

variable (m : Mem Loc Node Addr)

/-- The manager without its pointers. -/
def view (retired : List (RetiredNode Node)) : EpochManager.Mem Loc Node where
  globalEpoch := m.globalEpoch
  threads := m.threads
  retired := retired
  reclaimMu := m.reclaimMu
  shared := m.shared

/-- Everything but the pointers is taken from `m'`. -/
def put (m' : EpochManager.Mem Loc Node) : Mem Loc Node Addr :=
  { m with
    globalEpoch := m'.globalEpoch
    threads := m'.threads
    reclaimMu := m'.reclaimMu
    shared := m'.shared }

def setHead (p : Option Addr) : Mem Loc Node Addr := { m with retiredHead := p }

def setMu (b : Bool) : Mem Loc Node Addr := { m with reclaimMu := b }

variable [DecidableEq Addr]

def setCell (a : Addr) (cell : Option (Cell Node Addr)) : Mem Loc Node Addr :=
  { m with cells := Function.update m.cells a cell }

/-- `a->next = next` for an object that is allocated. -/
def setNext (a : Addr) (next : Option Addr) : Option (Mem Loc Node Addr) :=
  (m.cells a).map fun cell => m.setCell a (some { cell with next := next })

/-- `if (prev) prev->next = next; else retired_head_ = next;` -/
def setLink (prev next : Option Addr) : Option (Mem Loc Node Addr) :=
  match prev with
  | some prev => m.setNext prev next
  | none => some (m.setHead next)

end Mem

def Local.go (l : Local Node Addr) (pc : Pc Node Addr) : Local Node Addr := { l with pc }

def Local.view (l : Local Node Addr) (pc : EpochManager.Pc Node) : EpochManager.Local Node :=
  ⟨l.slot, l.guards, pc⟩

/-- The outcome of a step that touches no object. -/
def Mem.outer (m : Mem Loc Node Addr) (r : EpochManager.Mem Loc Node × EpochManager.Local Node) :
    Mem Loc Node Addr × Local Node Addr :=
  (m.put r.1, ⟨r.2.slot, r.2.guards, .outer r.2.pc⟩)

section Steps

variable [DecidableEq Addr]

/-- One atomic step of the code. A pointer to an object that is not allocated has no next step. -/
def run (m : Mem Loc Node Addr) (l : Local Node Addr) : Option (Mem Loc Node Addr × Local Node Addr) :=
  match l.pc with
  | .outer (.retireLoad _) => none
  | .outer (.reclaimHead minEpoch) => some (m, l.go (.sweep minEpoch none m.retiredHead))
  | .outer pc => (EpochManager.run (m.view []) (l.view pc)).map m.outer
  | .retireLock node => if m.reclaimMu then none else some (m.setMu true, l.go (.retireHead node))
  | .retireHead node => (m.setNext node m.retiredHead).map fun m' => (m', l.go (.retireStore node))
  | .retireStore node => some (m.setHead (some node), l.go (.outer .retireUnlock))
  | .sweep _ _ none => some (m.setMu false, l.go (.outer .idle))
  | .sweep minEpoch prev (some curr) => (m.cells curr).bind fun cell =>
      if cell.epoch < minEpoch then
        (m.setLink prev cell.next).map fun m' => (m', l.go (.delete minEpoch prev curr cell.next))
      else some (m, l.go (.sweep minEpoch (some curr) cell.next))
  | .delete minEpoch prev toDel curr => (m.cells toDel).map fun _ =>
      (m.setCell toDel none, l.go (.sweep minEpoch prev curr))

def step [DecidableEq Loc] (label : Label Loc Node Addr) (m : Mem Loc Node Addr)
    (l : Local Node Addr) : Option (Mem Loc Node Addr × Local Node Addr) :=
  match label, l.pc with
  | .new node, .outer (.retireLoad ptr) =>
      if (m.cells node).isNone then
        some (m.setCell node (some ⟨⟨ptr, m.globalEpoch⟩, none⟩), l.go (.retireLock node))
      else none
  | .new _, _ => none
  | .code .run, _ => run m l
  | .code label, .outer .idle => (EpochManager.call label (m.view []) (l.view .idle)).map m.outer
  | .code _, _ => none

/-- The threads on one manager, before its destruction. -/
def program (Tid Loc Node Addr : Type*) [DecidableEq Loc] [DecidableEq Addr] :
    Program Tid (Mem Loc Node Addr) (Local Node Addr) Empty (Label Loc Node Addr) where
  mem := .init
  start := ⟨none, [], .outer .idle⟩
  step _ := step

abbrev State (Tid Loc Node Addr : Type*) := Config Tid (Mem Loc Node Addr) (Local Node Addr) Empty

/-! ### The destructor -/

/-- The next step of `reclaim_all`. -/
inductive DestroyPc (Node Addr : Type*)
  /-- Locking `reclaim_mu_`. -/
  | lock
  /-- `curr = retired_head_`. -/
  | loadHead
  /-- The head of `while (curr)`: the loads of `next` and `ptr`, or `retired_head_ = nullptr`. -/
  | loop (curr : Option Addr)
  /-- The deleter of `ptr`, and `delete curr`. -/
  | delete (ptr : Node) (curr : Addr) (next : Option Addr)
  | unlock

def reclaimAll (m : Mem Loc Node Addr) :
    DestroyPc Node Addr → Option (Next (Mem Loc Node Addr) (DestroyPc Node Addr) Unit)
  | .lock => if m.reclaimMu then none else some (.at (m.setMu true) .loadHead)
  | .loadHead => some (.at m (.loop m.retiredHead))
  | .loop none => some (.at (m.setHead none) .unlock)
  | .loop (some curr) => (m.cells curr).map fun cell => .at m (.delete cell.ptr curr cell.next)
  | .delete _ curr next => some (.at (m.setCell curr none) (.loop next))
  | .unlock => some (.ret (m.setMu false) ())

/-- The deleter that the step runs. -/
def DestroyPc.deleted : DestroyPc Node Addr → List Node
  | .delete ptr _ _ => [ptr]
  | _ => []

end Steps

/-! ### The history of a run -/

def record [DecidableEq Tid] (h : History Tid Node) (s : State Tid Loc Node Addr)
    (a : Act Tid (Label Loc Node Addr)) (_ : State Tid Loc Node Addr) : History Tid Node :=
  match a with
  | .step t (.code label) => match (s.thread t).pc with
    | .outer pc => h.step t label (s.mem.view []) pc
    | .delete _ _ toDel _ => { h with freed := ((s.mem.cells toDel).map fun c => c.ptr).toList ++ h.freed }
    | _ => h
  | _ => h

/-- The runs of the manager with their history. -/
def observed (Tid Loc Node Addr : Type*) [Fintype Tid] [DecidableEq Tid] [DecidableEq Loc]
    [DecidableEq Addr] :
    Machine (State Tid Loc Node Addr × History Tid Node) (Act Tid (Label Loc Node Addr)) :=
  (program Tid Loc Node Addr).machine.observe .init record

end Psync.EpochHeap
