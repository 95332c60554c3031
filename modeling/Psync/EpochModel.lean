import Psync.Platform

/-! Epoch-based reclamation: a global epoch, a table of slots in which readers announce the epoch in
which they entered, and a list of retired nodes that wait for their deleters. -/

namespace Psync.EpochManager

open Concurrency

variable {Tid Loc Node : Type*}

def kInactiveEpoch : U64 := BitVec.allOnes 64
abbrev kMaxThreads : ℕ := 128

/-- What `register_thread` returns. It passes the check `slot < kMaxThreads` of the other calls. -/
abbrev Slot := Fin kMaxThreads

structure ThreadState where
  activeEpoch : U64
  inUse : Bool
  deriving DecidableEq

/-- A node that waits for its deleter. -/
structure RetiredNode (Node : Type*) where
  ptr : Node
  epoch : U64
  deriving DecidableEq

/-- The manager, and the locations that its clients share. -/
structure Mem (Loc Node : Type*) where
  globalEpoch : U64
  threads : Slot → ThreadState
  /-- The list that starts at `retired_head_`. -/
  retired : List (RetiredNode Node)
  /-- `reclaim_mu_` is locked. -/
  reclaimMu : Bool
  shared : Loc → Option Node

/-- The constructor; the shared locations start out null. -/
def Mem.init : Mem Loc Node where
  globalEpoch := 1
  threads _ := ⟨kInactiveEpoch, false⟩
  retired := []
  reclaimMu := false
  shared _ := none

/-- An `EpochGuard`: its constructor is `enter`, which has read `epoch`, and its destructor `exit`. -/
structure Guard where
  slot : Slot
  epoch : U64
  deriving DecidableEq

/-- The next atomic step of a thread, with the local variables that are live there. -/
inductive Pc (Node : Type*)
  /-- Outside every call. -/
  | idle
  /-- `register_thread`: the CAS on `in_use` of slot `i`. -/
  | register (i : Slot)
  /-- `unregister_thread`: the store to `active_epoch`. -/
  | unregisterEpoch (slot : Slot)
  /-- `unregister_thread`: the store to `in_use`. -/
  | unregisterUse (slot : Slot)
  /-- `enter`: the load of `global_epoch_`. -/
  | enterLoad (slot : Slot)
  /-- `enter`: the store to `active_epoch`. -/
  | enterStore (slot : Slot) (e : U64)
  /-- `exit`: the store to `active_epoch`. -/
  | exit (guard : Guard)
  /-- `retire_internal`: the load of `global_epoch_`. -/
  | retireLoad (ptr : Node)
  /-- `retire_internal`: locking `reclaim_mu_`. -/
  | retireLock (node : RetiredNode Node)
  /-- `retire_internal`: the load of `retired_head_`. -/
  | retireHead (node : RetiredNode Node)
  /-- `retire_internal`: the store to `retired_head_`. -/
  | retireStore (node : RetiredNode Node) (next : List (RetiredNode Node))
  /-- `retire_internal`: unlocking `reclaim_mu_`. -/
  | retireUnlock
  /-- `try_reclaim`: the load of `global_epoch_`. -/
  | reclaimLoad
  /-- `try_reclaim`: the load of `in_use` of slot `i`. -/
  | scanUse (current minEpoch : U64) (i : Slot)
  /-- `try_reclaim`: the load of `active_epoch` of slot `i`. -/
  | scanEpoch (current minEpoch : U64) (i : Slot)
  /-- `try_reclaim`: the `fetch_add` on `global_epoch_`. -/
  | advance (minEpoch : U64)
  /-- `try_reclaim`: locking `reclaim_mu_`. -/
  | reclaimLock (minEpoch : U64)
  /-- `try_reclaim`: the load of `retired_head_`. -/
  | reclaimHead (minEpoch : U64)
  /-- `try_reclaim`: the node at the front of `rest` is kept or unlinked; `kept` ends in `prev`. At the
  end of the list, unlocking `reclaim_mu_`. -/
  | sweep (minEpoch : U64) (kept rest : List (RetiredNode Node))
  /-- `try_reclaim`: the deleter of a node. -/
  | delete (minEpoch : U64) (kept : List (RetiredNode Node)) (node : RetiredNode Node)
      (rest : List (RetiredNode Node))

/-- A thread: the slot it is registered with, its guards whose `enter` has returned and whose `exit`
has not begun, and its position. -/
structure Local (Node : Type*) where
  slot : Option Slot
  guards : List Guard
  pc : Pc Node

/-- A call that a client begins, its own access to a shared location, or `run` for the next step
inside a call. -/
inductive Label (Loc Node : Type*)
  | registerThread
  | unregisterThread
  | enter
  /-- The end of the lifetime of guard number `n` of the thread. -/
  | exit (n : ℕ)
  | retire (ptr : Node)
  | tryReclaim
  | read (loc : Loc)
  | write (loc : Loc) (ptr : Option Node)
  | run

namespace Mem

variable (m : Mem Loc Node)

def setActive (i : Slot) (e : U64) : Mem Loc Node :=
  { m with threads := Function.update m.threads i { m.threads i with activeEpoch := e } }

def setInUse (i : Slot) (b : Bool) : Mem Loc Node :=
  { m with threads := Function.update m.threads i { m.threads i with inUse := b } }

theorem setActive_threads (i j : Slot) (e : U64) : (m.setActive i e).threads j =
    if j = i then { m.threads j with activeEpoch := e } else m.threads j := by
  by_cases hj : j = i
  · rw [if_pos hj, hj]
    exact Function.update_self ..
  · rw [if_neg hj]
    exact Function.update_of_ne hj ..

theorem setInUse_threads (i j : Slot) (b : Bool) : (m.setInUse i b).threads j =
    if j = i then { m.threads j with inUse := b } else m.threads j := by
  by_cases hj : j = i
  · rw [if_pos hj, hj]
    exact Function.update_self ..
  · rw [if_neg hj]
    exact Function.update_of_ne hj ..

end Mem

def Local.go (l : Local Node) (pc : Pc Node) : Local Node := { l with pc }

/-- Slot `i` is taken; after the last one, slot 0. -/
def Local.registerNext (l : Local Node) (i : Slot) : Local Node :=
  if h : i + 1 < kMaxThreads then l.go (.register ⟨i + 1, h⟩)
  else { l with slot := some 0, pc := .idle }

/-- `min_epoch` after the active epoch `e` of one slot. -/
def lowered (minEpoch e : U64) : U64 := if e ≠ kInactiveEpoch ∧ e < minEpoch then e else minEpoch

/-- Slot `i` has been scanned. -/
def scanNext (current minEpoch : U64) (i : Slot) : Pc Node :=
  if h : i + 1 < kMaxThreads then .scanUse current minEpoch ⟨i + 1, h⟩
  else if minEpoch = current then .advance minEpoch else .reclaimLock minEpoch

/-- One atomic step of the code. -/
def run (m : Mem Loc Node) (l : Local Node) : Option (Mem Loc Node × Local Node) :=
  match l.pc with
  | .idle => none
  | .register i => some (if (m.threads i).inUse then (m, l.registerNext i)
      else (m.setInUse i true, { l with slot := some i, pc := .idle }))
  | .unregisterEpoch i => some (m.setActive i kInactiveEpoch, l.go (.unregisterUse i))
  | .unregisterUse i => some (m.setInUse i false, { l with slot := none, pc := .idle })
  | .enterLoad i => some (m, l.go (.enterStore i m.globalEpoch))
  | .enterStore i e => some (m.setActive i e, { l with guards := ⟨i, e⟩ :: l.guards, pc := .idle })
  | .exit g => some (m.setActive g.slot kInactiveEpoch, l.go .idle)
  | .retireLoad ptr => some (m, l.go (.retireLock ⟨ptr, m.globalEpoch⟩))
  | .retireLock node =>
      if m.reclaimMu then none else some ({ m with reclaimMu := true }, l.go (.retireHead node))
  | .retireHead node => some (m, l.go (.retireStore node m.retired))
  | .retireStore node next => some ({ m with retired := node :: next }, l.go .retireUnlock)
  | .retireUnlock => some ({ m with reclaimMu := false }, l.go .idle)
  | .reclaimLoad => some (m, l.go (.scanUse m.globalEpoch m.globalEpoch 0))
  | .scanUse current minEpoch i => some (m, l.go (
      if (m.threads i).inUse then .scanEpoch current minEpoch i else scanNext current minEpoch i))
  | .scanEpoch current minEpoch i =>
      some (m, l.go (scanNext current (lowered minEpoch (m.threads i).activeEpoch) i))
  | .advance minEpoch =>
      some ({ m with globalEpoch := m.globalEpoch + 1 }, l.go (.reclaimLock minEpoch))
  | .reclaimLock minEpoch =>
      if m.reclaimMu then none else some ({ m with reclaimMu := true }, l.go (.reclaimHead minEpoch))
  | .reclaimHead minEpoch => some (m, l.go (.sweep minEpoch [] m.retired))
  | .sweep _ _ [] => some ({ m with reclaimMu := false }, l.go .idle)
  | .sweep minEpoch kept (node :: rest) => some (
      if node.epoch < minEpoch then
        ({ m with retired := kept ++ rest }, l.go (.delete minEpoch kept node rest))
      else (m, l.go (.sweep minEpoch (kept ++ [node]) rest)))
  | .delete minEpoch kept _ rest => some (m, l.go (.sweep minEpoch kept rest))

/-- What a thread outside every call may begin. A thread unregisters only without guards, and reads a
shared location only under a guard. -/
def call [DecidableEq Loc] (label : Label Loc Node) (m : Mem Loc Node) (l : Local Node) :
    Option (Mem Loc Node × Local Node) :=
  match label with
  | .registerThread => if l.slot = none then some (m, l.go (.register 0)) else none
  | .unregisterThread =>
      if l.guards = [] then l.slot.map fun i => (m, l.go (.unregisterEpoch i)) else none
  | .enter => l.slot.map fun i => (m, l.go (.enterLoad i))
  | .exit n => l.guards[n]?.map fun g => (m, { l with guards := l.guards.eraseIdx n, pc := .exit g })
  | .retire ptr => some (m, l.go (.retireLoad ptr))
  | .tryReclaim => some (m, l.go .reclaimLoad)
  | .read _ => if l.guards = [] then none else some (m, l)
  | .write loc ptr => some ({ m with shared := Function.update m.shared loc ptr }, l)
  | .run => none

def step [DecidableEq Loc] (label : Label Loc Node) (m : Mem Loc Node) (l : Local Node) :
    Option (Mem Loc Node × Local Node) :=
  match label, l.pc with
  | .run, _ => run m l
  | label, .idle => call label m l
  | _, _ => none

/-- What one atomic step of the code does at a position. -/
inductive RunStep (m : Mem Loc Node) (l : Local Node) : Pc Node → Mem Loc Node → Local Node → Prop
  | registerFree {i : Slot} (hfree : (m.threads i).inUse = false) :
      RunStep m l (.register i) (m.setInUse i true) { l with slot := some i, pc := .idle }
  | registerNext {i : Slot} (hi : i + 1 < kMaxThreads) :
      RunStep m l (.register i) m (l.go (.register ⟨i + 1, hi⟩))
  | registerLast {i : Slot} (hused : (m.threads i).inUse = true) (hi : ¬ i + 1 < kMaxThreads) :
      RunStep m l (.register i) m { l with slot := some 0, pc := .idle }
  | unregisterEpoch {i : Slot} :
      RunStep m l (.unregisterEpoch i) (m.setActive i kInactiveEpoch) (l.go (.unregisterUse i))
  | unregisterUse {i : Slot} :
      RunStep m l (.unregisterUse i) (m.setInUse i false) { l with slot := none, pc := .idle }
  | enterLoad {i : Slot} : RunStep m l (.enterLoad i) m (l.go (.enterStore i m.globalEpoch))
  | enterStore {i : Slot} {e : U64} : RunStep m l (.enterStore i e) (m.setActive i e)
      { l with guards := ⟨i, e⟩ :: l.guards, pc := .idle }
  | exit {g : Guard} : RunStep m l (.exit g) (m.setActive g.slot kInactiveEpoch) (l.go .idle)
  | retireLoad {ptr : Node} :
      RunStep m l (.retireLoad ptr) m (l.go (.retireLock ⟨ptr, m.globalEpoch⟩))
  | retireLock {node : RetiredNode Node} (free : m.reclaimMu = false) :
      RunStep m l (.retireLock node) { m with reclaimMu := true } (l.go (.retireHead node))
  | retireHead {node : RetiredNode Node} :
      RunStep m l (.retireHead node) m (l.go (.retireStore node m.retired))
  | retireStore {node : RetiredNode Node} {next : List (RetiredNode Node)} :
      RunStep m l (.retireStore node next) { m with retired := node :: next } (l.go .retireUnlock)
  | retireUnlock : RunStep m l .retireUnlock { m with reclaimMu := false } (l.go .idle)
  | reclaimLoad : RunStep m l .reclaimLoad m (l.go (.scanUse m.globalEpoch m.globalEpoch 0))
  | scanUsed {current minEpoch : U64} {i : Slot} :
      RunStep m l (.scanUse current minEpoch i) m (l.go (.scanEpoch current minEpoch i))
  | scanUnused {current minEpoch : U64} {i : Slot} (hfree : (m.threads i).inUse = false) :
      RunStep m l (.scanUse current minEpoch i) m (l.go (scanNext current minEpoch i))
  | scanEpoch {current minEpoch : U64} {i : Slot} : RunStep m l (.scanEpoch current minEpoch i) m
      (l.go (scanNext current (lowered minEpoch (m.threads i).activeEpoch) i))
  | advance {minEpoch : U64} : RunStep m l (.advance minEpoch)
      { m with globalEpoch := m.globalEpoch + 1 } (l.go (.reclaimLock minEpoch))
  | reclaimLock {minEpoch : U64} (free : m.reclaimMu = false) :
      RunStep m l (.reclaimLock minEpoch) { m with reclaimMu := true } (l.go (.reclaimHead minEpoch))
  | reclaimHead {minEpoch : U64} :
      RunStep m l (.reclaimHead minEpoch) m (l.go (.sweep minEpoch [] m.retired))
  | sweepEnd {minEpoch : U64} {kept : List (RetiredNode Node)} :
      RunStep m l (.sweep minEpoch kept []) { m with reclaimMu := false } (l.go .idle)
  | unlink {minEpoch : U64} {kept rest : List (RetiredNode Node)} {node : RetiredNode Node}
      (hlt : node.epoch < minEpoch) : RunStep m l (.sweep minEpoch kept (node :: rest))
      { m with retired := kept ++ rest } (l.go (.delete minEpoch kept node rest))
  | keep {minEpoch : U64} {kept rest : List (RetiredNode Node)} {node : RetiredNode Node}
      (hge : ¬ node.epoch < minEpoch) : RunStep m l (.sweep minEpoch kept (node :: rest))
      m (l.go (.sweep minEpoch (kept ++ [node]) rest))
  | delete {minEpoch : U64} {kept rest : List (RetiredNode Node)} {node : RetiredNode Node} :
      RunStep m l (.delete minEpoch kept node rest) m (l.go (.sweep minEpoch kept rest))

theorem runStep_of_run {m m' : Mem Loc Node} {l l' : Local Node} (hrun : run m l = some (m', l')) :
    RunStep m l l.pc m' l' := by
  unfold run at hrun
  generalize l.pc = pc at hrun ⊢
  cases pc with
  | idle => cases hrun
  | register i =>
      rw [Option.some.injEq] at hrun
      unfold Local.registerNext at hrun
      split_ifs at hrun with hused hi <;> cases hrun
      · exact .registerNext hi
      · exact .registerLast hused hi
      · exact .registerFree (Bool.eq_false_of_not_eq_true hused)
  | retireLock node =>
      simp only [Option.ite_none_left_eq_some, Option.some.injEq] at hrun
      obtain ⟨free, hrun⟩ := hrun
      cases hrun
      exact .retireLock (Bool.eq_false_of_not_eq_true free)
  | reclaimLock minEpoch =>
      simp only [Option.ite_none_left_eq_some, Option.some.injEq] at hrun
      obtain ⟨free, hrun⟩ := hrun
      cases hrun
      exact .reclaimLock (Bool.eq_false_of_not_eq_true free)
  | scanUse current minEpoch i =>
      cases hrun
      split_ifs with hused
      · exact .scanUsed
      · exact .scanUnused (Bool.eq_false_of_not_eq_true hused)
  | sweep minEpoch kept rest =>
      cases rest with
      | nil =>
          cases hrun
          exact .sweepEnd
      | cons node rest =>
          rw [Option.some.injEq] at hrun
          split_ifs at hrun with hlt <;> cases hrun
          · exact .unlink hlt
          · exact .keep hlt
  | _ =>
      cases hrun
      constructor

/-- What a call that begins does. -/
inductive CallStep [DecidableEq Loc] (m : Mem Loc Node) (l : Local Node) :
    Label Loc Node → Mem Loc Node → Local Node → Prop
  | registerThread (hslot : l.slot = none) : CallStep m l .registerThread m (l.go (.register 0))
  | unregisterThread {i : Slot} (hguards : l.guards = []) (hslot : l.slot = some i) :
      CallStep m l .unregisterThread m (l.go (.unregisterEpoch i))
  | enter {i : Slot} (hslot : l.slot = some i) : CallStep m l .enter m (l.go (.enterLoad i))
  | exit {n : ℕ} {g : Guard} (hg : l.guards[n]? = some g) :
      CallStep m l (.exit n) m { l with guards := l.guards.eraseIdx n, pc := .exit g }
  | retire (ptr : Node) : CallStep m l (.retire ptr) m (l.go (.retireLoad ptr))
  | tryReclaim : CallStep m l .tryReclaim m (l.go .reclaimLoad)
  | read (loc : Loc) (hguards : l.guards ≠ []) : CallStep m l (.read loc) m l
  | write (loc : Loc) (ptr : Option Node) : CallStep m l (.write loc ptr)
      { m with shared := Function.update m.shared loc ptr } l

section Steps

variable [DecidableEq Loc] {label : Label Loc Node} {m m' : Mem Loc Node} {l l' : Local Node}

theorem callStep_of_call (h : call label m l = some (m', l')) : CallStep m l label m' l' := by
  cases label with
  | registerThread =>
      simp only [call, Option.ite_none_right_eq_some, Option.some.injEq] at h
      obtain ⟨hslot, h⟩ := h
      cases h
      exact .registerThread hslot
  | unregisterThread =>
      simp only [call, Option.ite_none_right_eq_some, Option.map_eq_some_iff] at h
      obtain ⟨hguards, i, hslot, h⟩ := h
      cases h
      exact .unregisterThread hguards hslot
  | enter =>
      simp only [call, Option.map_eq_some_iff] at h
      obtain ⟨i, hslot, h⟩ := h
      cases h
      exact .enter hslot
  | exit n =>
      simp only [call, Option.map_eq_some_iff] at h
      obtain ⟨g, hg, h⟩ := h
      cases h
      exact .exit hg
  | retire ptr =>
      cases h
      exact .retire ptr
  | tryReclaim =>
      cases h
      exact .tryReclaim
  | read loc =>
      simp only [call, Option.ite_none_left_eq_some, Option.some.injEq] at h
      obtain ⟨hguards, h⟩ := h
      cases h
      exact .read loc hguards
  | write loc ptr =>
      cases h
      exact .write loc ptr
  | run => cases h

/-- A step goes on with the call of the thread, or begins one. -/
theorem step_cases (h : step label m l = some (m', l')) :
    (label = .run ∧ run m l = some (m', l')) ∨ (l.pc = .idle ∧ CallStep m l label m' l') := by
  unfold step at h
  split at h
  · exact Or.inl ⟨rfl, h⟩
  · rename_i hidle
    exact Or.inr ⟨hidle, callStep_of_call h⟩
  · cases h

theorem step_of_idle (hlabel : label ≠ .run) (hidle : l.pc = .idle) : step label m l = call label m l := by
  unfold step
  rw [hidle]
  cases label with
  | run => exact absurd rfl hlabel
  | _ => rfl

end Steps

/-- The threads on one manager, before its destruction. -/
def program (Tid Loc Node : Type*) [DecidableEq Loc] :
    Program Tid (Mem Loc Node) (Local Node) Empty (Label Loc Node) where
  mem := .init
  start := ⟨none, [], .idle⟩
  step _ := step

abbrev State (Tid Loc Node : Type*) := Config Tid (Mem Loc Node) (Local Node) Empty

/-- The `min_epoch` of a `try_reclaim` that has scanned slot `i`. -/
def Pc.scanned (i : Slot) : Pc Node → Option U64
  | .scanUse _ minEpoch j | .scanEpoch _ minEpoch j => if i < j then some minEpoch else none
  | .advance minEpoch | .reclaimLock minEpoch | .reclaimHead minEpoch => some minEpoch
  | .sweep minEpoch _ _ | .delete minEpoch _ _ _ => some minEpoch
  | _ => none

end Psync.EpochManager
