import Psync.EpochChain
import Psync.EpochQuiescent

/-! The manager with its pointers refines the one with a list. A thread inside the critical section
has its pointers at the place of the list where the other model splits it, and an object that is not
in the list belongs to one thread. -/

namespace Psync.EpochHeap

open Concurrency
open EpochManager (Slot ThreadState Guard RetiredNode History Excludes CallStep)

set_option linter.unusedSectionVars false

variable {Tid Loc Node Addr : Type*} [DecidableEq Tid] [DecidableEq Loc] [DecidableEq Addr]
  {m m' : Mem Loc Node Addr} {l l' : List (Addr × RetiredNode Node)} {t : Tid} {lo : Local Node Addr}
  {lv : EpochManager.Local Node} {pc pc' : Pc Node Addr} {pv : EpochManager.Pc Node}

/-- The label of the same step in the model with a list. -/
def Label.erase : Label Loc Node Addr → EpochManager.Label Loc Node
  | .code label => label
  | .new _ => .run

/-! ### Positions -/

/-- The position carries no node. -/
def Bare : EpochManager.Pc Node → Prop
  | .retireLock _ | .retireHead _ | .retireStore .. | .sweep .. | .delete .. => False
  | _ => True

/-- The object that belongs to the thread. -/
def Pc.owned : Pc Node Addr → List Addr
  | .retireLock a | .retireHead a | .retireStore a | .delete _ _ a _ => [a]
  | .outer _ | .sweep .. => []

/-- A position with pointers stands for one with nodes. -/
inductive Represents (m : Mem Loc Node Addr) (l : List (Addr × RetiredNode Node)) :
    Pc Node Addr → EpochManager.Pc Node → Prop
  | outer {pv : EpochManager.Pc Node} (hbare : Bare pv) : Represents m l (.outer pv) pv
  | retireLock {a : Addr} {node : RetiredNode Node} (hnode : m.content a = some node) :
      Represents m l (.retireLock a) (.retireLock node)
  | retireHead {a : Addr} {node : RetiredNode Node} (hnode : m.content a = some node) :
      Represents m l (.retireHead a) (.retireHead node)
  | retireStore {a : Addr} {node : RetiredNode Node} (hcell : m.cells a = some ⟨node, m.retiredHead⟩) :
      Represents m l (.retireStore a) (.retireStore node (l.map Prod.snd))
  | sweep {minEpoch : U64} {la lb : List (Addr × RetiredNode Node)} (hl : l = la ++ lb) :
      Represents m l (.sweep minEpoch (la.map Prod.fst).getLast? (lb.map Prod.fst).head?)
        (.sweep minEpoch (la.map Prod.snd) (lb.map Prod.snd))
  | delete {minEpoch : U64} {a : Addr} {node : RetiredNode Node} {la lb : List (Addr × RetiredNode Node)}
      (hl : l = la ++ lb) (hnode : m.content a = some node) :
      Represents m l (.delete minEpoch (la.map Prod.fst).getLast? a (lb.map Prod.fst).head?)
        (.delete minEpoch (la.map Prod.snd) node (lb.map Prod.snd))

/-- Another thread's step leaves the objects that belong to the thread, and the list unless the thread
is outside the critical section. -/
theorem Represents.congr (h : Represents m l pc pv) (hcells : ∀ a ∈ pc.owned, m'.cells a = m.cells a)
    (hlist : (l' = l ∧ m'.retiredHead = m.retiredHead) ∨ ¬ pv.inMutex) : Represents m' l' pc pv := by
  have hcontent : ∀ {a node}, a ∈ pc.owned → m.content a = some node → m'.content a = some node := by
    intro a node ha hnode
    unfold Mem.content at hnode ⊢
    rwa [hcells a ha]
  cases h with
  | outer hbare => exact .outer hbare
  | retireLock hnode => exact .retireLock (hcontent List.mem_cons_self hnode)
  | retireHead hnode => exact .retireHead (hcontent List.mem_cons_self hnode)
  | retireStore hcell =>
      obtain ⟨rfl, hhead⟩ := hlist.resolve_right fun hout => hout trivial
      rw [← hcells _ List.mem_cons_self, ← hhead] at hcell
      exact .retireStore hcell
  | sweep hl =>
      obtain ⟨rfl, -⟩ := hlist.resolve_right fun hout => hout trivial
      exact .sweep hl
  | delete hl hnode =>
      obtain ⟨rfl, -⟩ := hlist.resolve_right fun hout => hout trivial
      exact .delete hl (hcontent List.mem_cons_self hnode)

/-! ### Steps without pointers -/

theorem rel_map {α β γ : Type*} {R : β → γ → Prop} {f : α → β} {g : α → γ} (h : ∀ a, R (f a) (g a))
    (o : Option α) : Option.Rel R (o.map f) (o.map g) := by
  cases o with
  | none => exact .none
  | some a => exact .some (h a)

theorem exists_of_rel {β γ : Type*} {R : β → γ → Prop} {x : β} {o : Option γ}
    (h : Option.Rel R (some x) o) : ∃ y, o = some y ∧ R x y := by
  cases h with
  | some hR => exact ⟨_, rfl, hR⟩

theorem rel_ite {β γ : Type*} {R : β → γ → Prop} {c : Prop} [Decidable c] {x x' : Option β}
    {y y' : Option γ} (h : Option.Rel R x y) (h' : Option.Rel R x' y') :
    Option.Rel R (if c then x else x') (if c then y else y') := by
  split_ifs
  · exact h
  · exact h'

theorem rel_some_ite {β γ : Type*} {R : β → γ → Prop} {c : Prop} [Decidable c] {x x' : β} {y y' : γ}
    (h : R x y) (h' : R x' y') :
    Option.Rel R (some (if c then x else x')) (some (if c then y else y')) := by
  split_ifs
  · exact .some h
  · exact .some h'

/-- A step at a bare position neither reads nor writes the list, and leads to a bare position. -/
theorem run_view (m : Mem Loc Node Addr) (lo : Local Node Addr) (hbare : Bare pv) (hload : ∀ ptr, pv ≠ .retireLoad ptr)
    (hhead : ∀ minEpoch, pv ≠ .reclaimHead minEpoch) (r : List (RetiredNode Node)) :
    Option.Rel (fun x y => Bare x.2.pc ∧ y = ((m.put x.1).view r, x.2))
      (EpochManager.run (m.view []) (lo.view pv)) (EpochManager.run (m.view r) (lo.view pv)) := by
  have hscan : ∀ current minEpoch i, Bare (EpochManager.scanNext current minEpoch i : EpochManager.Pc Node) := by
    intro current minEpoch i
    unfold EpochManager.scanNext
    split_ifs <;> trivial
  unfold EpochManager.run
  cases pv with
  | idle => exact .none
  | retireLoad ptr => exact absurd rfl (hload ptr)
  | reclaimHead minEpoch => exact absurd rfl (hhead minEpoch)
  | retireLock | retireHead | retireStore | sweep | delete => exact hbare.elim
  | register i =>
      refine rel_some_ite ⟨?_, rfl⟩ ⟨trivial, rfl⟩
      unfold EpochManager.Local.registerNext
      split_ifs <;> trivial
  | scanUse current minEpoch i =>
      refine .some ⟨?_, rfl⟩
      unfold EpochManager.Local.go
      split_ifs
      · trivial
      · exact hscan _ _ _
  | scanEpoch current minEpoch i => exact .some ⟨hscan _ _ _, rfl⟩
  | reclaimLock minEpoch => exact rel_ite .none (.some ⟨trivial, rfl⟩)
  | _ => exact .some ⟨trivial, rfl⟩

theorem run_outer (hpc : lo.pc = .outer pv) (hload : ∀ ptr, pv ≠ .retireLoad ptr)
    (hhead : ∀ minEpoch, pv ≠ .reclaimHead minEpoch) :
    run m lo = (EpochManager.run (m.view []) (lo.view pv)).map m.outer := by
  unfold run
  rw [hpc]
  cases pv with
  | retireLoad ptr => exact absurd rfl (hload ptr)
  | reclaimHead minEpoch => exact absurd rfl (hhead minEpoch)
  | _ => rfl

theorem call_view (m : Mem Loc Node Addr) (lo : Local Node Addr) (label : EpochManager.Label Loc Node)
    (r : List (RetiredNode Node)) :
    Option.Rel (fun x y => Bare x.2.pc ∧ y = ((m.put x.1).view r, x.2))
      (EpochManager.call label (m.view []) (lo.view .idle))
      (EpochManager.call label (m.view r) (lo.view .idle)) := by
  cases label with
  | registerThread => exact rel_ite (.some ⟨trivial, rfl⟩) .none
  | unregisterThread => exact rel_ite (rel_map (fun i => ⟨trivial, rfl⟩) _) .none
  | enter => exact rel_map (fun i => ⟨trivial, rfl⟩) _
  | exit n => exact rel_map (fun g => ⟨trivial, rfl⟩) _
  | read loc => exact rel_ite .none (.some ⟨trivial, rfl⟩)
  | retire ptr => exact .some ⟨trivial, rfl⟩
  | tryReclaim => exact .some ⟨trivial, rfl⟩
  | write loc ptr => exact .some ⟨trivial, rfl⟩
  | run => exact .none

/-! ### States -/

/-- The state `s` with pointers stands for the state `v` with the list `l`. -/
structure Refines (s : State Tid Loc Node Addr) (v : EpochManager.State Tid Loc Node)
    (l : List (Addr × RetiredNode Node)) : Prop where
  mem : v.mem = s.mem.view (l.map Prod.snd)
  chain : Chain s.mem l
  thread : ∀ t, v.thread t = (s.thread t).view (v.thread t).pc
  position : ∀ t, Represents s.mem l (s.thread t).pc (v.thread t).pc
  /-- An object that belongs to a thread is not in the list. -/
  apart : ∀ t, ∀ a ∈ (s.thread t).pc.owned, a ∉ l.map Prod.fst
  single : ∀ t u, ∀ a ∈ (s.thread t).pc.owned, a ∈ (s.thread u).pc.owned → t = u
  excludes : Excludes v.mem v.thread

/-- What a step by a thread at `pc` does to the list. -/
inductive Evolves (pc : Pc Node Addr) : List (Addr × RetiredNode Node) → List (Addr × RetiredNode Node) → Prop
  | same {l : List (Addr × RetiredNode Node)} : Evolves pc l l
  | push {l : List (Addr × RetiredNode Node)} {a : Addr} (node : RetiredNode Node)
      (hpc : pc = .retireStore a) : Evolves pc l ((a, node) :: l)
  | unlink {la lb : List (Addr × RetiredNode Node)} {a : Addr} {node : RetiredNode Node} {minEpoch : U64}
      {prev : Option Addr} (hpc : pc = .sweep minEpoch prev (some a)) (hlt : node.epoch < minEpoch) :
      Evolves pc (la ++ (a, node) :: lb) (la ++ lb)

/-- An object that belongs to a thread is allocated. -/
theorem Represents.owned_cell (h : Represents m l pc pv) {a : Addr} (ha : a ∈ pc.owned) :
    m.cells a ≠ none := by
  have hcontent : ∀ {b node}, a ∈ [b] → m.content b = some node → m.cells a ≠ none := by
    intro b node hab hnode hnone
    rw [List.mem_singleton.mp hab] at hnone
    unfold Mem.content at hnode
    rw [hnone] at hnode
    cases hnode
  cases h with
  | outer | sweep => cases ha
  | retireLock hnode => exact hcontent ha hnode
  | retireHead hnode => exact hcontent ha hnode
  | retireStore hcell => exact hcontent ha (Mem.content_eq_some.mpr ⟨_, hcell⟩)
  | delete hl hnode => exact hcontent ha hnode

/-- The node at `curr` is compared with `min_epoch`. -/
theorem run_curr {th : Local Node Addr} {minEpoch : U64} {prev next : Option Addr} {a : Addr}
    {node : RetiredNode Node} (hpc : th.pc = .sweep minEpoch prev (some a))
    (hcell : m.cells a = some ⟨node, next⟩) : EpochHeap.run m th = if node.epoch < minEpoch then
      (m.setLink prev next).map fun m' => (m', th.go (.delete minEpoch prev a next))
    else some (m, th.go (.sweep minEpoch (some a) next)) := by
  unfold EpochHeap.run
  rw [hpc]
  change (m.cells a).bind _ = _
  rw [hcell]
  rfl

namespace Refines

variable {s : State Tid Loc Node Addr} {v : EpochManager.State Tid Loc Node}
  {mv : EpochManager.Mem Loc Node}

/-- One thread moves in both models. -/
theorem move (h : Refines s v l) (hexcludes : Excludes mv (Function.update v.thread t lv))
    (hmem : mv = m.view (l'.map Prod.snd)) (hchain : Chain m l') (hthread : lv = lo.view lv.pc)
    (hposition : Represents m l' lo.pc lv.pc)
    (hcells : ∀ u, u ≠ t → ∀ a ∈ (s.thread u).pc.owned, m.cells a = s.mem.cells a)
    (hlist : (l' = l ∧ m.retiredHead = s.mem.retiredHead) ∨ (v.thread t).pc.inMutex)
    (hnew : ∀ a ∈ l'.map Prod.fst, a ∈ l.map Prod.fst ∨ a ∈ (s.thread t).pc.owned)
    (howned : ∀ a ∈ lo.pc.owned, a ∉ l'.map Prod.fst ∧ ∀ u, u ≠ t → a ∉ (s.thread u).pc.owned) :
    Refines (s.move t m lo) (v.move t mv lv) l' where
  mem := hmem
  chain := hchain
  thread u := by
    rw [Config.move_thread, Config.move_thread, Function.update_apply, Function.update_apply]
    split_ifs
    · exact hthread
    · exact h.thread u
  position u := by
    rw [Config.move_thread, Config.move_thread, Function.update_apply, Function.update_apply]
    split_ifs with hut
    · exact hposition
    · refine (h.position u).congr (hcells u hut) (hlist.imp_right fun hin hu => ?_)
      exact hut (h.excludes.mutex.unique u t hu hin)
  apart u a ha := by
    rw [Config.move_thread, Function.update_apply] at ha
    split_ifs at ha with hut
    · exact (howned a ha).1
    · intro hmem
      rcases hnew a hmem with hmem | hmem
      · exact h.apart u a ha hmem
      · exact hut (h.single u t a ha hmem)
  single u w a hu hw := by
    rw [Config.move_thread, Function.update_apply] at hu hw
    split_ifs at hu hw with hut hwt hwt
    · rw [hut, hwt]
    · exact absurd hw ((howned a hu).2 w hwt)
    · exact absurd hu ((howned a hw).2 u hut)
    · exact h.single u w a hu hw
  excludes := hexcludes

/-- A step that leaves the objects and the list. -/
theorem moveBare (h : Refines s v l) (hexcludes : Excludes mv (Function.update v.thread t lv))
    (hmem : mv = m.view (l.map Prod.snd)) (hcells : m.cells = s.mem.cells)
    (hhead : m.retiredHead = s.mem.retiredHead) (hthread : lv = lo.view lv.pc)
    (hposition : Represents m l lo.pc lv.pc) (howned : ∀ a ∈ lo.pc.owned, a ∈ (s.thread t).pc.owned) :
    Refines (s.move t m lo) (v.move t mv lv) l := by
  refine h.move hexcludes hmem (h.chain.congr hhead fun x _ => by rw [hcells]) hthread hposition
    (fun _ _ a _ => by rw [hcells]) (Or.inl ⟨rfl, hhead⟩) (fun _ => Or.inl) fun a ha => ?_
  exact ⟨h.apart t a (howned a ha), fun u hut hu => hut (h.single u t a hu (howned a ha))⟩

/-- The outcomes of a step of thread `t` in the two models. -/
def Agree (s : State Tid Loc Node Addr) (v : EpochManager.State Tid Loc Node) (t : Tid)
    (l : List (Addr × RetiredNode Node)) (x : Mem Loc Node Addr × Local Node Addr)
    (y : EpochManager.Mem Loc Node × EpochManager.Local Node) : Prop :=
  ∃ l', Refines (s.move t x.1 x.2) (v.move t y.1 y.2) l' ∧ Evolves (s.thread t).pc l l'

theorem bare (h : Refines s v l) (hpc : (s.thread t).pc = .outer pv) : (v.thread t).pc = pv := by
  have hposition := h.position t
  rw [hpc] at hposition
  generalize (v.thread t).pc = pv' at hposition
  cases hposition with
  | outer hbare => rfl

/-- A step at a position without pointers. -/
theorem run_bare (h : Refines s v l) (hpc : (s.thread t).pc = .outer pv) (hpv : (v.thread t).pc = pv)
    (hbare : Bare pv) (hload : ∀ ptr, pv ≠ .retireLoad ptr)
    (hhead : ∀ minEpoch, pv ≠ .reclaimHead minEpoch) :
    Option.Rel (Agree s v t l) (EpochHeap.run s.mem (s.thread t)) (EpochManager.run v.mem (v.thread t)) := by
  have hexcludes : ∀ {mv lv}, EpochManager.run v.mem (v.thread t) = some (mv, lv) →
      Excludes mv (Function.update v.thread t lv) := h.excludes.run
  have hrel := run_view s.mem (s.thread t) hbare hload hhead (l.map Prod.snd)
  rw [run_outer hpc hload hhead]
  rw [h.mem, h.thread t, hpv] at hexcludes ⊢
  generalize EpochManager.run (s.mem.view []) ((s.thread t).view pv) = x at hrel ⊢
  generalize EpochManager.run (s.mem.view (l.map Prod.snd)) ((s.thread t).view pv) = y at hrel hexcludes ⊢
  cases hrel with
  | none => exact .none
  | some hxy =>
      obtain ⟨hbare', rfl⟩ := hxy
      refine .some ⟨l, h.moveBare (hexcludes rfl) rfl rfl rfl rfl (.outer hbare') nofun, .same⟩

theorem run_reclaimHead (h : Refines s v l) {minEpoch : U64}
    (hpc : (s.thread t).pc = .outer (.reclaimHead minEpoch))
    (hthread : v.thread t = (s.thread t).view (.reclaimHead minEpoch)) :
    Option.Rel (Agree s v t l) (EpochHeap.run s.mem (s.thread t)) (EpochManager.run v.mem (v.thread t)) := by
  have hs : EpochHeap.run s.mem (s.thread t) =
      some (s.mem, (s.thread t).go (.sweep minEpoch none s.mem.retiredHead)) := by
    unfold EpochHeap.run
    rw [hpc]
  have hv : EpochManager.run v.mem (v.thread t) =
      some (s.mem.view (l.map Prod.snd), (s.thread t).view (.sweep minEpoch [] (l.map Prod.snd))) := by
    rw [h.mem, hthread]
    rfl
  have hsweep : Represents s.mem l (.sweep minEpoch none s.mem.retiredHead)
      (.sweep minEpoch [] (l.map Prod.snd)) := by
    rw [h.chain.head]
    exact .sweep (List.nil_append l).symm
  rw [hs, hv]
  exact .some ⟨l, h.moveBare (h.excludes.run hv) rfl rfl rfl rfl hsweep nofun, .same⟩

theorem run_retireLock (h : Refines s v l) {a : Addr} {node : RetiredNode Node}
    (hpc : (s.thread t).pc = .retireLock a) (hthread : v.thread t = (s.thread t).view (.retireLock node))
    (hnode : s.mem.content a = some node) :
    Option.Rel (Agree s v t l) (EpochHeap.run s.mem (s.thread t)) (EpochManager.run v.mem (v.thread t)) := by
  have hs : EpochHeap.run s.mem (s.thread t) = if s.mem.reclaimMu then none
      else some (s.mem.setMu true, (s.thread t).go (.retireHead a)) := by
    unfold EpochHeap.run
    rw [hpc]
  have hv : EpochManager.run v.mem (v.thread t) = if s.mem.reclaimMu then none
      else some ((s.mem.setMu true).view (l.map Prod.snd), (s.thread t).view (.retireHead node)) := by
    rw [h.mem, hthread]
    rfl
  by_cases hmu : s.mem.reclaimMu = true
  · rw [hs, hv, if_pos hmu, if_pos hmu]
    exact .none
  · rw [if_neg hmu] at hs hv
    rw [hs, hv]
    exact .some ⟨l, h.moveBare (h.excludes.run hv) rfl rfl rfl rfl (.retireHead hnode)
      (by rw [hpc]; exact fun _ => id), .same⟩

/-- `node->next` is set to the head of the list. -/
theorem run_retireHead (h : Refines s v l) {a : Addr} {node : RetiredNode Node}
    (hpc : (s.thread t).pc = .retireHead a) (hthread : v.thread t = (s.thread t).view (.retireHead node))
    (hnode : s.mem.content a = some node) :
    Option.Rel (Agree s v t l) (EpochHeap.run s.mem (s.thread t)) (EpochManager.run v.mem (v.thread t)) := by
  have hown : a ∈ (s.thread t).pc.owned := by
    rw [hpc]
    exact List.mem_cons_self
  obtain ⟨q, hcell⟩ := Mem.content_eq_some.mp hnode
  have hs : EpochHeap.run s.mem (s.thread t) = some
      (s.mem.setCell a (some ⟨node, s.mem.retiredHead⟩), (s.thread t).go (.retireStore a)) := by
    unfold EpochHeap.run
    rw [hpc]
    change (s.mem.setNext a s.mem.retiredHead).map _ = _
    rw [Mem.setNext_eq hcell]
    rfl
  have hv : EpochManager.run v.mem (v.thread t) =
      some (s.mem.view (l.map Prod.snd), (s.thread t).view (.retireStore node (l.map Prod.snd))) := by
    rw [h.mem, hthread]
    rfl
  rw [hs, hv]
  refine .some ⟨l, h.move (h.excludes.run hv) rfl (h.chain.setCell (h.apart t a hown) _) rfl
    (.retireStore (Mem.setCell_self _)) (fun u hut b hb => ?_) (Or.inl ⟨rfl, rfl⟩) (fun _ => Or.inl)
    fun b hb => ?_, .same⟩
  · refine Mem.setCell_of_ne ?_ _
    rintro rfl
    exact hut (h.single u t b hb hown)
  · rw [List.mem_singleton.mp hb]
    exact ⟨h.apart t a hown, fun u hut hu => hut (h.single u t a hu hown)⟩

/-- `retired_head_` is set to the new object. -/
theorem run_retireStore (h : Refines s v l) {a : Addr} {node : RetiredNode Node}
    (hpc : (s.thread t).pc = .retireStore a)
    (hthread : v.thread t = (s.thread t).view (.retireStore node (l.map Prod.snd)))
    (hcell : s.mem.cells a = some ⟨node, s.mem.retiredHead⟩) :
    Option.Rel (Agree s v t l) (EpochHeap.run s.mem (s.thread t)) (EpochManager.run v.mem (v.thread t)) := by
  have hs : EpochHeap.run s.mem (s.thread t) =
      some (s.mem.setHead (some a), (s.thread t).go (.outer .retireUnlock)) := by
    unfold EpochHeap.run
    rw [hpc]
  have hv : EpochManager.run v.mem (v.thread t) = some
      ((s.mem.setHead (some a)).view (((a, node) :: l).map Prod.snd), (s.thread t).view .retireUnlock) := by
    rw [h.mem, hthread]
    rfl
  rw [hs, hv]
  refine .some ⟨(a, node) :: l, h.move (h.excludes.run hv) rfl (h.chain.push hcell) rfl
    (.outer trivial) (fun _ _ _ _ => rfl) (Or.inr ?_) (fun b hb => ?_) nofun, .push node hpc⟩
  · rw [hthread]
    trivial
  · rcases List.mem_cons.mp hb with rfl | hb
    · refine Or.inr ?_
      rw [hpc]
      exact List.mem_cons_self
    · exact Or.inl hb

/-- The end of the list. -/
theorem run_sweep_nil (h : Refines s v l) {minEpoch : U64} {prev : Option Addr}
    {kept : List (RetiredNode Node)} (hpc : (s.thread t).pc = .sweep minEpoch prev none)
    (hthread : v.thread t = (s.thread t).view (.sweep minEpoch kept [])) :
    Option.Rel (Agree s v t l) (EpochHeap.run s.mem (s.thread t)) (EpochManager.run v.mem (v.thread t)) := by
  have hs : EpochHeap.run s.mem (s.thread t) =
      some (s.mem.setMu false, (s.thread t).go (.outer .idle)) := by
    unfold EpochHeap.run
    rw [hpc]
  have hv : EpochManager.run v.mem (v.thread t) =
      some ((s.mem.setMu false).view (l.map Prod.snd), (s.thread t).view .idle) := by
    rw [h.mem, hthread]
    rfl
  rw [hs, hv]
  exact .some ⟨l, h.moveBare (h.excludes.run hv) rfl rfl rfl rfl (.outer trivial) nofun, .same⟩

section Curr

variable {minEpoch : U64} {la lb : List (Addr × RetiredNode Node)} {a : Addr} {node : RetiredNode Node}

/-- `curr` is unlinked wherever it stands in the list. -/
theorem run_unlink (h : Refines s v (la ++ (a, node) :: lb))
    (hpc : (s.thread t).pc = .sweep minEpoch (la.map Prod.fst).getLast? (some a))
    (hthread : v.thread t =
      (s.thread t).view (.sweep minEpoch (la.map Prod.snd) (node :: lb.map Prod.snd)))
    (hlt : node.epoch < minEpoch) :
    Option.Rel (Agree s v t (la ++ (a, node) :: lb)) (EpochHeap.run s.mem (s.thread t))
      (EpochManager.run v.mem (v.thread t)) := by
  obtain ⟨m', hlink, hchain, hview, hcells⟩ := h.chain.unlink
  have hs : EpochHeap.run s.mem (s.thread t) = some (m', (s.thread t).go
      (.delete minEpoch (la.map Prod.fst).getLast? a (lb.map Prod.fst).head?)) := by
    rw [run_curr hpc h.chain.cell, if_pos hlt, hlink]
    rfl
  have hv : EpochManager.run v.mem (v.thread t) = some (m'.view ((la ++ lb).map Prod.snd),
      (s.thread t).view (.delete minEpoch (la.map Prod.snd) node (lb.map Prod.snd))) := by
    rw [h.mem, hthread]
    have hmap : (la ++ lb).map Prod.snd = la.map Prod.snd ++ lb.map Prod.snd := List.map_append ..
    change some (if node.epoch < minEpoch then _ else _) = _
    rw [if_pos hlt, hmap, hview]
    rfl
  have hout : a ∉ (la ++ lb).map Prod.fst := by
    have hnodup := (List.perm_middle.map Prod.fst).nodup_iff.mp h.chain.nodup
    exact (List.nodup_cons.mp hnodup).1
  have hprev : ∀ b, b ∉ (la ++ lb).map Prod.fst → m'.cells b = s.mem.cells b := by
    intro b hb
    refine hcells b fun hla => hb ?_
    rw [List.map_append]
    exact List.mem_append_left _ hla
  have hnode : m'.content a = some node := by
    unfold Mem.content
    rw [hprev a hout, h.chain.cell]
    rfl
  have hsub : ∀ b ∈ (la ++ lb).map Prod.fst, b ∈ (la ++ (a, node) :: lb).map Prod.fst := fun b hb =>
    (List.perm_middle.map Prod.fst).symm.subset (List.mem_cons_of_mem a hb)
  have hcurr : a ∈ (la ++ (a, node) :: lb).map Prod.fst :=
    (List.perm_middle.map Prod.fst).symm.subset List.mem_cons_self
  rw [hs, hv]
  refine .some ⟨la ++ lb, h.move (h.excludes.run hv) rfl hchain rfl (.delete rfl hnode)
    (fun u _ b hb => hprev b fun hlist => h.apart u b hb (hsub b hlist)) (Or.inr ?_)
    (fun b hb => Or.inl (hsub b hb)) fun b hb => ?_, .unlink hpc hlt⟩
  · rw [hthread]
    trivial
  · rw [List.mem_singleton.mp hb]
    exact ⟨hout, fun u _ hu => h.apart u a hu hcurr⟩

/-- `curr` is kept. -/
theorem run_keep (h : Refines s v (la ++ (a, node) :: lb))
    (hpc : (s.thread t).pc = .sweep minEpoch (la.map Prod.fst).getLast? (some a))
    (hthread : v.thread t =
      (s.thread t).view (.sweep minEpoch (la.map Prod.snd) (node :: lb.map Prod.snd)))
    (hlt : ¬ node.epoch < minEpoch) :
    Option.Rel (Agree s v t (la ++ (a, node) :: lb)) (EpochHeap.run s.mem (s.thread t))
      (EpochManager.run v.mem (v.thread t)) := by
  have hs : EpochHeap.run s.mem (s.thread t) = some (s.mem, (s.thread t).go
      (.sweep minEpoch (some a) (lb.map Prod.fst).head?)) := by
    rw [run_curr hpc h.chain.cell, if_neg hlt]
  have hv : EpochManager.run v.mem (v.thread t) = some (s.mem.view ((la ++ (a, node) :: lb).map Prod.snd),
      (s.thread t).view (.sweep minEpoch (la.map Prod.snd ++ [node]) (lb.map Prod.snd))) := by
    rw [h.mem, hthread]
    change some (if node.epoch < minEpoch then _ else _) = _
    rw [if_neg hlt]
    rfl
  have hsweep : Represents s.mem (la ++ (a, node) :: lb) (.sweep minEpoch (some a) (lb.map Prod.fst).head?)
      (.sweep minEpoch (la.map Prod.snd ++ [node]) (lb.map Prod.snd)) := by
    have hcut : Represents s.mem (la ++ (a, node) :: lb)
        (.sweep minEpoch ((la ++ [(a, node)]).map Prod.fst).getLast? (lb.map Prod.fst).head?)
        (.sweep minEpoch ((la ++ [(a, node)]).map Prod.snd) (lb.map Prod.snd)) :=
      .sweep (List.append_cons la (a, node) lb)
    rw [List.map_append, List.map_append] at hcut
    rw [← List.getLast?_concat (l := la.map Prod.fst)]
    exact hcut
  rw [hs, hv]
  exact .some ⟨_, h.moveBare (h.excludes.run hv) rfl rfl rfl rfl hsweep nofun, .same⟩

end Curr

/-- The object is freed. -/
theorem run_delete (h : Refines s v l) {minEpoch : U64} {a : Addr} {node : RetiredNode Node}
    {la lb : List (Addr × RetiredNode Node)} (hl : l = la ++ lb)
    (hpc : (s.thread t).pc =
      .delete minEpoch (la.map Prod.fst).getLast? a (lb.map Prod.fst).head?)
    (hthread : v.thread t =
      (s.thread t).view (.delete minEpoch (la.map Prod.snd) node (lb.map Prod.snd)))
    (hnode : s.mem.content a = some node) :
    Option.Rel (Agree s v t l) (EpochHeap.run s.mem (s.thread t)) (EpochManager.run v.mem (v.thread t)) := by
  have hown : a ∈ (s.thread t).pc.owned := by
    rw [hpc]
    exact List.mem_cons_self
  obtain ⟨q, hcell⟩ := Mem.content_eq_some.mp hnode
  have hs : EpochHeap.run s.mem (s.thread t) = some (s.mem.setCell a none, (s.thread t).go
      (.sweep minEpoch (la.map Prod.fst).getLast? (lb.map Prod.fst).head?)) := by
    unfold EpochHeap.run
    rw [hpc]
    change (s.mem.cells a).map _ = _
    rw [hcell]
    rfl
  have hv : EpochManager.run v.mem (v.thread t) = some ((s.mem.setCell a none).view (l.map Prod.snd),
      (s.thread t).view (.sweep minEpoch (la.map Prod.snd) (lb.map Prod.snd))) := by
    rw [h.mem, hthread]
    rfl
  rw [hs, hv]
  refine .some ⟨l, h.move (h.excludes.run hv) rfl (h.chain.setCell (h.apart t a hown) _) rfl
    (.sweep hl) (fun u hut b hb => ?_) (Or.inl ⟨rfl, rfl⟩) (fun _ => Or.inl) nofun, .same⟩
  refine Mem.setCell_of_ne ?_ _
  rintro rfl
  exact hut (h.single u t b hb hown)

/-- Every step of the code, other than the load of `retire_internal`, has the same outcome in both
models. -/
theorem run (h : Refines s v l) (hload : ∀ ptr, (s.thread t).pc ≠ .outer (.retireLoad ptr)) :
    Option.Rel (Agree s v t l) (EpochHeap.run s.mem (s.thread t)) (EpochManager.run v.mem (v.thread t)) := by
  have hposition := h.position t
  have hthread := h.thread t
  generalize hpv : (v.thread t).pc = pv at hposition hthread
  generalize hpc : (s.thread t).pc = pc at hposition hload
  cases hposition with
  | outer hbare =>
      by_cases hhead : ∃ minEpoch, pv = .reclaimHead minEpoch
      · obtain ⟨minEpoch, rfl⟩ := hhead
        exact h.run_reclaimHead hpc hthread
      · refine h.run_bare hpc hpv hbare (fun ptr heq => ?_) fun minEpoch heq => hhead ⟨minEpoch, heq⟩
        exact hload ptr (by rw [heq])
  | retireLock hnode => exact h.run_retireLock hpc hthread hnode
  | retireHead hnode => exact h.run_retireHead hpc hthread hnode
  | retireStore hcell => exact h.run_retireStore hpc hthread hcell
  | @sweep minEpoch la lb hl =>
      cases lb with
      | nil => exact h.run_sweep_nil hpc hthread
      | cons x lb =>
          subst hl
          by_cases hlt : x.2.epoch < minEpoch
          · exact h.run_unlink hpc hthread hlt
          · exact h.run_keep hpc hthread hlt
  | delete hl hnode => exact h.run_delete hl hpc hthread hnode

/-- A call begins in the same way in both models. -/
theorem call (h : Refines s v l) (hpc : (s.thread t).pc = .outer .idle)
    (label : EpochManager.Label Loc Node) : Option.Rel (Agree s v t l)
      ((EpochManager.call label (s.mem.view []) ((s.thread t).view .idle)).map s.mem.outer)
      (EpochManager.call label v.mem (v.thread t)) := by
  have hidle := h.bare hpc
  have hexcludes : ∀ {mv lv}, EpochManager.call label v.mem (v.thread t) = some (mv, lv) →
      Excludes mv (Function.update v.thread t lv) := fun hcall =>
    h.excludes.call hidle (EpochManager.callStep_of_call hcall)
  have hrel := call_view s.mem (s.thread t) label (l.map Prod.snd)
  rw [h.mem, h.thread t, hidle] at hexcludes ⊢
  generalize EpochManager.call label (s.mem.view []) ((s.thread t).view .idle) = x at hrel ⊢
  generalize EpochManager.call label (s.mem.view (l.map Prod.snd)) ((s.thread t).view .idle) = y
    at hrel hexcludes ⊢
  cases hrel with
  | none => exact .none
  | some hxy =>
      obtain ⟨hbare, rfl⟩ := hxy
      exact .some ⟨l, h.moveBare (hexcludes rfl) rfl rfl rfl rfl (.outer hbare) nofun, .same⟩

/-- The load of `retire_internal`, after `new` has returned an object at an address that was free. -/
theorem new (h : Refines s v l) {ptr : Node} {a : Addr}
    (hpc : (s.thread t).pc = .outer (.retireLoad ptr)) (hfree : s.mem.cells a = none) :
    ∃ y, EpochManager.run v.mem (v.thread t) = some y ∧ Agree s v t l
      (s.mem.setCell a (some ⟨⟨ptr, s.mem.globalEpoch⟩, none⟩), (s.thread t).go (.retireLock a)) y := by
  have hv : EpochManager.run v.mem (v.thread t) = some (s.mem.view (l.map Prod.snd),
      (s.thread t).view (.retireLock ⟨ptr, s.mem.globalEpoch⟩)) := by
    rw [h.mem, h.thread t, h.bare hpc]
    rfl
  have hout : a ∉ l.map Prod.fst := by
    intro ha
    obtain ⟨x, hx, rfl⟩ := List.mem_map.mp ha
    have hnode := h.chain.nodes x hx
    unfold Mem.content at hnode
    rw [hfree] at hnode
    cases hnode
  have hnone : ∀ u, a ∉ (s.thread u).pc.owned := fun u hu => (h.position u).owned_cell hu hfree
  refine ⟨_, hv, l, h.move (h.excludes.run hv) rfl (h.chain.setCell hout _) rfl
    (.retireLock (Mem.content_eq_some.mpr ⟨none, Mem.setCell_self _⟩)) (fun u _ b hb => ?_)
    (Or.inl ⟨rfl, rfl⟩) (fun _ => Or.inl) fun b hb => ?_, .same⟩
  · refine Mem.setCell_of_ne ?_ _
    rintro rfl
    exact hnone u hb
  · rw [List.mem_singleton.mp hb]
    exact ⟨hout, fun u _ => hnone u⟩

/-- The two models record the same history. -/
theorem record (h : Refines s v l) (hist : History Tid Node) {label : EpochManager.Label Loc Node}
    (hlabel : label = .run ∨ (s.thread t).pc = .outer .idle) (s' : State Tid Loc Node Addr) :
    EpochHeap.record hist s (.step t (.code label)) s' =
      hist.step t label v.mem (v.thread t).pc := by
  have hposition := h.position t
  unfold EpochHeap.record
  dsimp only
  generalize (s.thread t).pc = pc at hposition hlabel ⊢
  generalize (v.thread t).pc = pv at hposition ⊢
  cases hposition with
  | outer hbare =>
      rw [h.mem]
      rfl
  | delete hl hnode =>
      obtain rfl := hlabel.resolve_right nofun
      obtain ⟨q, hcell⟩ := Mem.content_eq_some.mp hnode
      dsimp only
      rw [hcell]
      rfl
  | _ =>
      obtain rfl := hlabel.resolve_right nofun
      rfl

/-- Every step with pointers is a step with the list. -/
theorem step (h : Refines s v l) {label : Label Loc Node Addr}
    (hstep : EpochHeap.step label s.mem (s.thread t) = some (m, lo)) (hist : History Tid Node)
    (s' : State Tid Loc Node Addr) :
    ∃ y, EpochManager.step label.erase v.mem (v.thread t) = some y ∧ Agree s v t l (m, lo) y ∧
      EpochHeap.record hist s (.step t label) s' = hist.step t label.erase v.mem (v.thread t).pc := by
  unfold EpochHeap.step at hstep
  split at hstep
  · rename_i a ptr hpc
    split_ifs at hstep with hfree
    cases hstep
    obtain ⟨y, hy, hagree⟩ := h.new hpc (Option.isNone_iff_eq_none.mp hfree)
    refine ⟨y, hy, hagree, ?_⟩
    rw [h.bare hpc]
    rfl
  · cases hstep
  · have hload : ∀ ptr, (s.thread t).pc ≠ .outer (.retireLoad ptr) := by
      intro ptr hpc
      unfold EpochHeap.run at hstep
      rw [hpc] at hstep
      cases hstep
    have hrel := h.run hload
    rw [hstep] at hrel
    obtain ⟨y, hy, hagree⟩ := exists_of_rel hrel
    exact ⟨y, hy, hagree, h.record hist (Or.inl rfl) s'⟩
  · rename_i label hrun hpc
    have hrel := h.call hpc label
    rw [hstep] at hrel
    obtain ⟨y, hy, hagree⟩ := exists_of_rel hrel
    refine ⟨y, ?_, hagree, h.record hist (Or.inr hpc) s'⟩
    rw [← hy]
    exact EpochManager.step_of_idle hrun (h.bare hpc)
  · cases hstep

/-- Every step with the list, other than the load of `retire_internal`, is a step with pointers. -/
theorem step_run (h : Refines s v l) (hload : ∀ ptr, (v.thread t).pc ≠ .retireLoad ptr)
    {y : EpochManager.Mem Loc Node × EpochManager.Local Node}
    (hstep : EpochManager.run v.mem (v.thread t) = some y) :
    ∃ x, EpochHeap.run s.mem (s.thread t) = some x := by
  have hrel := h.run (t := t) fun ptr hpc => hload ptr (h.bare hpc)
  rw [hstep] at hrel
  generalize EpochHeap.run s.mem (s.thread t) = x at hrel ⊢
  cases hrel with
  | some _ => exact ⟨_, rfl⟩

end Refines

/-! ### Runs -/

variable [Fintype Tid] {x x' : State Tid Loc Node Addr × History Tid Node}
  {a : Act Tid (Label Loc Node Addr)} {v : EpochManager.State Tid Loc Node}

theorem Refines.init : Refines (observed Tid Loc Node Addr).init.1
    (EpochManager.observed Tid Loc Node).init.1 [] where
  mem := rfl
  chain := .init
  thread _ := rfl
  position _ := .outer trivial
  apart _ _ ha := nomatch ha
  single _ _ _ ha := nomatch ha
  excludes := .init

theorem Refines.next (h : Refines x.1 v l) (hnext : (observed Tid Loc Node Addr).next x a = some x') :
    ∃ t label v' l', a = .step t label ∧
      (EpochManager.observed Tid Loc Node).next (v, x.2) (.step t label.erase) = some (v', x'.2) ∧
      Refines x'.1 v' l' ∧ Evolves (x.1.thread t).pc l l' := by
  obtain ⟨t, label, m, lo, rfl, hstep, rfl⟩ := Program.observed_step_of_next _ (fun _ => rfl)
    (fun _ => rfl) (fun _ => rfl) hnext
  obtain ⟨⟨mv, lv⟩, hv, ⟨l', hrefines, hevolves⟩, hrecord⟩ := h.step hstep x.2 (x.1.move t m lo)
  refine ⟨t, label, v.move t mv lv, l', rfl, ?_, hrefines, hevolves⟩
  rw [hrecord]
  exact EpochManager.observed_next_of_step (s := (v, x.2)) hv

/-- The two models are at the same point of the same run. -/
def Simulated (x : State Tid Loc Node Addr × History Tid Node)
    (y : EpochManager.State Tid Loc Node × History Tid Node) : Prop :=
  x.2 = y.2 ∧ ∃ l, Refines x.1 y.1 l

theorem simulates : Machine.Simulates (observed Tid Loc Node Addr) EpochManager.fewAdvances
    (EpochManager.observed Tid Loc Node) EpochManager.fewAdvances Simulated := by
  rintro x x' ⟨v, hist⟩ ⟨rfl, l, h⟩ ⟨a, hnext, hok⟩
  obtain ⟨t, label, v', l', rfl, hv, h', -⟩ := h.next hnext
  exact ⟨(v', x'.2), ⟨_, hv, hok⟩, rfl, l', h'⟩

/-- What is reachable with pointers stands for what is reachable with the list. -/
theorem refines_of_reachable (hreach : (observed Tid Loc Node Addr).Reachable EpochManager.fewAdvances x) :
    ∃ v l, (EpochManager.observed Tid Loc Node).Reachable EpochManager.fewAdvances (v, x.2) ∧
      Refines x.1 v l := by
  obtain ⟨⟨v, hist⟩, hv, rfl, l, h⟩ := simulates.reachable ⟨rfl, [], .init⟩ hreach
  exact ⟨v, l, hv, h⟩

end Psync.EpochHeap
