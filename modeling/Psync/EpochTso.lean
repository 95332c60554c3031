import Psync.EpochState
import Psync.RunTso

/-! The manager on a processor with store buffers (x86-TSO). The announcement of `enter` is a plain
store, and the fence after it stops the compiler only: it may still wait in the buffer of the reader when
the reader loads a shared location, and then a scan misses it. A scan that comes to the slot when no
store to its `active_epoch` waits reads the announced epoch. -/

namespace Psync.EpochManager

open Concurrency

set_option linter.unusedSectionVars false

variable {Tid Loc Node : Type*}

/-- A plain store. -/
inductive Write (Loc Node : Type*)
  | active (i : Slot) (e : U64)
  | inUse (i : Slot) (b : Bool)
  | retired (list : List (RetiredNode Node))
  | shared (loc : Loc) (ptr : Option Node)

def Write.apply [DecidableEq Loc] (w : Write Loc Node) (m : Mem Loc Node) : Mem Loc Node :=
  match w with
  | .active i e => m.setActive i e
  | .inUse i b => m.setInUse i b
  | .retired list => { m with retired := list }
  | .shared loc ptr => { m with shared := Function.update m.shared loc ptr }

/-- The epoch that the store gives to slot `i`. -/
def Write.announces (i : Slot) : Write Loc Node → Option U64
  | .active j e => if j = i then some e else none
  | _ => none

/-- How the next step of the code reaches memory. A CAS, a `fetch_add` and the operations of
`reclaim_mu_` are locked, every other store is plain. -/
def Pc.access : Pc Node → Access (Write Loc Node)
  | .register _ | .retireLock _ | .retireUnlock | .advance _ | .reclaimLock _ | .sweep _ _ [] => .locked
  | .unregisterEpoch i => .store (.active i kInactiveEpoch)
  | .unregisterUse i => .store (.inUse i false)
  | .enterStore i e => .store (.active i e)
  | .exit g => .store (.active g.slot kInactiveEpoch)
  | .retireStore node next => .store (.retired (node :: next))
  | .sweep minEpoch kept (node :: rest) =>
      if node.epoch < minEpoch then .store (.retired (kept ++ rest)) else .load
  | _ => .load

def access (label : Label Loc Node) (l : Local Node) : Access (Write Loc Node) :=
  match label with
  | .run => l.pc.access
  | .write loc ptr => .store (.shared loc ptr)
  | _ => .load

section Steps

variable [DecidableEq Loc] {m m' : Mem Loc Node} {l l' : Local Node} {label : Label Loc Node}

theorem run_does (hrun : run m l = some (m', l')) : l.pc.access.Does Write.apply m m' := by
  have hstep := runStep_of_run hrun
  generalize l.pc = pc at hstep
  cases hstep with
  | unlink hlt =>
      rw [Pc.access, if_pos hlt]
      rfl
  | keep hge =>
      rw [Pc.access, if_neg hge]
      rfl
  | registerFree | registerNext | registerLast | retireLock | retireUnlock | advance | reclaimLock
  | sweepEnd => trivial
  | _ => rfl

theorem step_does (hstep : step label m l = some (m', l')) :
    (access label l).Does Write.apply m m' := by
  rcases step_cases hstep with ⟨rfl, hrun⟩ | ⟨-, hcall⟩
  · exact run_does hrun
  · cases hcall <;> rfl

end Steps
/-- The threads on one manager, before its destruction, with their store buffers. -/
def buffered (Tid Loc Node : Type*) [DecidableEq Loc] :
    TsoProgram Tid (Mem Loc Node) (Write Loc Node) (Local Node) (Label Loc Node) where
  mem := .init
  start := ⟨none, [], .idle⟩
  apply := Write.apply
  step _ := step
  access := access
  does := step_does

abbrev TsoState (Tid Loc Node : Type*) := TsoConfig Tid (Mem Loc Node) (Write Loc Node) (Local Node)

/-- What the loads of thread `t` read. -/
abbrev seen [DecidableEq Loc] (s : TsoState Tid Loc Node) (t : Tid) : Mem Loc Node :=
  (buffered Tid Loc Node).view s t

/-- `active_epoch` of slot `i`. -/
def activeCell [DecidableEq Loc] (i : Slot) : (buffered Tid Loc Node).Cell U64 where
  read m := (m.threads i).activeEpoch
  sets := Write.announces i
  read_apply w m := by
    cases w with
    | active j e =>
        change ((m.setActive j e).threads i).activeEpoch = _
        rw [Mem.setActive_threads, Write.announces]
        by_cases hij : i = j
        · rw [if_pos hij, if_pos hij.symm]
          rfl
        · rw [if_neg hij, if_neg (Ne.symm hij)]
          rfl
    | inUse j b =>
        change ((m.setInUse j b).threads i).activeEpoch = _
        rw [Mem.setInUse_threads]
        split_ifs <;> rfl
    | retired | shared => rfl

/-- The thread is inside `unregister_thread`. -/
def Pc.leaving : Pc Node → Bool
  | .unregisterEpoch _ | .unregisterUse _ => true
  | _ => false

/-! ### The history of a run -/

/-- The last `enter` of a thread that has not begun an `exit` since. -/
structure Reading where
  epoch : U64
  /-- The thread has loaded a shared location since. -/
  loaded : Bool
  deriving DecidableEq

/-- What a step of the code makes of the reading of its thread. -/
def readingAfter (label : Label Loc Node) (pc : Pc Node) (r : Option Reading) : Option Reading :=
  match label, pc with
  | .read _, _ => r.map fun r => { r with loaded := true }
  | .exit _, _ => none
  | .run, .enterStore _ e => some ⟨e, false⟩
  | _, _ => r

/-- The runs of the manager with the readings of all threads. -/
def tsoObserved (Tid Loc Node : Type*) [DecidableEq Tid] [DecidableEq Loc] :
    Machine (TsoState Tid Loc Node × (Tid → Option Reading)) (TsoAct Tid (Label Loc Node)) :=
  (buffered Tid Loc Node).machine.observe (fun _ => none) fun h s a _ =>
    match a with
    | .step t label => Function.update h t (readingAfter label (s.thread t).pc (h t))
    | .drain _ => h

/-! ### The condition -/

section Condition

variable [DecidableEq Tid] [DecidableEq Loc]

/-- No store to `active_epoch` of slot `i` waits. -/
def Drained (i : Slot) (ws : List (Write Loc Node)) : Prop := ∀ w ∈ ws, w.announces i = none

/-- A slot whose `active_epoch` the next step of thread `t` loads has no store to it waiting while another
thread reads under it, no `enter` announces `kInactiveEpoch`, and a registration does not fall back. -/
def Visible (s : TsoState Tid Loc Node) (h : Tid → Option Reading) (t : Tid) : Pc Node → Prop
  | .scanEpoch _ _ i => ∀ u, u ≠ t → (s.thread u).slot = some i →
      ∀ r ∈ h u, r.loaded = true → Drained i (s.buffer u)
  | .enterStore _ e => e ≠ kInactiveEpoch
  | pc => Registers (seen s t) pc

def visible : StepCond (TsoState Tid Loc Node × (Tid → Option Reading)) (TsoAct Tid (Label Loc Node)) :=
  fun s a _ => match a with
    | .step t .run => Visible s.1 s.2 t (s.1.thread t).pc
    | _ => True

end Condition

/-! ### One thread on its own view -/

/-- A thread uses the slot it has registered, and leaves it without guards. -/
structure Placed (l : Local Node) : Prop where
  slots : ∀ g ∈ l.guards, l.slot = some g.slot
  registration : ∀ o, l.pc.registration = some o → l.slot = o
  leaving : l.pc.leaving = true → l.guards = []

/-- A thread that reads is announced in its own view. -/
structure Reads (m : Mem Loc Node) (l : Local Node) (r : Reading) : Prop where
  slot : ∃ i, l.slot = some i ∧ (m.threads i).activeEpoch = r.epoch
  inactive : r.epoch ≠ kInactiveEpoch
  guards : l.guards ≠ []
  exiting : l.pc.exiting = []

section OneThread

variable [DecidableEq Loc] {m m' : Mem Loc Node} {l l' : Local Node} {label : Label Loc Node}
  {o : Option Reading} {r : Reading}

theorem leaving_scanNext (current minEpoch : U64) (i : Slot) :
    (scanNext current minEpoch i : Pc Node).leaving = false := by
  unfold scanNext
  split_ifs <;> rfl

theorem exiting_scanNext (current minEpoch : U64) (i : Slot) :
    (scanNext current minEpoch i : Pc Node).exiting = [] := by
  unfold scanNext
  split_ifs <;> rfl

theorem leaving_of_run (hrun : run m l = some (m', l')) (hleaving : l'.pc.leaving = true) :
    l.pc.leaving = true ∧ l'.guards = l.guards := by
  have hstep := runStep_of_run hrun
  generalize l.pc = pc at hstep ⊢
  cases hstep with
  | unregisterEpoch => exact ⟨rfl, rfl⟩
  | scanUnused | scanEpoch =>
      rw [Local.go, leaving_scanNext] at hleaving
      cases hleaving
  | _ => cases hleaving

theorem Placed.guards_of_none (h : Placed l) (hslot : l.slot = none) : l.guards = [] := by
  refine List.eq_nil_iff_forall_not_mem.mpr fun g hg => ?_
  have hsome := h.slots g hg
  rw [hslot] at hsome
  cases hsome

theorem Placed.run (h : Placed l) (hregisters : Registers m l.pc)
    (hrun : EpochManager.run m l = some (m', l')) : Placed l' := by
  have hleaving : l'.pc.leaving = true → l'.guards = [] := by
    intro hl
    obtain ⟨hold, hguards⟩ := leaving_of_run hrun hl
    rw [hguards]
    exact h.leaving hold
  cases slotStep_of_run hregisters hrun with
  | register i hpc hfree =>
      have hslot := h.registration none (by rw [hpc]; rfl)
      refine ⟨fun g hg => ?_, nofun, hleaving⟩
      rw [h.guards_of_none hslot] at hg
      cases hg
  | withdraw i hpc =>
      refine ⟨h.slots, fun o ho => ?_, hleaving⟩
      cases ho
      exact h.registration _ (by rw [hpc]; rfl)
  | unregister i hpc =>
      refine ⟨fun g hg => ?_, nofun, hleaving⟩
      rw [h.leaving (by rw [hpc]; rfl)] at hg
      cases hg
  | enter i e hpc =>
      refine ⟨fun g hg => ?_, nofun, hleaving⟩
      rcases List.mem_cons.mp hg with rfl | hg
      · exact h.registration _ (by rw [hpc]; rfl)
      · exact h.slots g hg
  | exit g hpc => exact ⟨h.slots, nofun, hleaving⟩
  | other hthreads hexiting hregistration =>
      exact ⟨h.slots, fun o ho => h.registration o (hregistration o ho), hleaving⟩

theorem Placed.call (h : Placed l) (hcall : CallStep m l label m' l') : Placed l' := by
  cases hcall with
  | registerThread hslot =>
      refine ⟨h.slots, fun o ho => ?_, nofun⟩
      cases ho
      exact hslot
  | unregisterThread hguards hslot =>
      refine ⟨h.slots, fun o ho => ?_, fun _ => hguards⟩
      cases ho
      exact hslot
  | enter hslot =>
      refine ⟨h.slots, fun o ho => ?_, nofun⟩
      cases ho
      exact hslot
  | exit hg =>
      refine ⟨fun g hg => h.slots g (List.mem_of_mem_eraseIdx hg), fun o ho => ?_, nofun⟩
      cases ho
      exact h.slots _ (List.mem_of_getElem? hg)
  | retire | tryReclaim => exact ⟨h.slots, nofun, nofun⟩
  | read | write => exact h

/-- A step that leaves the slots and the guards. -/
theorem Reads.congr (h : Reads m l r) (hthreads : m'.threads = m.threads) (hslot : l'.slot = l.slot)
    (hguards : l'.guards = l.guards) (hexiting : l'.pc.exiting = []) : Reads m' l' r where
  slot := by
    rw [hthreads, hslot]
    exact h.slot
  inactive := h.inactive
  guards := by
    rw [hguards]
    exact h.guards
  exiting := hexiting

theorem readingAfter_run {pc : Pc Node} (hpc : ∀ i e, pc ≠ .enterStore i e) :
    readingAfter (.run : Label Loc Node) pc o = o := by
  cases pc with
  | enterStore i e => exact absurd rfl (hpc i e)
  | _ => rfl

theorem Reads.not_registering (h : Reads m l r) (hplaced : Placed l) (i : Slot) : l.pc ≠ .register i := by
  intro hpc
  obtain ⟨j, hj, -⟩ := h.slot
  rw [hplaced.registration none (by rw [hpc]; rfl)] at hj
  cases hj

theorem Reads.not_leaving (h : Reads m l r) (hplaced : Placed l) : l.pc.leaving = false := by
  by_contra hleaving
  exact h.guards (hplaced.leaving (Bool.eq_true_of_not_eq_false hleaving))

theorem Reads.run (h : ∀ r ∈ o, Reads m l r) (hplaced : Placed l)
    (hactive : ∀ i e, l.pc = .enterStore i e → e ≠ kInactiveEpoch)
    (hrun : EpochManager.run m l = some (m', l')) :
    ∀ r ∈ readingAfter (.run : Label Loc Node) l.pc o, Reads m' l' r := by
  intro r hr
  have hstep := runStep_of_run hrun
  by_cases hpc : ∃ i e, l.pc = .enterStore i e
  · obtain ⟨i, e, hpc⟩ := hpc
    rw [hpc] at hstep hr
    cases hr
    cases hstep
    refine ⟨⟨i, hplaced.registration _ (by rw [hpc]; rfl), ?_⟩, hactive i e hpc, List.cons_ne_nil _ _, rfl⟩
    rw [Mem.setActive_threads, if_pos rfl]
  · rw [readingAfter_run fun i e heq => hpc ⟨i, e, heq⟩] at hr
    have hreads := h r hr
    have hregister := hreads.not_registering hplaced
    have hleaving := hreads.not_leaving hplaced
    have hexiting := hreads.exiting
    generalize l.pc = pc at hstep hpc hregister hleaving hexiting
    cases hstep with
    | registerFree | registerNext | registerLast => exact absurd rfl (hregister _)
    | unregisterEpoch | unregisterUse => cases hleaving
    | enterStore => exact absurd ⟨_, _, rfl⟩ hpc
    | exit => cases hexiting
    | scanUnused | scanEpoch => exact hreads.congr rfl rfl rfl (exiting_scanNext ..)
    | _ => exact hreads.congr rfl rfl rfl rfl

theorem Reads.call (h : ∀ r ∈ o, Reads m l r) (hcall : CallStep m l label m' l') :
    ∀ r ∈ readingAfter label l.pc o, Reads m' l' r := by
  intro r hr
  cases hcall with
  | exit => cases hr
  | read =>
      obtain ⟨r', hr', rfl⟩ := Option.mem_map.mp hr
      obtain ⟨hslot, hinactive, hguards, hexiting⟩ := h r' hr'
      exact ⟨hslot, hinactive, hguards, hexiting⟩
  | write => exact (h r hr).congr rfl rfl rfl (h r hr).exiting
  | unregisterThread hguards => exact absurd hguards (h r hr).guards
  | _ => exact (h r hr).congr rfl rfl rfl rfl

/-- A step of a thread on its own view. -/
theorem Reads.step (h : ∀ r ∈ o, Reads m l r) (hplaced : Placed l)
    (hactive : label = .run → ∀ i e, l.pc = .enterStore i e → e ≠ kInactiveEpoch)
    (hstep : EpochManager.step label m l = some (m', l')) :
    ∀ r ∈ readingAfter label l.pc o, Reads m' l' r := by
  rcases step_cases hstep with ⟨rfl, hrun⟩ | ⟨-, hcall⟩
  · exact Reads.run h hplaced (hactive rfl) hrun
  · exact Reads.call h hcall

theorem Placed.step (h : Placed l) (hregisters : label = .run → Registers m l.pc)
    (hstep : EpochManager.step label m l = some (m', l')) : Placed l' := by
  rcases step_cases hstep with ⟨rfl, hrun⟩ | ⟨-, hcall⟩
  · exact h.run (hregisters rfl) hrun
  · exact h.call hcall

end OneThread

/-! ### Slots and buffers -/

/-- The stores that wait lead from the slot `o` that the thread has in memory to its slot `o'`: they go
to that slot only, and the one that frees it comes last. -/
def Owes : Option Slot → List (Write Loc Node) → Option Slot → Prop
  | o, [], o' => o = o'
  | o, .active i _ :: ws, o' => o = some i ∧ Owes o ws o'
  | o, .inUse i b :: ws, o' => o = some i ∧ b = false ∧ Owes none ws o'
  | o, .retired _ :: ws, o' | o, .shared _ _ :: ws, o' => Owes o ws o'

section Owes

variable {o o' o'' : Option Slot} {ws ws' : List (Write Loc Node)} {i : Slot}

theorem Owes.append (h : Owes o ws o') (h' : Owes o' ws' o'') : Owes o (ws ++ ws') o'' := by
  induction ws generalizing o with
  | nil =>
      cases h
      exact h'
  | cons w ws ih =>
      cases w with
      | active j e => exact ⟨h.1, ih h.2⟩
      | inUse j b => exact ⟨h.1, h.2.1, ih h.2.2⟩
      | retired | shared => exact ih (o := o) h

/-- A slot that is free in memory is not used. -/
theorem Owes.eq_none (h : Owes none ws o') : o' = none := by
  induction ws with
  | nil => exact h.symm
  | cons w ws ih =>
      cases w with
      | active | inUse => cases h.1
      | retired | shared => exact ih h

theorem Owes.eq_some (h : Owes o ws (some i)) : o = some i := by
  induction ws generalizing o with
  | nil => exact h
  | cons w ws ih =>
      cases w with
      | active => exact ih h.2
      | inUse => cases h.2.2.eq_none
      | retired | shared => exact ih h

/-- No store to another slot waits. -/
theorem Owes.drained (h : Owes o ws o') (ho : o ≠ some i) : Drained i ws := by
  induction ws generalizing o with
  | nil => exact List.forall_mem_nil _
  | cons w ws ih =>
      refine List.forall_mem_cons.mpr ?_
      cases w with
      | active j e =>
          obtain ⟨rfl, h⟩ := h
          exact ⟨if_neg fun hji => ho (congrArg some hji), ih h ho⟩
      | inUse => exact ⟨rfl, ih h.2.2 nofun⟩
      | retired | shared => exact ⟨rfl, ih h ho⟩

/-- What a step does to the slot of its thread. -/
def SlotEffect (m m' : Mem Loc Node) (o o' : Option Slot) : Access (Write Loc Node) → Prop
  | .load => o' = o
  | .store w => Owes o [w] o'
  | .locked => (o' = o ∧ m'.threads = m.threads) ∨
      ∃ i, o = none ∧ o' = some i ∧ (m.threads i).inUse = false ∧ m' = m.setInUse i true

variable [DecidableEq Loc] {m m' : Mem Loc Node} {l l' : Local Node} {label : Label Loc Node}

theorem Placed.slotEffect_run (h : Placed l) (hregisters : Registers m l.pc)
    (hrun : EpochManager.run m l = some (m', l')) : SlotEffect m m' l.slot l'.slot l.pc.access := by
  have hstep := runStep_of_run hrun
  have hplace := h.registration
  generalize l.pc = pc at hstep hplace hregisters
  cases hstep with
  | registerFree hfree => exact Or.inr ⟨_, hplace _ rfl, rfl, hfree, rfl⟩
  | registerLast hused hi =>
      rcases hregisters with hlt | hfree
      · exact absurd hlt hi
      · rw [hused] at hfree
        cases hfree
  | unregisterEpoch | enterStore | exit => exact ⟨hplace _ rfl, rfl⟩
  | unregisterUse => exact ⟨hplace _ rfl, rfl, rfl⟩
  | unlink hlt =>
      rw [Pc.access, if_pos hlt]
      rfl
  | keep hge =>
      rw [Pc.access, if_neg hge]
      rfl
  | registerNext | retireLock | retireUnlock | advance | reclaimLock | sweepEnd => exact Or.inl ⟨rfl, rfl⟩
  | _ => rfl

theorem Placed.slotEffect (h : Placed l) (hregisters : label = .run → Registers m l.pc)
    (hstep : EpochManager.step label m l = some (m', l')) :
    SlotEffect m m' l.slot l'.slot (access label l) := by
  rcases step_cases hstep with ⟨rfl, hrun⟩ | ⟨-, hcall⟩
  · exact h.slotEffect_run (hregisters rfl) hrun
  · cases hcall <;> rfl

end Owes

/-- Thread `u` has slot `site u` in memory. -/
structure Sited (site : Tid → Option Slot) (s : TsoState Tid Loc Node) : Prop where
  owes : ∀ u, Owes (site u) (s.buffer u) (s.thread u).slot
  inUse : ∀ u i, site u = some i → (s.mem.threads i).inUse = true
  distinct : ∀ u v i, site u = some i → site v = some i → u = v
  placed : ∀ u, Placed (s.thread u)

section Runs

variable [DecidableEq Tid] [DecidableEq Loc] {site : Tid → Option Slot} {s s' : TsoState Tid Loc Node}
  {t u : Tid} {label : Label Loc Node} {a : TsoAct Tid (Label Loc Node)} {m : Mem Loc Node}
  {h : Tid → Option Reading} {i : Slot}

/-- In memory thread `t` has the slot `o` from now on. -/
theorem Sited.assign (hs : Sited site s) {o : Option Slot}
    (howes : Owes o (s'.buffer t) (s'.thread t).slot) (hplaced : Placed (s'.thread t))
    (hothers : ∀ u, u ≠ t → s'.thread u = s.thread u ∧ s'.buffer u = s.buffer u)
    (hinUse : ∀ u, u ≠ t → ∀ i, site u = some i → (s'.mem.threads i).inUse = true)
    (hself : ∀ i, o = some i → (s'.mem.threads i).inUse = true ∧ ∀ u, u ≠ t → site u ≠ some i) :
    Sited (Function.update site t o) s' where
  owes u := by
    by_cases hut : u = t
    · rw [hut, Function.update_self]
      exact howes
    · rw [Function.update_of_ne hut, (hothers u hut).1, (hothers u hut).2]
      exact hs.owes u
  inUse u i hu := by
    rw [Function.update_apply] at hu
    split_ifs at hu with hut
    · exact (hself i hu).1
    · exact hinUse u hut i hu
  distinct u v i hu hv := by
    rw [Function.update_apply] at hu hv
    split_ifs at hu hv with hut hvt hvt
    · rw [hut, hvt]
    · exact absurd hv ((hself i hu).2 v hvt)
    · exact absurd hu ((hself i hv).2 u hut)
    · exact hs.distinct u v i hu hv
  placed u := by
    by_cases hut : u = t
    · rw [hut]
      exact hplaced
    · rw [(hothers u hut).1]
      exact hs.placed u

/-- A step of thread `t` that leaves the use of the slots in memory. -/
theorem Sited.move (hs : Sited site s) (hinUse : ∀ i, (s'.mem.threads i).inUse = (s.mem.threads i).inUse)
    (howes : Owes (site t) (s'.buffer t) (s'.thread t).slot) (hplaced : Placed (s'.thread t))
    (hothers : ∀ u, u ≠ t → s'.thread u = s.thread u ∧ s'.buffer u = s.buffer u) :
    ∃ site', Sited site' s' := by
  refine ⟨_, hs.assign howes hplaced hothers (fun u _ i hu => ?_) fun i hi => ⟨?_, fun u hut hu => ?_⟩⟩
  · rw [hinUse]
    exact hs.inUse u i hu
  · rw [hinUse]
    exact hs.inUse t i hi
  · exact hut (hs.distinct u t i hu hi)

/-- The oldest store of thread `t` reaches memory. -/
theorem Sited.drain (hs : Sited site s) {w : Write Loc Node} {ws : List (Write Loc Node)}
    (hbuffer : s.buffer t = w :: ws) : ∃ site', Sited site'
      { s with mem := w.apply s.mem, buffer := Function.update s.buffer t ws } := by
  have howes := hs.owes t
  rw [hbuffer] at howes
  have hothers : ∀ u, u ≠ t → s.thread u = s.thread u ∧
      Function.update s.buffer t ws u = s.buffer u := fun u hut => ⟨rfl, Function.update_of_ne hut ..⟩
  have hplain : (∀ i, ((w.apply s.mem).threads i).inUse = (s.mem.threads i).inUse) →
      Owes (site t) ws (s.thread t).slot → ∃ site', Sited site'
        { s with mem := w.apply s.mem, buffer := Function.update s.buffer t ws } := by
    intro hinUse hrest
    refine hs.move hinUse ?_ (hs.placed t) hothers
    change Owes (site t) (Function.update s.buffer t ws t) (s.thread t).slot
    rw [Function.update_self]
    exact hrest
  cases w with
  | active j e =>
      refine hplain (fun i => ?_) howes.2
      change ((s.mem.setActive j e).threads i).inUse = _
      rw [Mem.setActive_threads]
      split_ifs <;> rfl
  | inUse j b =>
      obtain ⟨hsite, rfl, hrest⟩ := howes
      refine ⟨_, hs.assign (o := none) ?_ (hs.placed t) hothers (fun u hut i hu => ?_) nofun⟩
      · change Owes none (Function.update s.buffer t ws t) (s.thread t).slot
        rw [Function.update_self]
        exact hrest
      · change ((s.mem.setInUse j false).threads i).inUse = true
        rw [Mem.setInUse_threads, if_neg]
        · exact hs.inUse u i hu
        · rintro rfl
          exact hut (hs.distinct u t i hu hsite)
  | retired | shared => exact hplain (fun _ => rfl) howes

/-- A locked step of thread `t`. -/
theorem Sited.locked (hs : Sited site s) (hempty : s'.buffer t = [])
    (heffect : SlotEffect s.mem s'.mem (s.thread t).slot (s'.thread t).slot .locked)
    (howes : site t = (s.thread t).slot) (hplaced : Placed (s'.thread t))
    (hothers : ∀ u, u ≠ t → s'.thread u = s.thread u ∧ s'.buffer u = s.buffer u) :
    ∃ site', Sited site' s' := by
  rcases heffect with ⟨hslot, hthreads⟩ | ⟨i, -, hslot, hfree, hmem⟩
  · refine hs.move (fun i => by rw [hthreads]) ?_ hplaced hothers
    rw [hempty, hslot]
    exact howes
  · have hused : ∀ u, u ≠ t → site u ≠ some i := by
      intro u _ hu
      rw [hs.inUse u i hu] at hfree
      cases hfree
    refine ⟨_, hs.assign (o := some i) ?_ hplaced hothers (fun u hut j hu => ?_) fun j hj => ?_⟩
    · rw [hempty, hslot]
      rfl
    · rw [hmem, Mem.setInUse_threads]
      split_ifs
      · rfl
      · exact hs.inUse u j hu
    · cases hj
      refine ⟨?_, hused⟩
      rw [hmem, Mem.setInUse_threads, if_pos rfl]

theorem Sited.next (hs : Sited site s) (hnext : (buffered Tid Loc Node).Transition s a s')
    (hregisters : ∀ t, a = .step t .run → Registers (seen s t) (s.thread t).pc) :
    ∃ site', Sited site' s' := by
  cases a with
  | drain t =>
      cases hnext with
      | drain hbuffer => exact hs.drain hbuffer
  | step t label =>
      have hstep := hnext.of_step
      have hlabel : label = .run → Registers (seen s t) (s.thread t).pc := by
        rintro rfl
        exact hregisters t rfl
      have hplaced := (hs.placed t).step hlabel hstep
      have heffect := (hs.placed t).slotEffect hlabel hstep
      have hothers : ∀ u, u ≠ t → s'.thread u = s.thread u ∧ s'.buffer u = s.buffer u := fun u =>
        hnext.others
      have howes := hs.owes t
      cases hnext with
      | load haccess _ =>
          change SlotEffect _ _ _ _ (access label (s.thread t)) at heffect
          change access label (s.thread t) = _ at haccess
          rw [haccess] at heffect
          refine hs.move (fun _ => rfl) ?_ hplaced hothers
          rw [show _ = (s.thread t).slot from heffect]
          exact howes
      | @store t label w th haccess _ =>
          change access label (s.thread t) = _ at haccess
          rw [haccess] at heffect
          refine hs.move (fun _ => rfl) ?_ hplaced hothers
          change Owes (site t) (Function.update s.buffer t (s.buffer t ++ [w]) t) _
          rw [Function.update_self]
          exact howes.append heffect
      | @locked t label m th haccess hempty _ =>
          change access label (s.thread t) = _ at haccess
          have hseen : seen s t = s.mem := TsoProgram.view_of_empty _ hempty
          have hview : (buffered Tid Loc Node).view
              { s with mem := m, thread := Function.update s.thread t th } t = m :=
            TsoProgram.view_of_empty _ hempty
          rw [haccess, hseen, hview] at heffect
          rw [hempty] at howes
          exact hs.locked hempty heffect howes hplaced hothers

/-! ### Readers -/

/-- What the slot in memory announces is read in the same way from any memory that agrees on it. -/
theorem Reads.of_active {m' : Mem Loc Node} {l : Local Node} {r : Reading} (h : Reads m l r)
    (hactive : ∀ i, l.slot = some i → (m'.threads i).activeEpoch = (m.threads i).activeEpoch) :
    Reads m' l r where
  slot := by
    obtain ⟨i, hi, he⟩ := h.slot
    exact ⟨i, hi, (hactive i hi).trans he⟩
  inactive := h.inactive
  guards := h.guards
  exiting := h.exiting

/-- A reader whose buffer stays sees its slot as before, as long as memory agrees on it. -/
theorem Reads.of_mem {r : Reading} (h : Reads (seen s u) (s.thread u) r)
    (hthread : s'.thread u = s.thread u) (hbuffer : s'.buffer u = s.buffer u)
    (hmem : ∀ i, (s.thread u).slot = some i →
      (s'.mem.threads i).activeEpoch = (s.mem.threads i).activeEpoch) :
    Reads (seen s' u) (s'.thread u) r := by
  rw [hthread]
  refine h.of_active fun i hi => ?_
  unfold seen TsoProgram.view
  rw [hbuffer]
  exact (activeCell i).read_flush_congr (hmem i hi)

/-- A step of a thread that reaches memory at once leaves what the slots announce. -/
theorem SlotEffect.active {m' : Mem Loc Node} {o o' : Option Slot}
    (h : SlotEffect m m' o o' .locked) (i : Slot) :
    (m'.threads i).activeEpoch = (m.threads i).activeEpoch := by
  rcases h with ⟨-, hthreads⟩ | ⟨j, -, -, -, rfl⟩
  · rw [hthreads]
  · rw [Mem.setInUse_threads]
    split_ifs with hij
    · rfl
    · rfl

/-- The readings of all threads. -/
def Sees (s : TsoState Tid Loc Node) (h : Tid → Option Reading) : Prop :=
  ∀ u, ∀ r ∈ h u, Reads (seen s u) (s.thread u) r

theorem Sees.step (hsees : Sees s h) (hs : Sited site s)
    (hnext : (buffered Tid Loc Node).Transition s (.step t label) s')
    (hregisters : label = .run → Registers (seen s t) (s.thread t).pc)
    (hactive : label = .run → ∀ i e, (s.thread t).pc = .enterStore i e → e ≠ kInactiveEpoch) :
    Sees s' (Function.update h t (readingAfter label (s.thread t).pc (h t))) := by
  intro u r hr
  rw [Function.update_apply] at hr
  have hstep := hnext.of_step
  split_ifs at hr with hut
  · rw [hut]
    exact Reads.step (hsees t) (hs.placed t) hactive hstep r hr
  · obtain ⟨hthread, hbuffer⟩ := hnext.others hut
    refine (hsees u r hr).of_mem hthread hbuffer fun i _ => ?_
    cases hnext with
    | load | store => rfl
    | @locked t label m th haccess hempty hlocked =>
        change access label (s.thread t) = _ at haccess
        have heffect := (hs.placed t).slotEffect hregisters hstep
        have hseen : seen s t = s.mem := TsoProgram.view_of_empty _ hempty
        have hview : (buffered Tid Loc Node).view
            { s with mem := m, thread := Function.update s.thread t th } t = m :=
          TsoProgram.view_of_empty _ hempty
        rw [haccess, hseen, hview] at heffect
        exact heffect.active i

theorem Sees.drain (hsees : Sees s h) (hs : Sited site s) {w : Write Loc Node}
    {ws : List (Write Loc Node)} (hbuffer : s.buffer t = w :: ws) :
    Sees { s with mem := w.apply s.mem, buffer := Function.update s.buffer t ws } h := by
  intro u r hr
  by_cases hut : u = t
  · have hview := TsoProgram.view_drain (P := buffered Tid Loc Node) hbuffer
    have hreads := hsees t r (hut ▸ hr)
    rw [hut]
    unfold seen at hreads ⊢
    rw [← hview] at hreads
    exact hreads
  · refine (hsees u r hr).of_mem rfl (Function.update_of_ne hut ..) fun i hi => ?_
    have howes := hs.owes u
    rw [hi] at howes
    have hdrained : Drained i (s.buffer t) := by
      refine (hs.owes t).drained fun ht => hut ?_
      exact hs.distinct u t i howes.eq_some ht
    have happly := (activeCell i : (buffered Tid Loc Node).Cell U64).read_apply w s.mem
    change _ = (w.announces i).getD _ at happly
    rw [hdrained w (by rw [hbuffer]; exact List.mem_cons_self)] at happly
    exact happly

/-- What holds in every run in which announcements are visible. -/
structure Buffered (s : TsoState Tid Loc Node × (Tid → Option Reading)) : Prop where
  sited : ∃ site, Sited site s.1
  sees : Sees s.1 s.2

theorem buffered_of_reachable {s : TsoState Tid Loc Node × (Tid → Option Reading)}
    (hreach : (tsoObserved Tid Loc Node).Reachable visible s) : Buffered s := by
  refine hreach.induct (I := Buffered) ⟨⟨fun _ => none, ?_⟩, nofun⟩ ?_
  · exact ⟨fun _ => rfl, nofun, nofun, fun _ => ⟨nofun, nofun, nofun⟩⟩
  rintro ⟨s, h⟩ a ⟨s', h'⟩ - ⟨⟨site, hs⟩, hsees⟩ hnext hok
  obtain ⟨hnext, hrecord⟩ := Machine.observe_next hnext
  have htransition := TsoProgram.transition_of_next hnext
  have hregisters : ∀ t, a = .step t .run → Registers (seen s t) (s.thread t).pc := by
    rintro t rfl
    change Visible s h t (s.thread t).pc at hok
    generalize (s.thread t).pc = pc at hok
    cases pc with
    | scanEpoch | enterStore => trivial
    | _ => exact hok
  refine ⟨hs.next htransition hregisters, ?_⟩
  rw [hrecord]
  cases a with
  | step t label =>
      refine hsees.step hs htransition (fun hrun => hregisters t (hrun ▸ rfl)) ?_
      rintro rfl i e hpc
      change Visible s h t (s.thread t).pc at hok
      rw [hpc] at hok
      exact hok
  | drain t =>
      cases htransition with
      | drain hbuffer => exact hsees.drain hs hbuffer

/-! ### Scans -/

/-- The next step of thread `t`, the load of `active_epoch` of slot `i`, reads what a reader of that slot
has announced. -/
structure ReadsAnnounced (s s' : TsoState Tid Loc Node) (t : Tid) (current minEpoch : U64) (i : Slot)
    (r : Reading) : Prop where
  reads : ((seen s t).threads i).activeEpoch = r.epoch
  inactive : r.epoch ≠ kInactiveEpoch
  lowered : (s'.thread t).pc = scanNext current (lowered minEpoch r.epoch) i

/-- In every run in which announcements are visible, every scan that comes to the slot of a reader after
its first load of a shared location reads the epoch that the reader has announced. -/
theorem announcement_is_visible {s s' : TsoState Tid Loc Node × (Tid → Option Reading)}
    (hreach : (tsoObserved Tid Loc Node).Reachable visible s) {t u : Tid} {current minEpoch : U64} {i : Slot}
    {r : Reading} (hscan : (s.1.thread t).pc = .scanEpoch current minEpoch i)
    (hslot : (s.1.thread u).slot = some i) (hr : r ∈ s.2 u) (hloaded : r.loaded = true)
    (hnext : (tsoObserved Tid Loc Node).next s (.step t .run) = some s')
    (hok : visible s (.step t .run) s') : ReadsAnnounced s.1 s'.1 t current minEpoch i r := by
  obtain ⟨⟨site, hs⟩, hsees⟩ := buffered_of_reachable hreach
  have hreads := hsees u r hr
  obtain ⟨j, hj, hannounced⟩ := hreads.slot
  rw [hslot] at hj
  cases hj
  have hsite : site u = some i := by
    have howes := hs.owes u
    rw [hslot] at howes
    exact howes.eq_some
  have hactive : ((seen s.1 t).threads i).activeEpoch = r.epoch := by
    by_cases hut : u = t
    · rw [← hut]
      exact hannounced
    · change Visible s.1 s.2 t (s.1.thread t).pc at hok
      rw [hscan] at hok
      have hscanner : Drained i (s.1.buffer t) :=
        (hs.owes t).drained fun ht => hut (hs.distinct u t i hsite ht)
      have hreader := (activeCell i).read_view (hok u hut hslot r hr hloaded)
      have hmem := (activeCell i).read_view hscanner
      change ((seen s.1 t).threads i).activeEpoch = _ at hmem
      change ((seen s.1 u).threads i).activeEpoch = _ at hreader
      rw [hmem, ← hreader]
      exact hannounced
  refine ⟨hactive, hreads.inactive, ?_⟩
  have hstep := (TsoProgram.transition_of_next (Machine.observe_next hnext).1).of_step
  have hrun := runStep_of_run (show run (seen s.1 t) (s.1.thread t) = _ from hstep)
  rw [hscan] at hrun
  rw [← hactive]
  generalize (buffered Tid Loc Node).view s.1 t = m at hrun ⊢
  generalize (buffered Tid Loc Node).view s'.1 t = m' at hrun
  generalize s'.1.thread t = l at hrun ⊢
  cases hrun
  rfl

end Runs

/-- Thread `a` registers, enters and reads a shared location; its announcement has reached memory if
`drains`. Thread `b` begins a `try_reclaim` and finds slot 0 in use. -/
def announceRun (drains : Bool) : List (TsoAct Runner (Label Unit ℕ)) :=
  [.step .a .registerThread, .step .a .run, .step .a .enter, .step .a .run, .step .a .run] ++
    (if drains then [.drain .a] else []) ++
    [.step .a (.read ()), .step .b .tryReclaim, .step .b .run, .step .b .run]

instance (i : Slot) (ws : List (Write Unit ℕ)) : Decidable (Drained i ws) :=
  inferInstanceAs (Decidable (∀ w ∈ ws, w.announces i = none))

instance (s : TsoState Runner Unit ℕ) (h : Runner → Option Reading) (t : Runner) (pc : Pc ℕ) :
    Decidable (Visible s h t pc) :=
  match pc with
  | .scanEpoch _ _ i => inferInstanceAs (Decidable (∀ u, u ≠ t → (s.thread u).slot = some i →
      ∀ r ∈ h u, r.loaded = true → Drained i (s.buffer u)))
  | .enterStore _ e => inferInstanceAs (Decidable (e ≠ kInactiveEpoch))
  | .register i => inferInstanceAs (Decidable (Registers (seen s t) (.register i)))
  | .unregisterEpoch _ | .unregisterUse _ | .exit _ | .idle | .enterLoad _
  | .retireLoad _ | .retireLock _ | .retireHead _ | .retireStore .. | .retireUnlock | .reclaimLoad
  | .scanUse .. | .advance _ | .reclaimLock _ | .reclaimHead _ | .sweep ..
  | .delete .. => .isTrue trivial

instance (s : TsoState Runner Unit ℕ × (Runner → Option Reading)) (a : TsoAct Runner (Label Unit ℕ))
    (s' : TsoState Runner Unit ℕ × (Runner → Option Reading)) : Decidable (visible s a s') :=
  match a with
  | .step t .run => inferInstanceAs (Decidable (Visible s.1 s.2 t (s.1.thread t).pc))
  | .step _ .registerThread | .step _ .unregisterThread | .step _ .enter | .step _ (.exit _)
  | .step _ (.retire _) | .step _ .tryReclaim | .step _ (.read _) | .step _ (.write ..) | .drain _ =>
      .isTrue trivial

theorem announcement_is_visible_drained : ∃ s s' : TsoState Runner Unit ℕ × (Runner → Option Reading),
    s.2 .a = some ⟨1, true⟩ ∧ ReadsAnnounced s.1 s'.1 .b 1 1 0 ⟨1, true⟩ :=
  let M := tsoObserved Runner Unit ℕ
  let s := (M.run visible M.init (announceRun true)).get (by decide +kernel)
  let s' := (M.next s (.step .b .run)).get (by decide +kernel)
  ⟨s, s', by decide +kernel, announcement_is_visible (.of_run _ _) (u := .a) rfl
    (by decide +kernel) (by decide +kernel) rfl (Option.some_get _).symm (by decide +kernel)⟩

/-- The announcement of `a` is still in its buffer when the scan of `b` loads `active_epoch` of its
slot. -/
theorem announcement_missed : ∃ s : TsoState Runner Unit ℕ × (Runner → Option Reading),
    (tsoObserved Runner Unit ℕ).Reachable anyStep s ∧ (s.1.thread .b).pc = .scanEpoch 1 1 0 ∧
      (s.1.thread .a).slot = some 0 ∧ s.2 .a = some ⟨1, true⟩ ∧
      ((seen s.1 .b).threads 0).activeEpoch = kInactiveEpoch :=
  let M := tsoObserved Runner Unit ℕ
  ⟨(M.run anyStep M.init (announceRun false)).get (by decide +kernel), .of_run _ _, rfl,
    by decide +kernel, by decide +kernel, by decide +kernel⟩

end Psync.EpochManager
