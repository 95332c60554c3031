import Psync.EpochGuard

/-! Runs in which clients keep the contract of epoch-based reclamation, and what holds of the slots,
the epochs and the retired nodes in them. A history records what every reader has obtained since its
last `enter`, the nodes whose `retire` has begun, the deleters that have run, and the advances. -/

namespace Psync.EpochManager

open Concurrency

set_option linter.unusedSectionVars false

variable {Tid Loc Node : Type*} [DecidableEq Tid] [DecidableEq Loc] {t : Tid} {m m' : Mem Loc Node}
  {f : Tid → Local Node} {l l' : Local Node} {pc' : Pc Node} {g : Guard} {i j : Slot}
  {label : Label Loc Node}

/-! ### The history of a run -/

structure History (Tid Node : Type*) where
  /-- What a thread has read from shared locations since its last `enter` returned. -/
  obtained : Tid → List Node
  /-- The nodes whose `retire` has begun. -/
  retired : List Node
  /-- The nodes whose deleter has run. -/
  freed : List Node
  /-- The number of advances of the global epoch. -/
  advances : ℕ

namespace History

def init : History Tid Node := ⟨fun _ => [], [], [], 0⟩

def step (t : Tid) (label : Label Loc Node) (m : Mem Loc Node) (pc : Pc Node)
    (h : History Tid Node) : History Tid Node :=
  match label, pc with
  | .read loc, _ =>
      { h with obtained := Function.update h.obtained t ((m.shared loc).toList ++ h.obtained t) }
  | .retire ptr, _ => { h with retired := ptr :: h.retired }
  | .run, .enterStore _ _ => { h with obtained := Function.update h.obtained t [] }
  | .run, .advance _ => { h with advances := h.advances + 1 }
  | .run, .delete _ _ node _ => { h with freed := node.ptr :: h.freed }
  | _, _ => h

end History

def record (h : History Tid Node) (s : State Tid Loc Node) (a : Act Tid (Label Loc Node))
    (_ : State Tid Loc Node) : History Tid Node :=
  match a with
  | .step t label => h.step t label s.mem (s.thread t).pc
  | _ => h

/-- The runs of the manager with their history. -/
def observed (Tid Loc Node : Type*) [Fintype Tid] [DecidableEq Tid] [DecidableEq Loc] :
    Machine (State Tid Loc Node × History Tid Node) (Act Tid (Label Loc Node)) :=
  (program Tid Loc Node).machine.observe .init record

/-- `register_thread` does not fall back to a slot that it has not registered. -/
def Registers (m : Mem Loc Node) : Pc Node → Prop
  | .register i => i + 1 < kMaxThreads ∨ (m.threads i).inUse = false
  | _ => True

/-- The contract of the clients: threads use slots that they have registered, enter only when they
have left, retire a node only after unlinking it, and never link it again. -/
def Permitted (m : Mem Loc Node) (h : History Tid Node) (l : Local Node) : Label Loc Node → Prop
  | .enter => l.guards = []
  | .retire ptr => ∀ loc, m.shared loc ≠ some ptr
  | .write _ ptr => ∀ x ∈ ptr, x ∉ h.retired
  | .run => Registers m l.pc
  | _ => True

/-- The clients keep the contract, and the epoch advances fewer than `2 ^ 64 - 2` times. -/
def contract : StepCond (State Tid Loc Node × History Tid Node) (Act Tid (Label Loc Node)) :=
  fun s a s' => (match a with
    | .step t label => Permitted s.1.mem s.2 (s.1.thread t) label
    | _ => True) ∧ s'.2.advances + 2 < 2 ^ 64

instance (m : Mem Loc Node) (pc : Pc Node) : Decidable (Registers m pc) :=
  match pc with
  | .register i => inferInstanceAs (Decidable (i + 1 < kMaxThreads ∨ (m.threads i).inUse = false))
  | .unregisterEpoch _ | .unregisterUse _ | .exit _ | .enterStore .. | .idle | .enterLoad _
  | .retireLoad _ | .retireLock _ | .retireHead _ | .retireStore .. | .retireUnlock | .reclaimLoad
  | .scanUse .. | .scanEpoch .. | .advance _ | .reclaimLock _ | .reclaimHead _ | .sweep ..
  | .delete .. => .isTrue trivial

instance [Fintype Loc] [DecidableEq Node] (m : Mem Loc Node) (h : History Tid Node)
    (l : Local Node) (label : Label Loc Node) : Decidable (Permitted m h l label) :=
  match label with
  | .enter => inferInstanceAs (Decidable (l.guards = []))
  | .retire ptr => inferInstanceAs (Decidable (∀ loc, m.shared loc ≠ some ptr))
  | .write _ ptr => Option.decidableForallMem ptr
  | .run => inferInstanceAs (Decidable (Registers m l.pc))
  | .registerThread | .unregisterThread | .exit _ | .tryReclaim | .read _ => .isTrue trivial

instance [Fintype Loc] [DecidableEq Node] (s : State Tid Loc Node × History Tid Node)
    (a : Act Tid (Label Loc Node)) (s' : State Tid Loc Node × History Tid Node) :
    Decidable (contract s a s') :=
  match a with
  | .step t label => inferInstanceAs (Decidable
      (Permitted s.1.mem s.2 (s.1.thread t) label ∧ s'.2.advances + 2 < 2 ^ 64))
  | .sleep _ | .ret _ | .wake .. | .requeue .. =>
      inferInstanceAs (Decidable (True ∧ s'.2.advances + 2 < 2 ^ 64))

/-! ### Slots -/

/-- The slot on which the call relies that the thread is in, if there is one. -/
def Pc.registration : Pc Node → Option (Option Slot)
  | .register _ => some none
  | .unregisterEpoch i | .unregisterUse i | .enterLoad i | .enterStore i _ => some (some i)
  | .exit g => some (some g.slot)
  | _ => none

/-- The guard whose `exit` has begun, before its store. -/
def Pc.exiting : Pc Node → List Guard
  | .exit g => [g]
  | _ => []

/-- The guards under which the thread reads. -/
def Local.held (l : Local Node) : List Guard := l.guards ++ l.pc.exiting

/-- A thread uses the slot it has registered, with one guard at a time. -/
structure Orderly (l : Local Node) : Prop where
  one : l.guards.length ≤ 1
  slots : ∀ g ∈ l.guards, l.slot = some g.slot
  registration : ∀ o, l.pc.registration = some o → l.slot = o ∧ l.guards = []

theorem Orderly.held (h : Orderly l) (hg : g ∈ l.held) : l.slot = some g.slot := by
  rcases List.mem_append.mp hg with hg | hg
  · exact h.slots g hg
  · refine (h.registration _ ?_).1
    generalize l.pc = pc at hg
    cases pc with
    | exit g' =>
        rw [List.mem_singleton.mp hg]
        rfl
    | _ => cases hg

theorem Orderly.go (h : Orderly l)
    (hpc : ∀ o, pc'.registration = some o → l.slot = o ∧ l.guards = []) : Orderly (l.go pc') :=
  ⟨h.one, h.slots, hpc⟩

/-- What a step of the code can do to the slots and to the guards of the thread. -/
inductive SlotStep (m : Mem Loc Node) (l : Local Node) : Mem Loc Node → Local Node → Prop
  | register (i : Slot) (hpc : l.pc = .register i) (hfree : (m.threads i).inUse = false) :
      SlotStep m l (m.setInUse i true) { l with slot := some i, pc := .idle }
  | withdraw (i : Slot) (hpc : l.pc = .unregisterEpoch i) :
      SlotStep m l (m.setActive i kInactiveEpoch) (l.go (.unregisterUse i))
  | unregister (i : Slot) (hpc : l.pc = .unregisterUse i) :
      SlotStep m l (m.setInUse i false) { l with slot := none, pc := .idle }
  | enter (i : Slot) (e : U64) (hpc : l.pc = .enterStore i e) :
      SlotStep m l (m.setActive i e) { l with guards := ⟨i, e⟩ :: l.guards, pc := .idle }
  | exit (g : Guard) (hpc : l.pc = .exit g) :
      SlotStep m l (m.setActive g.slot kInactiveEpoch) (l.go .idle)
  | other {m' : Mem Loc Node} {pc' : Pc Node} (hthreads : m'.threads = m.threads)
      (hexiting : pc'.exiting = [])
      (hregistration : ∀ o, pc'.registration = some o → l.pc.registration = some o) :
      SlotStep m l m' (l.go pc')

theorem slotStep_of_run (hregisters : Registers m l.pc) (hrun : run m l = some (m', l')) :
    SlotStep m l m' l' := by
  have hstep := runStep_of_run hrun
  generalize hpc : l.pc = pc at hstep hregisters
  have hplain : ∀ {m' : Mem Loc Node} {pc' : Pc Node}, m'.threads = m.threads → pc'.exiting = [] →
      (∀ o, pc'.registration = some o → pc.registration = some o) → SlotStep m l m' (l.go pc') :=
    fun hthreads hexiting hregistration =>
      .other hthreads hexiting fun o ho => by rw [hpc]; exact hregistration o ho
  cases hstep with
  | registerFree hfree => exact .register _ hpc hfree
  | registerNext hi => exact hplain rfl rfl fun o => id
  | registerLast hused hi =>
      rcases hregisters with h | h
      · exact absurd h hi
      · rw [h] at hused
        cases hused
  | unregisterEpoch => exact .withdraw _ hpc
  | unregisterUse => exact .unregister _ hpc
  | enterLoad => exact hplain rfl rfl fun o => id
  | enterStore => exact .enter _ _ hpc
  | exit => exact .exit _ hpc
  | scanUnused | scanEpoch =>
      refine hplain rfl ?_ ?_ <;> unfold scanNext <;> split_ifs <;> first | rfl | nofun
  | _ => exact hplain rfl rfl nofun

namespace SlotStep

theorem orderly (h : SlotStep m l m' l') (ho : Orderly l) : Orderly l' := by
  cases h with
  | register i hpc hfree =>
      obtain ⟨-, hguards⟩ := ho.registration none (by rw [hpc]; rfl)
      exact ⟨ho.one, fun g hg => absurd hg (by simp [hguards]), nofun⟩
  | withdraw i hpc => exact ho.go fun o hi => ho.registration o (by rw [hpc]; exact hi)
  | unregister i hpc =>
      obtain ⟨-, hguards⟩ := ho.registration (some i) (by rw [hpc]; rfl)
      exact ⟨ho.one, fun g hg => absurd hg (by simp [hguards]), nofun⟩
  | enter i e hpc =>
      obtain ⟨hslot, hguards⟩ := ho.registration (some i) (by rw [hpc]; rfl)
      refine ⟨by simp [hguards], fun g hg => ?_, nofun⟩
      rw [hguards] at hg
      rw [List.mem_singleton.mp hg]
      exact hslot
  | exit g hpc => exact ho.go nofun
  | other hthreads hexiting hregistration => exact ho.go fun o hi => ho.registration o (hregistration o hi)

/-- A step takes only a slot that is not in use. -/
theorem slot (h : SlotStep m l m' l') (hi : l'.slot = some i) :
    l.slot = some i ∨ (m.threads i).inUse = false := by
  cases h with
  | register j hpc hfree =>
      cases hi
      exact Or.inr hfree
  | unregister j hpc => cases hi
  | _ => exact Or.inl hi

/-- A step leaves the announcements of the slots of other threads. -/
theorem frame (h : SlotStep m l m' l') (ho : Orderly l) (hj : l.slot ≠ some j) :
    (m'.threads j).activeEpoch = (m.threads j).activeEpoch ∧
      ((m.threads j).inUse = true → (m'.threads j).inUse = true) := by
  have hown : ∀ {i}, l.pc.registration = some (some i) → j ≠ i := by
    rintro i hi rfl
    exact hj (ho.registration _ hi).1
  cases h with
  | register i hpc hfree =>
      rw [Mem.setInUse_threads]
      split_ifs
      · exact ⟨rfl, fun _ => rfl⟩
      · exact ⟨rfl, id⟩
  | withdraw i hpc =>
      rw [Mem.setActive_threads, if_neg (hown (by rw [hpc]; rfl))]
      exact ⟨rfl, id⟩
  | unregister i hpc =>
      rw [Mem.setInUse_threads, if_neg (hown (by rw [hpc]; rfl))]
      exact ⟨rfl, id⟩
  | enter i e hpc =>
      rw [Mem.setActive_threads, if_neg (hown (by rw [hpc]; rfl))]
      exact ⟨rfl, id⟩
  | exit g hpc =>
      rw [Mem.setActive_threads, if_neg (hown (by rw [hpc]; rfl))]
      exact ⟨rfl, id⟩
  | other hthreads hexiting hregistration =>
      rw [hthreads]
      exact ⟨rfl, id⟩

/-- The slot of the thread is in use. -/
theorem inUse (h : SlotStep m l m' l') (hold : ∀ i, l.slot = some i → (m.threads i).inUse = true)
    (hi : l'.slot = some i) : (m'.threads i).inUse = true := by
  cases h with
  | register j hpc hfree =>
      cases hi
      rw [Mem.setInUse_threads, if_pos rfl]
  | unregister j hpc => cases hi
  | other hthreads hexiting hregistration =>
      rw [hthreads]
      exact hold i hi
  | _ =>
      rw [Mem.setActive_threads]
      split_ifs <;> exact hold i hi

/-- A step builds a guard only at the store of `enter`. -/
theorem held (h : SlotStep m l m' l') (hg : g ∈ l'.held) :
    g ∈ l.held ∨ l.pc = .enterStore g.slot g.epoch := by
  cases h with
  | enter i e hpc =>
      rcases List.mem_cons.mp (List.mem_append.mp hg |>.resolve_right nofun) with rfl | hg
      · exact Or.inr hpc
      · exact Or.inl (List.mem_append_left _ hg)
  | other hthreads hexiting hregistration =>
      refine Or.inl (List.mem_append_left _ ?_)
      rcases List.mem_append.mp hg with hg | hg
      · exact hg
      · rw [show (l.go _).pc.exiting = _ from hexiting] at hg
        cases hg
  | _ => exact Or.inl (List.mem_append_left _ (List.mem_append.mp hg |>.resolve_right nofun))

/-- The slot announces the epochs of the guards of the thread. -/
theorem active (h : SlotStep m l m' l') (ho : Orderly l)
    (hold : ∀ g ∈ l.held, (m.threads g.slot).activeEpoch = g.epoch) (hg : g ∈ l'.held) :
    (m'.threads g.slot).activeEpoch = g.epoch := by
  have hnone : ∀ {o}, l.pc.registration = some o → l.guards = [] :=
    fun hpc => (ho.registration _ hpc).2
  cases h with
  | register i hpc hfree | unregister i hpc =>
      simp [Local.held, Pc.exiting, hnone (by rw [hpc]; rfl)] at hg
  | withdraw i hpc | exit g hpc =>
      simp [Local.held, Local.go, Pc.exiting, hnone (by rw [hpc]; rfl)] at hg
  | enter i e hpc =>
      simp only [Local.held, Pc.exiting, hnone (by rw [hpc]; rfl), List.append_nil,
        List.mem_singleton] at hg
      subst hg
      rw [Mem.setActive_threads, if_pos rfl]
  | other hthreads hexiting hregistration =>
      rw [hthreads]
      refine hold g (List.mem_append_left _ ?_)
      rcases List.mem_append.mp hg with hg | hg
      · exact hg
      · rw [show (l.go _).pc.exiting = _ from hexiting] at hg
        cases hg

end SlotStep

/-- A call that begins keeps the slot, and holds no new guard. -/
theorem CallStep.held (h : CallStep m l label m' l') :
    l'.slot = l.slot ∧ ∀ g ∈ l'.held, g ∈ l.held := by
  cases h with
  | exit hg =>
      refine ⟨rfl, fun g' hg' => List.mem_append_left _ ?_⟩
      rcases List.mem_append.mp hg' with hg' | hg'
      · exact List.mem_of_mem_eraseIdx hg'
      · rw [List.mem_singleton.mp hg']
        exact List.mem_of_getElem? hg
  | read | write => exact ⟨rfl, fun _ => id⟩
  | _ =>
      refine ⟨rfl, fun g hg => List.mem_append_left _ ?_⟩
      exact List.mem_append.mp hg |>.resolve_right nofun

theorem Orderly.call (h : Orderly l) (hcall : CallStep m l label m' l')
    (henter : label = .enter → l.guards = []) : Orderly l' := by
  cases hcall with
  | registerThread hslot =>
      refine h.go fun o ho => ?_
      cases ho
      refine ⟨hslot, List.eq_nil_iff_forall_not_mem.mpr fun g hg => ?_⟩
      have := h.slots g hg
      rw [hslot] at this
      cases this
  | unregisterThread hguards hslot =>
      refine h.go fun o ho => ?_
      cases ho
      exact ⟨hslot, hguards⟩
  | enter hslot =>
      refine h.go fun o ho => ?_
      cases ho
      exact ⟨hslot, henter rfl⟩
  | @exit n g hg =>
      obtain ⟨hlt, rfl⟩ := List.getElem?_eq_some_iff.mp hg
      have hlength := List.length_eraseIdx_of_lt hlt
      have hone := h.one
      have hnil : l.guards.eraseIdx n = [] := List.eq_nil_of_length_eq_zero (by omega)
      refine ⟨by rw [hnil]; exact Nat.zero_le 1, fun g hg => ?_, fun o ho => ?_⟩
      · exact h.slots g (List.mem_of_mem_eraseIdx hg)
      · cases ho
        exact ⟨h.slots _ (List.getElem_mem hlt), hnil⟩
  | read | write => exact h
  | retire | tryReclaim => exact h.go nofun

/-- Slots belong to single threads, are in use, and announce the epochs of their guards. -/
structure Slots (m : Mem Loc Node) (f : Tid → Local Node) : Prop where
  orderly : ∀ t, Orderly (f t)
  distinct : ∀ t u i, (f t).slot = some i → (f u).slot = some i → t = u
  inUse : ∀ t i, (f t).slot = some i → (m.threads i).inUse = true
  active : ∀ t, ∀ g ∈ (f t).held, (m.threads g.slot).activeEpoch = g.epoch

theorem Slots.run (h : Slots m f) (hregisters : Registers m (f t).pc)
    (hrun : EpochManager.run m (f t) = some (m', l')) : Slots m' (Function.update f t l') := by
  have hstep := slotStep_of_run hregisters hrun
  have ho := h.orderly t
  have hother : ∀ u i, u ≠ t → (f u).slot = some i → (f t).slot ≠ some i :=
    fun u i hut hu ht => hut (h.distinct u t i hu ht)
  have hnew : ∀ u i, u ≠ t → (f u).slot = some i → l'.slot ≠ some i := by
    intro u i hut hu hi
    rcases hstep.slot hi with ht | hfree
    · exact hother u i hut hu ht
    · rw [h.inUse u i hu] at hfree
      cases hfree
  refine ⟨fun u => ?_, fun u v i hu hv => ?_, fun u i hu => ?_, fun u g hg => ?_⟩
  · rw [Function.update_apply]
    split_ifs
    · exact hstep.orderly ho
    · exact h.orderly u
  · rw [Function.update_apply] at hu hv
    split_ifs at hu hv with hut hvt hvt
    · rw [hut, hvt]
    · exact absurd hu (hnew v i hvt hv)
    · exact absurd hv (hnew u i hut hu)
    · exact h.distinct u v i hu hv
  · rw [Function.update_apply] at hu
    split_ifs at hu with hut
    · exact hstep.inUse (h.inUse t) hu
    · exact (hstep.frame ho (hother u i hut hu)).2 (h.inUse u i hu)
  · rw [Function.update_apply] at hg
    split_ifs at hg with hut
    · exact hstep.active ho (h.active t) hg
    · rw [(hstep.frame ho (hother u _ hut ((h.orderly u).held hg))).1]
      exact h.active u g hg

theorem Slots.call (h : Slots m f) (hcall : CallStep m (f t) label m' l')
    (henter : label = .enter → (f t).guards = []) : Slots m' (Function.update f t l') := by
  obtain ⟨hthreads, -, -⟩ := hcall.frame
  obtain ⟨hslot, hheld⟩ := hcall.held
  have hsame : ∀ u, (Function.update f t l' u).slot = (f u).slot :=
    apply_update_same (g := Local.slot) hslot
  refine ⟨fun u => ?_, fun u v i hu hv => ?_, fun u i hu => ?_, fun u g hg => ?_⟩
  · rw [Function.update_apply]
    split_ifs
    · exact (h.orderly t).call hcall henter
    · exact h.orderly u
  · rw [hsame] at hu hv
    exact h.distinct u v i hu hv
  · rw [hsame] at hu
    rw [hthreads]
    exact h.inUse u i hu
  · rw [hthreads]
    rw [Function.update_apply] at hg
    split_ifs at hg
    · exact h.active t g (hheld g hg)
    · exact h.active u g hg

/-- A guard under which a thread reads is announced up to any later epoch. -/
theorem Slots.announced {e : U64} (h : Slots m f) (hg : g ∈ (f t).held)
    (hactive : g.epoch ≠ kInactiveEpoch) (he : g.epoch ≤ e) : Announced m ⟨g.slot, e⟩ where
  inUse := h.inUse t g.slot ((h.orderly t).held hg)
  active := (h.active t g hg).symm ▸ hactive
  oldest := (h.active t g hg).symm ▸ he

/-! ### Epochs -/

/-- The epoch that the code has computed at `pc`. -/
def Pc.epoch : Pc Node → Option U64
  | .enterStore _ e => some e
  | .scanUse _ minEpoch _ | .scanEpoch _ minEpoch _ => some minEpoch
  | .advance minEpoch | .reclaimLock minEpoch | .reclaimHead minEpoch => some minEpoch
  | .sweep minEpoch _ _ | .delete minEpoch _ _ _ => some minEpoch
  | _ => none

theorem scanNext_epoch (current minEpoch : U64) (i : Slot) :
    (scanNext current minEpoch i : Pc Node).epoch = some minEpoch := by
  unfold scanNext
  split_ifs <;> rfl

theorem epoch_of_scanned {pc : Pc Node} {e : U64} (h : pc.scanned i = some e) :
    pc.epoch = some e := by
  cases pc with
  | scanUse current minEpoch j | scanEpoch current minEpoch j =>
      simp only [Pc.scanned, Option.ite_none_right_eq_some] at h
      exact h.2
  | advance | reclaimLock | reclaimHead | sweep | delete => exact h
  | _ => cases h

/-- A step computes only epochs up to the global one, or up to one it has computed before. -/
theorem epoch_of_run {e : U64} (hrun : run m l = some (m', l')) (he : l'.pc.epoch = some e) :
    e ≤ m.globalEpoch ∨ ∃ e', l.pc.epoch = some e' ∧ e ≤ e' := by
  have hstep := runStep_of_run hrun
  generalize l.pc = pc at hstep
  have hsame : pc.epoch = some e → e ≤ m.globalEpoch ∨ ∃ e', pc.epoch = some e' ∧ e ≤ e' :=
    fun heq => Or.inr ⟨e, heq, BitVec.le_refl _⟩
  cases hstep with
  | enterLoad | reclaimLoad =>
      cases he
      exact Or.inl (BitVec.le_refl _)
  | scanUnused hfree => exact hsame ((scanNext_epoch ..).symm.trans he)
  | scanEpoch =>
      have heq := (scanNext_epoch ..).symm.trans he
      cases heq
      exact Or.inr ⟨_, rfl, lowered_le _ _⟩
  | scanUsed | advance | reclaimLock | reclaimHead | unlink | keep | delete => exact hsame he
  | _ => cases he

/-- No epoch of a thread is ahead of the global one. -/
structure Known (global : U64) (l : Local Node) : Prop where
  held : ∀ g ∈ l.held, g.epoch ≤ global
  computed : ∀ e, l.pc.epoch = some e → e ≤ global

theorem Known.mono {e e' : U64} (h : Known e l) (hle : e ≤ e') : Known e' l where
  held g hg := BitVec.le_trans (h.held g hg) hle
  computed e he := BitVec.le_trans (h.computed e he) hle

theorem Known.run (h : Known m.globalEpoch l) (hregisters : Registers m l.pc)
    (hrun : EpochManager.run m l = some (m', l')) : Known m.globalEpoch l' where
  held g hg := by
    rcases (slotStep_of_run hregisters hrun).held hg with hg | hpc
    · exact h.held g hg
    · exact h.computed _ (by rw [hpc]; rfl)
  computed e he := by
    rcases epoch_of_run hrun he with hle | ⟨e', he', hle⟩
    · exact hle
    · exact BitVec.le_trans hle (h.computed e' he')

theorem Known.call {global : U64} (h : Known global l) (hcall : CallStep m l label m' l') :
    Known global l' where
  held g hg := h.held g ((hcall.held).2 g hg)
  computed e he := by
    cases hcall with
    | read | write => exact h.computed e he
    | _ => cases he

/-- The global epoch counts its advances from 1. -/
def Counts (m : Mem Loc Node) (h : History Tid Node) : Prop :=
  m.globalEpoch = BitVec.ofNat 64 (1 + h.advances)

theorem Counts.le {h h' : History Tid Node} (hc : Counts m h) (hc' : Counts m' h')
    (hle : h.advances ≤ h'.advances) (hbound : h'.advances + 1 < 2 ^ 64) :
    m.globalEpoch ≤ m'.globalEpoch := by
  rw [hc, hc', BitVec.le_def, BitVec.toNat_ofNat, BitVec.toNat_ofNat, Nat.mod_eq_of_lt (by omega),
    Nat.mod_eq_of_lt (by omega)]
  omega

theorem Counts.ne_inactive {h : History Tid Node} (hc : Counts m h)
    (hbound : h.advances + 2 < 2 ^ 64) {e : U64} (he : e ≤ m.globalEpoch) : e ≠ kInactiveEpoch := by
  rintro rfl
  rw [hc, BitVec.le_def, BitVec.toNat_ofNat, Nat.mod_eq_of_lt (by omega), kInactiveEpoch,
    BitVec.toNat_allOnes] at he
  omega

theorem Counts.run {h : History Tid Node} (hc : Counts m h)
    (hrun : EpochManager.run m l = some (m', l')) :
    Counts m' (h.step t (.run : Label Loc Node) m l.pc) := by
  have hstep := runStep_of_run hrun
  generalize l.pc = pc at hstep ⊢
  cases hstep with
  | advance =>
      change m.globalEpoch + 1 = BitVec.ofNat 64 (1 + (h.advances + 1))
      rw [hc, ← Nat.add_assoc]
      exact (BitVec.ofNat_add _ 1).symm
  | _ => exact hc

theorem Counts.call {h : History Tid Node} (hc : Counts m h) (hcall : CallStep m l label m' l') :
    Counts m' (h.step t label m l.pc) := by
  cases hcall <;> exact hc

theorem History.advances_le (h : History Tid Node) (t : Tid) (label : Label Loc Node)
    (m : Mem Loc Node) (pc : Pc Node) : h.advances ≤ (h.step t label m pc).advances := by
  unfold History.step
  split <;> first | exact le_rfl | exact Nat.le_succ _

end Psync.EpochManager
