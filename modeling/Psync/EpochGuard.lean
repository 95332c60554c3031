import Psync.EpochModel
import Psync.RunGuard

/-! Guards and the announcements of their slots. A slot holds one epoch and no count: the exit of a
guard withdraws the announcement of every guard on its slot, and so does an unregistration. The steps
that take nothing from a guard that is alive are exactly those that keep every guard announced, and
then no `try_reclaim` that comes to the slot computes a `min_epoch` above the epoch of the guard. -/

namespace Psync.EpochManager

open Concurrency

set_option linter.unusedSectionVars false

variable {Tid Loc Node : Type*} [DecidableEq Tid] [DecidableEq Loc] {t : Tid} {m m' : Mem Loc Node}
  {f : Tid → Local Node} {l l' : Local Node} {g : Guard} {i j : Slot} {label : Label Loc Node}

/-- The slot announces the guard. -/
structure Announced (m : Mem Loc Node) (g : Guard) : Prop where
  inUse : (m.threads g.slot).inUse = true
  active : (m.threads g.slot).activeEpoch ≠ kInactiveEpoch
  oldest : (m.threads g.slot).activeEpoch ≤ g.epoch

def AllAnnounced (m : Mem Loc Node) (f : Tid → Local Node) : Prop :=
  ∀ t, ∀ g ∈ (f t).guards, Announced m g

/-- No guard on the slot is alive. -/
def Unguarded (f : Tid → Local Node) (i : Slot) : Prop := ∀ t, ∀ g ∈ (f t).guards, g.slot ≠ i

/-- The next step at `pc` takes nothing from a guard that is alive. -/
def Harmless (m : Mem Loc Node) (f : Tid → Local Node) : Pc Node → Prop
  | .exit g => Unguarded f g.slot
  | .unregisterEpoch i | .unregisterUse i => Unguarded f i
  | .enterStore i e => (m.threads i).inUse = true ∧ e ≠ kInactiveEpoch ∧
      ∀ t, ∀ g ∈ (f t).guards, g.slot = i → e ≤ g.epoch
  | _ => True

def harmless : StepCond (State Tid Loc Node) (Act Tid (Label Loc Node)) := fun s a _ =>
  match a with
  | .step t .run => Harmless s.mem s.thread (s.thread t).pc
  | _ => True

instance [Fintype Tid] (f : Tid → Local Node) (i : Slot) : Decidable (Unguarded f i) :=
  inferInstanceAs (Decidable (∀ t, ∀ g ∈ (f t).guards, _))

instance [Fintype Tid] (m : Mem Loc Node) (f : Tid → Local Node) (pc : Pc Node) :
    Decidable (Harmless m f pc) :=
  match pc with
  | .exit g => inferInstanceAs (Decidable (Unguarded f g.slot))
  | .unregisterEpoch i | .unregisterUse i => inferInstanceAs (Decidable (Unguarded f i))
  | .enterStore _ _ => inferInstanceAs (Decidable (_ ∧ _ ∧ ∀ t, ∀ g ∈ (f t).guards, _))
  | .idle | .register _ | .enterLoad _ | .retireLoad _ | .retireLock _ | .retireHead _
  | .retireStore .. | .retireUnlock | .reclaimLoad | .scanUse .. | .scanEpoch .. | .advance _
  | .reclaimLock _ | .reclaimHead _ | .sweep .. | .delete .. => .isTrue trivial

instance [Fintype Tid] (s : State Tid Loc Node) (a : Act Tid (Label Loc Node))
    (s' : State Tid Loc Node) : Decidable (harmless s a s') :=
  match a with
  | .step t .run => inferInstanceAs (Decidable (Harmless s.mem s.thread (s.thread t).pc))
  | .step _ .registerThread | .step _ .unregisterThread | .step _ .enter | .step _ (.exit _)
  | .step _ (.retire _) | .step _ .tryReclaim | .step _ (.read _) | .step _ (.write ..)
  | .sleep _ | .ret _ | .wake .. | .requeue .. => .isTrue trivial

/-! ### Announcements -/

theorem Announced.congr (h : Announced m g) (heq : m'.threads g.slot = m.threads g.slot) :
    Announced m' g where
  inUse := by rw [heq]; exact h.inUse
  active := by rw [heq]; exact h.active
  oldest := by rw [heq]; exact h.oldest

/-- A step that leaves the slots and brings no guard. -/
theorem AllAnnounced.move (h : AllAnnounced m f) (hthreads : m'.threads = m.threads)
    (hguards : ∀ g ∈ l'.guards, g ∈ (f t).guards) : AllAnnounced m' (Function.update f t l') := by
  intro u g hg
  rw [Function.update_apply] at hg
  split_ifs at hg
  · exact (h t g (hguards g hg)).congr (by rw [hthreads])
  · exact (h u g hg).congr (by rw [hthreads])

/-- A step that withdraws whatever slot `i` announces. -/
theorem AllAnnounced.withdraw (h : AllAnnounced m f) (hguards : l'.guards = (f t).guards)
    (hothers : ∀ j, j ≠ i → m'.threads j = m.threads j)
    (hwithdrawn : ∀ g, g.slot = i → ¬ Announced m' g) :
    AllAnnounced m' (Function.update f t l') ↔ Unguarded f i := by
  have hsame : ∀ u, (Function.update f t l' u).guards = (f u).guards :=
    apply_update_same (g := Local.guards) hguards
  constructor
  · intro hall u g hg hslot
    rw [← hsame u] at hg
    exact hwithdrawn g hslot (hall u g hg)
  · intro hfree u g hg
    rw [hsame u] at hg
    exact (h u g hg).congr (hothers _ (hfree u g hg))

/-- A step that announces epoch `e` on slot `i` for a new guard. -/
theorem AllAnnounced.announce {e : U64} (h : AllAnnounced m f)
    (hguards : l'.guards = ⟨i, e⟩ :: (f t).guards) :
    AllAnnounced (m.setActive i e) (Function.update f t l') ↔ (m.threads i).inUse = true ∧
      e ≠ kInactiveEpoch ∧ ∀ t, ∀ g ∈ (f t).guards, g.slot = i → e ≤ g.epoch := by
  have hself : (m.setActive i e).threads i = { m.threads i with activeEpoch := e } := by
    rw [Mem.setActive_threads, if_pos rfl]
  have hnew : (⟨i, e⟩ : Guard) ∈ (Function.update f t l' t).guards := by
    rw [Function.update_self, hguards]
    exact List.mem_cons_self
  have hold : ∀ u, ∀ g ∈ (f u).guards, g ∈ (Function.update f t l' u).guards := by
    intro u g hg
    rw [Function.update_apply]
    split_ifs with hut
    · rw [hguards, ← hut]
      exact List.mem_cons_of_mem _ hg
    · exact hg
  constructor
  · intro hall
    have hguard := hall t _ hnew
    refine ⟨by simpa [hself] using hguard.inUse, by simpa [hself] using hguard.active, ?_⟩
    intro u g hg hslot
    have := (hall u g (hold u g hg)).oldest
    rw [hslot, hself] at this
    exact this
  · rintro ⟨hinUse, hactive, holdest⟩ u g hg
    have hcases : g = ⟨i, e⟩ ∨ g ∈ (f u).guards := by
      rw [Function.update_apply] at hg
      split_ifs at hg with hut
      · rw [hguards, ← hut] at hg
        exact List.mem_cons.mp hg
      · exact Or.inr hg
    by_cases hslot : g.slot = i
    · have hle : e ≤ g.epoch := by
        rcases hcases with rfl | hg
        · exact BitVec.le_refl _
        · exact holdest u g hg hslot
      constructor
      · rw [hslot, hself]; exact hinUse
      · rw [hslot, hself]; exact hactive
      · rw [hslot, hself]; exact hle
    · rcases hcases with rfl | hg
      · exact absurd rfl hslot
      · exact (h u g hg).congr (by rw [Mem.setActive_threads, if_neg hslot])

theorem Announced.register (h : Announced m g) : Announced (m.setInUse i true) g := by
  by_cases hslot : g.slot = i
  · constructor
    · rw [Mem.setInUse_threads, if_pos hslot]
    · rw [Mem.setInUse_threads, if_pos hslot]; exact h.active
    · rw [Mem.setInUse_threads, if_pos hslot]; exact h.oldest
  · exact h.congr (by rw [Mem.setInUse_threads, if_neg hslot])

theorem not_announced_of_inactive (hslot : g.slot = i) :
    ¬ Announced (m.setActive i kInactiveEpoch) g := by
  intro h
  apply h.active
  rw [Mem.setActive_threads, if_pos hslot]

theorem not_announced_of_unused (hslot : g.slot = i) : ¬ Announced (m.setInUse i false) g := by
  intro h
  have := h.inUse
  rw [Mem.setInUse_threads, if_pos hslot] at this
  cases this

/-- The harmless steps are exactly those that keep every guard announced. -/
theorem AllAnnounced.run_iff (h : AllAnnounced m f) (hrun : run m (f t) = some (m', l')) :
    AllAnnounced m' (Function.update f t l') ↔ Harmless m f (f t).pc := by
  have hstep := runStep_of_run hrun
  generalize (f t).pc = pc at hstep
  have hplain : m'.threads = m.threads → l'.guards = (f t).guards →
      AllAnnounced m' (Function.update f t l') := by
    intro hthreads hguards
    exact h.move hthreads fun g hg => hguards ▸ hg
  cases hstep with
  | @registerFree i hfree =>
      refine iff_of_true ?_ trivial
      have hsame : ∀ u, (Function.update f t ⟨some i, (f t).guards, .idle⟩ u).guards = (f u).guards :=
        apply_update_same (g := Local.guards) rfl
      intro u g hg
      rw [hsame u] at hg
      exact (h u g hg).register
  | unregisterEpoch | exit =>
      exact h.withdraw rfl (fun j hj => by rw [Mem.setActive_threads, if_neg hj])
        fun g => not_announced_of_inactive
  | unregisterUse =>
      exact h.withdraw rfl (fun j hj => by rw [Mem.setInUse_threads, if_neg hj])
        fun g => not_announced_of_unused
  | enterStore => exact h.announce rfl
  | _ => exact iff_of_true (hplain rfl rfl) trivial

/-! ### Scans -/

/-- A `try_reclaim` that has scanned the slot of the guard has a `min_epoch` up to its epoch. -/
def Lowered (g : Guard) (pc : Pc Node) : Prop :=
  ∀ minEpoch, pc.scanned g.slot = some minEpoch → minEpoch ≤ g.epoch

theorem lowered_le (minEpoch e : U64) : lowered minEpoch e ≤ minEpoch := by
  unfold lowered
  split_ifs with h
  · exact BitVec.le_of_lt h.2
  · exact BitVec.le_refl _

theorem lowered_le_active {e : U64} (minEpoch : U64) (he : e ≠ kInactiveEpoch) :
    lowered minEpoch e ≤ e := by
  unfold lowered
  split_ifs with h
  · exact BitVec.le_refl _
  · exact BitVec.not_lt.mp fun hlt => h ⟨he, hlt⟩

theorem scanned_scanNext {current minEpoch e : U64}
    (h : (scanNext current minEpoch j : Pc Node).scanned i = some e) : e = minEpoch ∧ i ≤ j := by
  unfold scanNext at h
  split_ifs at h with hj
  · simp only [Pc.scanned, Option.ite_none_right_eq_some, Option.some.injEq] at h
    exact ⟨h.2.symm, Fin.le_def.mpr (Nat.le_of_lt_succ (Fin.lt_def.mp h.1))⟩
  all_goals
    cases h
    refine ⟨rfl, Fin.le_def.mpr ?_⟩
    have := i.isLt
    omega

/-- Slot `j` has been scanned, and `minEpoch` was lowered to it. -/
theorem Lowered.next {current minEpoch minEpoch' : U64}
    (h : ∀ e, (if g.slot < j then some minEpoch else none) = some e → e ≤ g.epoch)
    (hmin : minEpoch' ≤ minEpoch) (hslot : g.slot = j → minEpoch' ≤ g.epoch) :
    Lowered g (scanNext current minEpoch' j : Pc Node) := by
  intro e he
  obtain ⟨rfl, hle⟩ := scanned_scanNext he
  by_cases heq : g.slot = j
  · exact hslot heq
  · exact BitVec.le_trans hmin (h _ (if_pos (lt_of_le_of_ne hle heq)))

theorem Lowered.run (h : Lowered g l.pc) (hannounced : Announced m g)
    (hrun : EpochManager.run m l = some (m', l')) : Lowered g l'.pc := by
  have hstep := runStep_of_run hrun
  generalize l.pc = pc at h hstep
  cases hstep with
  | reclaimLoad =>
      intro e he
      simp [Local.go, Pc.scanned] at he
  | scanUnused hfree =>
      refine Lowered.next h (BitVec.le_refl _) ?_
      rintro rfl
      rw [hannounced.inUse] at hfree
      cases hfree
  | scanEpoch =>
      refine Lowered.next h (lowered_le _ _) ?_
      rintro rfl
      exact BitVec.le_trans (lowered_le_active _ hannounced.active) hannounced.oldest
  | scanUsed | advance | reclaimLock | reclaimHead | unlink | keep | delete => exact h
  | _ => nofun

/-- A call that begins leaves the slots, ends at most the lifetime of one guard, and has scanned
nothing. -/
theorem CallStep.frame (h : CallStep m l label m' l') :
    m'.threads = m.threads ∧ (∀ g ∈ l'.guards, g ∈ l.guards) ∧
      (l'.pc = l.pc ∨ ∀ i, l'.pc.scanned i = none) := by
  cases h with
  | exit hg => exact ⟨rfl, fun _ => List.mem_of_mem_eraseIdx, Or.inr fun _ => rfl⟩
  | read | write => exact ⟨rfl, fun _ => id, Or.inl rfl⟩
  | _ => exact ⟨rfl, fun _ => id, Or.inr fun _ => rfl⟩

/-! ### Runs -/

variable [Fintype Tid] {s s' : State Tid Loc Node} {a : Act Tid (Label Loc Node)}

theorem state_next (h : (program Tid Loc Node).machine.next s a = some s') :
    ∃ t label m l, a = .step t label ∧ step label s.mem (s.thread t) = some (m, l) ∧
      s' = s.move t m l :=
  Program.step_of_next _ (fun _ => rfl) (fun _ => rfl) (fun _ => rfl) h

theorem announced_next_iff (h : AllAnnounced s.mem s.thread)
    (hnext : (program Tid Loc Node).machine.next s a = some s') :
    AllAnnounced s'.mem s'.thread ↔ harmless s a s' := by
  obtain ⟨t, label, m, l, rfl, hstep, rfl⟩ := state_next hnext
  rcases step_cases hstep with ⟨rfl, hrun⟩ | ⟨hidle, hcall⟩
  · exact h.run_iff hrun
  · obtain ⟨hthreads, hguards, -⟩ := hcall.frame
    refine iff_of_true (h.move hthreads hguards) ?_
    cases hcall <;> trivial

theorem lowered_next {u : Tid} (h : Lowered g (s.thread u).pc) (hannounced : Announced s.mem g)
    (hnext : (program Tid Loc Node).machine.next s a = some s') : Lowered g (s'.thread u).pc := by
  obtain ⟨t, label, m, l, rfl, hstep, rfl⟩ := state_next hnext
  rw [Config.move_thread, Function.update_apply]
  split_ifs with hut
  · subst hut
    rcases step_cases hstep with ⟨rfl, hrun⟩ | ⟨hidle, hcall⟩
    · exact h.run hannounced hrun
    · obtain ⟨-, -, hpc | hpc⟩ := hcall.frame
      · rw [hpc]
        exact h
      · intro e he
        rw [hpc] at he
        cases he
  · exact h

/-- What the slots promise the guards that are alive. -/
structure Protected (s : State Tid Loc Node) : Prop where
  announced : AllAnnounced s.mem s.thread
  /-- While a guard is alive, every scan that comes to its slot keeps `min_epoch` down to its epoch. -/
  scans : ∀ t u g s', g ∈ (s.thread t).guards → (s.thread u).pc.scanned g.slot = none →
    (program Tid Loc Node).machine.Leads
      (fun c a c' => harmless c a c' ∧ g ∈ (c'.thread t).guards) s s' →
    Lowered g (s'.thread u).pc
  /-- The next step keeps every guard announced if and only if it is harmless. -/
  harmless_iff : ∀ a s', (program Tid Loc Node).machine.next s a = some s' →
    (AllAnnounced s'.mem s'.thread ↔ harmless s a s')

/-- While every step is harmless, the slots stay announced for every guard that is alive. -/
theorem guards_stay_announced (h : (program Tid Loc Node).machine.Reachable harmless s) :
    Protected s := by
  have hall : AllAnnounced s.mem s.thread := by
    refine h.induct (I := fun s => AllAnnounced s.mem s.thread) nofun ?_
    intro s a s' _ ih hnext hok
    exact (announced_next_iff ih hnext).mpr hok
  refine ⟨hall, fun t u g s' hg hscan hlead => ?_, fun a s' => announced_next_iff hall⟩
  refine (hlead.induct (I := fun c => g ∈ (c.thread t).guards ∧ AllAnnounced c.mem c.thread ∧
    Lowered g (c.thread u).pc) ⟨hg, hall, fun e he => ?_⟩ ?_).2.2
  · rw [hscan] at he
    cases he
  · rintro c a c' - ⟨hg, hannounced, hlow⟩ hnext ⟨hok, hg'⟩
    exact ⟨hg', (announced_next_iff hannounced hnext).mpr hok,
      lowered_next hlow (hannounced t g hg) hnext⟩

/-- Thread `a` registers and builds a guard, and thread `b` begins a `try_reclaim` and scans slot 0. -/
def scanRun : List (Act Runner (Label Unit ℕ)) :=
  [.step .a .registerThread, .step .a .run, .step .a .enter, .step .a .run, .step .a .run,
    .step .b .tryReclaim, .step .b .run, .step .b .run, .step .b .run]

theorem guards_stay_announced_scanned : ∃ s : State Runner Unit ℕ,
    (s.thread .a).guards = [⟨0, 1⟩] ∧ (s.thread .b).pc.scanned 0 = some 1 ∧ Protected s :=
  let M := (program Runner Unit ℕ).machine
  ⟨(M.run harmless M.init scanRun).get (by decide), by decide, by decide,
    guards_stay_announced (.of_run _ _)⟩

/-- Thread `a` nests a guard in another one and ends the inner one. -/
def nestedRun : List (Act Runner (Label Unit ℕ)) :=
  [.step .a .registerThread, .step .a .run, .step .a .enter, .step .a .run, .step .a .run,
    .step .a .enter, .step .a .run, .step .a .run, .step .a (.exit 0), .step .a .run]

/-- The outer guard is alive, and its slot announces nothing. -/
theorem nested_exit_withdraws : ∃ s : State Runner Unit ℕ,
    (program Runner Unit ℕ).machine.Reachable anyStep s ∧
      (s.thread .a).guards = [⟨0, 1⟩] ∧ ¬ AllAnnounced s.mem s.thread := by
  let M := (program Runner Unit ℕ).machine
  refine ⟨(M.run anyStep M.init nestedRun).get (by decide), .of_run _ _, by decide, fun hall => ?_⟩
  exact (hall .a ⟨0, 1⟩ (by decide)).active (by decide)

end Psync.EpochManager
