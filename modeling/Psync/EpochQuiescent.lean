import Psync.EpochLedger
import Psync.RunSimulation

/-! Two calls of `try_reclaim` free everything. No node has an epoch ahead of the global one, and a
slot announces an epoch only under a guard. Between calls and without guards a `try_reclaim` therefore
sweeps at the global epoch, which it advances, and the next one sweeps beyond every node. -/

namespace Psync.EpochManager

open Concurrency

set_option linter.unusedSectionVars false

variable {Tid Loc Node : Type*} [DecidableEq Tid] [DecidableEq Loc] {t : Tid} {m m' : Mem Loc Node}
  {f : Tid → Local Node} {h : History Tid Node} {l l' : Local Node} {i : Slot} {pc : Pc Node}
  {label : Label Loc Node} {b e : U64}

/-- The epoch advances fewer than `2 ^ 64 - 1` times. -/
def fewAdvances {σ α : Type*} : StepCond (σ × History Tid Node) α :=
  fun _ _ s' => s'.2.advances + 1 < 2 ^ 64

instance {σ α : Type*} (s : σ × History Tid Node) (a : α) (s' : σ × History Tid Node) :
    Decidable (fewAdvances s a s') := inferInstanceAs (Decidable (s'.2.advances + 1 < 2 ^ 64))

/-! ### The epochs of the nodes -/

/-- Every node has been retired at an epoch up to the global one. -/
def Dated (m : Mem Loc Node) (f : Tid → Local Node) : Prop :=
  ∀ node, Recorded m f node → node.epoch ≤ m.globalEpoch

theorem Dated.run (hd : Dated m f) (hmono : m.globalEpoch ≤ m'.globalEpoch)
    (hrun : EpochManager.run m (f t) = some (m', l')) : Dated m' (Function.update f t l') := by
  intro node hnode
  rcases recorded_of_run hrun hnode with hold | ⟨ptr, -, rfl⟩
  · exact BitVec.le_trans (hd node hold) hmono
  · exact hmono

theorem Dated.call (hd : Dated m f) (hcall : CallStep m (f t) label m' l') :
    Dated m' (Function.update f t l') := by
  obtain ⟨hglobal, hretired, hnodes, -⟩ := hcall.leaves
  intro node hnode
  rw [hglobal]
  rcases hnode with hnode | ⟨u, hnode⟩
  · rw [hretired] at hnode
    exact hd node (Or.inl hnode)
  · rw [Function.update_apply] at hnode
    split_ifs at hnode
    · exact hd node (Or.inr ⟨t, hnodes node hnode⟩)
    · exact hd node (Or.inr ⟨u, hnode⟩)

/-! ### The slots -/

/-- A slot that announces an epoch does so for a guard. -/
def Attended (m : Mem Loc Node) (f : Tid → Local Node) : Prop :=
  ∀ i, (m.threads i).activeEpoch ≠ kInactiveEpoch → ∃ t, ∃ g ∈ (f t).held, g.slot = i

/-- What slot `i` announces after a step, it announces for a guard of the thread, or it has announced
it before, and the thread still holds the guards it had on that slot. -/
theorem active_of_run (hrun : run m l = some (m', l'))
    (hi : (m'.threads i).activeEpoch ≠ kInactiveEpoch) : (∃ g ∈ l'.held, g.slot = i) ∨
      ((m.threads i).activeEpoch ≠ kInactiveEpoch ∧ ∀ g ∈ l.held, g.slot = i → g ∈ l'.held) := by
  have hstep := runStep_of_run hrun
  unfold Local.held
  generalize l.pc = pc at hstep ⊢
  have hplain : pc.exiting = [] → (m.threads i).activeEpoch ≠ kInactiveEpoch → l'.guards = l.guards →
      (m.threads i).activeEpoch ≠ kInactiveEpoch ∧
        ∀ g ∈ l.guards ++ pc.exiting, g.slot = i → g ∈ l'.guards ++ l'.pc.exiting := by
    intro hexiting hactive hguards
    refine ⟨hactive, fun g hg _ => ?_⟩
    rw [hexiting, List.append_nil] at hg
    rw [hguards]
    exact List.mem_append_left _ hg
  cases hstep with
  | registerFree | unregisterUse =>
      rw [Mem.setInUse_threads] at hi
      refine Or.inr (hplain rfl ?_ rfl)
      split_ifs at hi <;> exact hi
  | unregisterEpoch =>
      rw [Mem.setActive_threads] at hi
      split_ifs at hi with hij
      · exact absurd rfl hi
      · exact Or.inr (hplain rfl hi rfl)
  | @enterStore j e =>
      rw [Mem.setActive_threads] at hi
      split_ifs at hi with hij
      · exact Or.inl ⟨⟨j, e⟩, List.mem_append_left _ List.mem_cons_self, hij.symm⟩
      · exact Or.inr ⟨hi, fun g hg _ => List.mem_append_left _
          (List.mem_cons_of_mem _ (List.mem_append.mp hg |>.resolve_right List.not_mem_nil))⟩
  | exit =>
      rw [Mem.setActive_threads] at hi
      split_ifs at hi with hij
      · exact absurd rfl hi
      · refine Or.inr ⟨hi, fun g hg hslot => ?_⟩
        rcases List.mem_append.mp hg with hg | hg
        · exact List.mem_append_left _ hg
        · rw [List.mem_singleton.mp hg] at hslot
          exact absurd hslot.symm hij
  | _ => exact Or.inr (hplain rfl hi rfl)

theorem Attended.run (ha : Attended m f) (hrun : EpochManager.run m (f t) = some (m', l')) :
    Attended m' (Function.update f t l') := by
  intro i hi
  rcases active_of_run hrun hi with ⟨g, hg, hslot⟩ | ⟨hold, hkeep⟩
  · exact ⟨t, g, by rwa [Function.update_self], hslot⟩
  · obtain ⟨u, g, hg, hslot⟩ := ha i hold
    refine ⟨u, g, ?_, hslot⟩
    rw [Function.update_apply]
    split_ifs with hut
    · exact hkeep g (hut ▸ hg) hslot
    · exact hg

/-- A call that begins keeps the guards held. -/
theorem CallStep.holds (hcall : CallStep m l label m' l') (hidle : l.pc = .idle) :
    ∀ g ∈ l.held, g ∈ l'.held := by
  have hguards : ∀ g ∈ l.held, g ∈ l.guards := by
    intro g hg
    rw [Local.held, hidle] at hg
    exact List.mem_append.mp hg |>.resolve_right List.not_mem_nil
  intro g hg
  cases hcall with
  | @exit n g' hg' =>
      obtain ⟨k, hk⟩ := List.mem_iff_getElem?.mp (hguards g hg)
      by_cases hkn : k = n
      · rw [hkn, hg'] at hk
        exact List.mem_append_right _ (List.mem_singleton.mpr (Option.some.inj hk).symm)
      · exact List.mem_append_left _ (List.mem_eraseIdx_iff_getElem?.mpr ⟨k, hkn, hk⟩)
  | read | write => exact hg
  | _ => exact List.mem_append_left _ (hguards g hg)

theorem Attended.call (ha : Attended m f) (hidle : (f t).pc = .idle)
    (hcall : CallStep m (f t) label m' l') : Attended m' (Function.update f t l') := by
  intro i hi
  rw [hcall.frame.1] at hi
  obtain ⟨u, g, hg, hslot⟩ := ha i hi
  refine ⟨u, g, ?_, hslot⟩
  rw [Function.update_apply]
  split_ifs with hut
  · exact hcall.holds hidle g (hut ▸ hg)
  · exact hg

/-! ### Runs -/

variable [Fintype Tid] {s s' : State Tid Loc Node × History Tid Node}

/-- What holds of the epochs in every run with few advances. -/
structure Timely (m : Mem Loc Node) (f : Tid → Local Node) (h : History Tid Node) : Prop where
  bound : h.advances + 1 < 2 ^ 64
  counts : Counts m h
  dated : Dated m f
  attended : Attended m f

theorem Timely.init : Timely (.init : Mem Loc Node) (fun _ : Tid => ⟨none, [], .idle⟩) .init where
  bound := (by decide : 0 + 1 < 2 ^ 64)
  counts := rfl
  dated _ hnode := by
    rcases hnode with hnode | ⟨u, hnode⟩ <;> cases hnode
  attended _ hi := absurd rfl hi

theorem timely_of_reachable (hreach : (observed Tid Loc Node).Reachable fewAdvances s) :
    Timely s.1.mem s.1.thread s.2 := by
  refine hreach.induct (I := fun s => Timely s.1.mem s.1.thread s.2) .init ?_
  intro s a s' _ ih hnext hbound
  obtain ⟨t, label, m, l, rfl, rfl, ⟨rfl, hrun⟩ | ⟨hidle, hcall⟩⟩ := observed_cases hnext
  · have hcounts := ih.counts.run hrun (t := t)
    have hmono := ih.counts.le hcounts (s.2.advances_le t .run s.1.mem (s.1.thread t).pc) hbound
    exact ⟨hbound, hcounts, ih.dated.run hmono hrun, ih.attended.run hrun⟩
  · exact ⟨hbound, ih.counts.call hcall, ih.dated.call hcall, ih.attended.call hidle hcall⟩

theorem Timely.global_ne_zero (htimely : Timely m f h) : m.globalEpoch ≠ 0 := by
  intro hzero
  have hlt := htimely.bound
  have hnat := congrArg BitVec.toNat (htimely.counts.symm.trans hzero)
  rw [BitVec.toNat_ofNat, Nat.mod_eq_of_lt (by omega)] at hnat
  change 1 + h.advances = 0 at hnat
  omega

/-! ### One call without disturbance -/

/-- No call is in progress, and no slot in use announces an epoch. -/
structure Quiescent (m : Mem Loc Node) (f : Tid → Local Node) : Prop where
  idle : ∀ t, (f t).pc = .idle
  inactive : ∀ i, (m.threads i).inUse = true → (m.threads i).activeEpoch = kInactiveEpoch

/-- Without guards there is no reader. -/
theorem Attended.quiescent (ha : Attended m f) (hidle : ∀ t, (f t).pc = .idle)
    (hguards : ∀ t, (f t).guards = []) : Quiescent m f := by
  refine ⟨hidle, fun i _ => ?_⟩
  by_contra hactive
  obtain ⟨t, g, hg, -⟩ := ha i hactive
  rw [Local.held, hguards t, hidle t] at hg
  cases hg

/-- Where a `try_reclaim` that began at epoch `e` is, if nothing else happens. -/
def AtEpoch (e : U64) (m : Mem Loc Node) : Pc Node → Prop
  | .reclaimLoad => m.globalEpoch = e ∧ m.reclaimMu = false
  | .scanUse current minEpoch _ =>
      current = e ∧ minEpoch = e ∧ m.globalEpoch = e ∧ m.reclaimMu = false
  | .scanEpoch current minEpoch i => current = e ∧ minEpoch = e ∧ m.globalEpoch = e ∧
      m.reclaimMu = false ∧ (m.threads i).inUse = true
  | .advance minEpoch => minEpoch = e ∧ m.globalEpoch = e ∧ m.reclaimMu = false
  | .reclaimLock minEpoch => minEpoch = e ∧ m.globalEpoch = e + 1 ∧ m.reclaimMu = false
  | .reclaimHead minEpoch => minEpoch = e ∧ m.globalEpoch = e + 1
  | .sweep minEpoch kept rest | .delete minEpoch kept _ rest =>
      minEpoch = e ∧ m.globalEpoch = e + 1 ∧ m.retired = kept ++ rest ∧ ∀ node ∈ kept, e ≤ node.epoch
  | .idle => m.globalEpoch = e + 1 ∧ m.reclaimMu = false ∧ ∀ node ∈ m.retired, e ≤ node.epoch
  | _ => False

/-- A bound on the steps that a `try_reclaim` has left. -/
def remaining (m : Mem Loc Node) : Pc Node → ℕ
  | .reclaimLoad => 2 * kMaxThreads + 2 * m.retired.length + 5
  | .scanUse _ _ i => 2 * (kMaxThreads - i) + 2 * m.retired.length + 4
  | .scanEpoch _ _ i => 2 * (kMaxThreads - i) + 2 * m.retired.length + 3
  | .advance _ => 2 * m.retired.length + 4
  | .reclaimLock _ => 2 * m.retired.length + 3
  | .reclaimHead _ => 2 * m.retired.length + 2
  | .sweep _ _ rest => 2 * rest.length + 1
  | .delete _ _ _ rest => 2 * rest.length + 2
  | _ => 0

/-- A call of `try_reclaim` that began at epoch `e` without readers, when every node had an epoch up
to `b`. -/
structure Undisturbed (b e : U64) (m : Mem Loc Node) (pc : Pc Node) : Prop where
  inactive : ∀ i, (m.threads i).inUse = true → (m.threads i).activeEpoch = kInactiveEpoch
  bounded : ∀ node ∈ m.retired, node.epoch ≤ b
  position : AtEpoch e m pc

/-- Slot `i` has been scanned, and `min_epoch` is still the current epoch. -/
theorem scanNext_atEpoch (hglobal : m.globalEpoch = e) (hmu : m.reclaimMu = false) (i : Slot) :
    AtEpoch e m (scanNext e e i) ∧
      remaining m (scanNext e e i) < 2 * (kMaxThreads - i) + 2 * m.retired.length + 3 := by
  have hi := i.isLt
  unfold scanNext
  split_ifs with h heq
  · refine ⟨⟨rfl, rfl, hglobal, hmu⟩, ?_⟩
    simp only [remaining]
    omega
  · refine ⟨⟨rfl, hglobal, hmu⟩, ?_⟩
    simp only [remaining]
    omega
  · exact absurd rfl heq

/-- A slot in use does not lower `min_epoch`. -/
theorem lowered_inactive (minEpoch : U64) : lowered minEpoch kInactiveEpoch = minEpoch :=
  if_neg fun h => h.1 rfl

/-- The call takes its next step, and comes nearer to its end. -/
def Advances (b e : U64) (m : Mem Loc Node) (l : Local Node) : Prop :=
  ∃ m' l', run m l = some (m', l') ∧ Undisturbed b e m' l'.pc ∧ remaining m' l'.pc < remaining m l.pc

theorem Undisturbed.scanUse {current minEpoch : U64} (hpc : l.pc = .scanUse current minEpoch i)
    (hu : Undisturbed b e m (.scanUse current minEpoch i)) : Advances b e m l := by
  obtain ⟨hinactive, hbounded, rfl, rfl, hglobal, hmu⟩ := hu
  obtain ⟨hnext, hlt⟩ := scanNext_atEpoch hglobal hmu i
  by_cases hused : (m.threads i).inUse = true
  · refine ⟨m, l.go (.scanEpoch minEpoch minEpoch i), ?_,
      ⟨hinactive, hbounded, rfl, rfl, hglobal, hmu, hused⟩, ?_⟩
    · simp [run, hpc, hused]
    · simp [hpc, Local.go, remaining]
  · refine ⟨m, l.go (scanNext minEpoch minEpoch i), ?_, ⟨hinactive, hbounded, hnext⟩, hlt.trans ?_⟩
    · simp [run, hpc, hused]
    · simp [hpc, remaining]

theorem Undisturbed.scanEpoch {current minEpoch : U64} (hpc : l.pc = .scanEpoch current minEpoch i)
    (hu : Undisturbed b e m (.scanEpoch current minEpoch i)) : Advances b e m l := by
  obtain ⟨hinactive, hbounded, rfl, rfl, hglobal, hmu, hused⟩ := hu
  obtain ⟨hnext, hlt⟩ := scanNext_atEpoch hglobal hmu i
  refine ⟨m, l.go (scanNext minEpoch minEpoch i), ?_, ⟨hinactive, hbounded, hnext⟩, ?_⟩
  · simp only [run, hpc, hinactive i hused, lowered_inactive]
  · rw [hpc]
    exact hlt

theorem Undisturbed.sweep {minEpoch : U64} {kept rest : List (RetiredNode Node)} {node : RetiredNode Node}
    (hpc : l.pc = .sweep minEpoch kept (node :: rest))
    (hu : Undisturbed b e m (.sweep minEpoch kept (node :: rest))) : Advances b e m l := by
  obtain ⟨hinactive, hbounded, rfl, hglobal, hlist, hkept⟩ := hu
  by_cases hlt : node.epoch < minEpoch
  · refine ⟨{ m with retired := kept ++ rest }, l.go (.delete minEpoch kept node rest), ?_,
      ⟨hinactive, fun node' hnode' => ?_, rfl, hglobal, rfl, hkept⟩, ?_⟩
    · simp [run, hpc, hlt]
    · apply hbounded
      rw [hlist]
      exact List.perm_middle.symm.subset (List.mem_cons_of_mem node hnode')
    · simp only [hpc, Local.go, remaining, List.length_cons]
      omega
  · refine ⟨m, l.go (.sweep minEpoch (kept ++ [node]) rest), ?_,
      ⟨hinactive, hbounded, rfl, hglobal, ?_, fun node' hnode' => ?_⟩, ?_⟩
    · simp [run, hpc, hlt]
    · rw [hlist, List.append_cons]
    · rcases List.mem_append.mp hnode' with hnode' | hnode'
      · exact hkept node' hnode'
      · rw [List.mem_singleton.mp hnode']
        exact BitVec.not_lt.mp hlt
    · simp [hpc, Local.go, remaining]

theorem Undisturbed.run (hu : Undisturbed b e m l.pc) (hidle : l.pc ≠ .idle) : Advances b e m l := by
  generalize hpc : l.pc = pc at hu hidle
  have hposition := hu.position
  cases pc with
  | idle => exact absurd rfl hidle
  | scanUse current minEpoch i => exact hu.scanUse hpc
  | scanEpoch current minEpoch i => exact hu.scanEpoch hpc
  | reclaimLoad =>
      obtain ⟨rfl, hmu⟩ := hposition
      refine ⟨m, l.go (.scanUse m.globalEpoch m.globalEpoch 0), ?_,
        ⟨hu.inactive, hu.bounded, rfl, rfl, rfl, hmu⟩, ?_⟩
      · simp only [EpochManager.run, hpc]
      · simp [hpc, Local.go, remaining]
  | advance minEpoch =>
      obtain ⟨rfl, hglobal, hmu⟩ := hposition
      refine ⟨{ m with globalEpoch := m.globalEpoch + 1 }, l.go (.reclaimLock minEpoch), ?_,
        ⟨hu.inactive, hu.bounded, rfl, congrArg (· + 1) hglobal, hmu⟩, ?_⟩
      · simp only [EpochManager.run, hpc]
      · simp [hpc, Local.go, remaining]
  | reclaimLock minEpoch =>
      obtain ⟨rfl, hglobal, hmu⟩ := hposition
      refine ⟨{ m with reclaimMu := true }, l.go (.reclaimHead minEpoch), ?_,
        ⟨hu.inactive, hu.bounded, rfl, hglobal⟩, ?_⟩
      · simp [EpochManager.run, hpc, hmu]
      · simp [hpc, Local.go, remaining]
  | reclaimHead minEpoch =>
      obtain ⟨rfl, hglobal⟩ := hposition
      refine ⟨m, l.go (.sweep minEpoch [] m.retired), ?_,
        ⟨hu.inactive, hu.bounded, rfl, hglobal, rfl, List.forall_mem_nil _⟩, ?_⟩
      · simp only [EpochManager.run, hpc]
      · simp [hpc, Local.go, remaining]
  | sweep minEpoch kept rest =>
      cases rest with
      | nil =>
          obtain ⟨rfl, hglobal, hlist, hkept⟩ := hposition
          rw [List.append_nil] at hlist
          rw [← hlist] at hkept
          refine ⟨{ m with reclaimMu := false }, l.go .idle, ?_,
            ⟨hu.inactive, hu.bounded, hglobal, rfl, hkept⟩, ?_⟩
          · simp only [EpochManager.run, hpc]
          · simp [hpc, Local.go, remaining]
      | cons node rest => exact hu.sweep hpc
  | delete minEpoch kept node rest =>
      refine ⟨m, l.go (.sweep minEpoch kept rest), ?_, ⟨hu.inactive, hu.bounded, hposition⟩, ?_⟩
      · simp only [EpochManager.run, hpc]
      · simp [hpc, Local.go, remaining]
  | _ => exact hposition.elim

/-! ### Calls that run alone -/

/-- Thread `t` goes on with its call. -/
def alone (t : Tid) : StepCond (State Tid Loc Node × History Tid Node) (Act Tid (Label Loc Node)) :=
  fun s a s' => a = .step t .run ∧ fewAdvances s a s'

/-- Thread `t` calls `try_reclaim`, and nothing else happens until it returns. -/
def TryReclaims (t : Tid) (s s' : State Tid Loc Node × History Tid Node) : Prop :=
  ∃ c, (observed Tid Loc Node).next s (.step t .tryReclaim) = some c ∧
    (observed Tid Loc Node).Leads (alone t) c s' ∧ (s'.1.thread t).pc = .idle

theorem observed_next_of_step (hstep : step label s.1.mem (s.1.thread t) = some (m, l)) :
    (observed Tid Loc Node).next s (.step t label) =
      some (s.1.move t m l, s.2.step t label s.1.mem (s.1.thread t).pc) := by
  have hnext := (program Tid Loc Node).next_of_step (Subsingleton.elim (s.1.asleep t) none) hstep
  change ((program Tid Loc Node).machine.next s.1 (.step t label)).map _ = _
  rw [hnext]
  rfl

/-- Thread `t` is in a `try_reclaim` that runs alone. -/
structure Alone (b e : U64) (retired : List Node) (t : Tid) (s : State Tid Loc Node × History Tid Node) :
    Prop where
  undisturbed : Undisturbed b e s.1.mem (s.1.thread t).pc
  others : ∀ u, u ≠ t → (s.1.thread u).pc = .idle
  retired : s.2.retired = retired

/-- The next step of the call. -/
theorem Alone.next {retired : List Node} (ha : Alone b e retired t s) (hpc : (s.1.thread t).pc ≠ .idle) :
    ∃ s', (observed Tid Loc Node).next s (.step t .run) = some s' ∧ Alone b e retired t s' ∧
      remaining s'.1.mem (s'.1.thread t).pc < remaining s.1.mem (s.1.thread t).pc := by
  obtain ⟨m, l, hrun, hundisturbed, hlt⟩ := ha.undisturbed.run hpc
  have hself : ((s.1.move t m l).thread t) = l := Function.update_self ..
  refine ⟨_, observed_next_of_step hrun, ⟨?_, fun u hut => ?_, ?_⟩, ?_⟩
  · rw [hself]
    exact hundisturbed
  · rw [Config.move_thread, Function.update_of_ne hut]
    exact ha.others u hut
  · rw [s.2.retired_run]
    exact ha.retired
  · rw [hself]
    exact hlt

/-- Outside every call there is no step to go on with. -/
theorem next_of_idle (hidle : (s.1.thread t).pc = .idle) :
    (observed Tid Loc Node).next s (.step t .run) = none := by
  by_contra hsome
  obtain ⟨s', hs'⟩ := Option.ne_none_iff_exists'.mp hsome
  obtain ⟨t', label, m, l, heq, -, ⟨rfl, hrun⟩ | ⟨-, hcall⟩⟩ := observed_cases hs'
  · cases heq
    have hstep := runStep_of_run hrun
    rw [hidle] at hstep
    cases hstep
  · cases heq
    cases hcall

theorem Alone.leads {retired : List Node} (ha : Alone b e retired t s)
    (hlead : (observed Tid Loc Node).Leads (alone t) s s') : Alone b e retired t s' := by
  refine hlead.induct (I := Alone b e retired t) ha ?_
  rintro c a c' - ih hnext ⟨rfl, -⟩
  have hpc : (c.1.thread t).pc ≠ .idle := by
    intro hidle
    rw [next_of_idle hidle] at hnext
    cases hnext
  obtain ⟨d, hd, hnew, -⟩ := ih.next hpc
  rw [hd] at hnext
  cases hnext
  exact hnew

/-- A call that begins without readers. -/
theorem Alone.begin {b : U64} (he : Excludes s.1.mem s.1.thread) (hq : Quiescent s.1.mem s.1.thread)
    (hb : ∀ node ∈ s.1.mem.retired, node.epoch ≤ b)
    (hnext : (observed Tid Loc Node).next s (.step t .tryReclaim) = some s') :
    Alone b s.1.mem.globalEpoch s.2.retired t s' := by
  obtain ⟨t', label, m, l, heq, rfl, ⟨rfl, hrun⟩ | ⟨-, hcall⟩⟩ := observed_cases hnext
  · cases heq
  · cases heq
    cases hcall
    have hself : ((s.1.move t s.1.mem ((s.1.thread t).go .reclaimLoad)).thread t) = (s.1.thread t).go .reclaimLoad :=
      Function.update_self ..
    refine ⟨⟨hq.inactive, hb, ?_⟩, fun u hut => ?_, rfl⟩
    · rw [hself]
      exact ⟨rfl, he.free hq.idle⟩
    · rw [Config.move_thread, Function.update_of_ne hut]
      exact hq.idle u

/-- At the return every node of an earlier epoch has left the list. -/
theorem Alone.return {retired : List Node} (ha : Alone b e retired t s) (hidle : (s.1.thread t).pc = .idle) :
    Quiescent s.1.mem s.1.thread ∧ s.1.mem.globalEpoch = e + 1 ∧
      ∀ node ∈ s.1.mem.retired, e ≤ node.epoch := by
  obtain ⟨⟨hinactive, -, hposition⟩, hothers, -⟩ := ha
  rw [hidle] at hposition
  obtain ⟨hglobal, -, hkept⟩ := hposition
  refine ⟨⟨fun u => ?_, hinactive⟩, hglobal, hkept⟩
  by_cases hut : u = t
  · rw [hut]
    exact hidle
  · exact hothers u hut

theorem TryReclaims.reachable (hreach : (observed Tid Loc Node).Reachable fewAdvances s)
    (h : TryReclaims t s s') : (observed Tid Loc Node).Reachable fewAdvances s' := by
  obtain ⟨c, hnext, hlead, -⟩ := h
  have hbound := (timely_of_reachable hreach).bound
  have hcall : (observed Tid Loc Node).Reachable fewAdvances c := by
    refine hreach.next hnext ?_
    obtain ⟨t', label, m, l, heq, rfl, -⟩ := observed_cases hnext
    cases heq
    exact hbound
  exact hlead.induct hcall fun _ ih hnext hok => ih.next hnext hok.2

/-- What a `try_reclaim` has done that began without readers and ran alone. -/
structure Swept (b : U64) (s s' : State Tid Loc Node × History Tid Node) : Prop where
  quiescent : Quiescent s'.1.mem s'.1.thread
  global : s'.1.mem.globalEpoch = s.1.mem.globalEpoch + 1
  kept : ∀ node ∈ s'.1.mem.retired, s.1.mem.globalEpoch ≤ node.epoch ∧ node.epoch ≤ b
  retired : s'.2.retired = s.2.retired

theorem TryReclaims.swept (hreach : (observed Tid Loc Node).Reachable fewAdvances s)
    (hq : Quiescent s.1.mem s.1.thread) (hb : ∀ node ∈ s.1.mem.retired, node.epoch ≤ b)
    (h : TryReclaims t s s') : Swept b s s' := by
  obtain ⟨c, hnext, hlead, hidle⟩ := h
  have halone := (Alone.begin (excludes_of_reachable hreach) hq hb hnext).leads hlead
  obtain ⟨hquiescent, hglobal, hkept⟩ := halone.return hidle
  exact ⟨hquiescent, hglobal, fun node hnode => ⟨hkept node hnode, halone.undisturbed.bounded node hnode⟩,
    halone.retired⟩

/-- Two calls in a row leave nothing in the list. -/
theorem TryReclaims.twice {s₁ s₂ : State Tid Loc Node × History Tid Node} {u : Tid}
    (hreach : (observed Tid Loc Node).Reachable fewAdvances s) (hq : Quiescent s.1.mem s.1.thread)
    (h₁ : TryReclaims t s s₁) (h₂ : TryReclaims u s₁ s₂) :
    s₂.1.mem.retired = [] ∧ s₂.2.freed.Perm s.2.retired := by
  have hreach₁ := h₁.reachable hreach
  have hsweep₁ := h₁.swept hreach hq fun node hnode => (timely_of_reachable hreach).dated node (Or.inl hnode)
  have hsweep₂ := h₂.swept hreach₁ hsweep₁.quiescent fun node hnode => (hsweep₁.kept node hnode).2
  have hempty : s₂.1.mem.retired = [] := by
    refine List.eq_nil_iff_forall_not_mem.mpr fun node hnode => ?_
    obtain ⟨hge, hle⟩ := hsweep₂.kept node hnode
    rw [hsweep₁.global] at hge
    -- the epoch has not wrapped to 0
    have hne : s.1.mem.globalEpoch + 1 ≠ 0 := by
      rw [← hsweep₁.global]
      exact (timely_of_reachable hreach₁).global_ne_zero
    bv_omega
  refine ⟨hempty, ?_⟩
  have hperm := retired_perm (h₂.reachable hreach₁) hsweep₂.quiescent.idle
  rw [hempty, List.map_nil, List.append_nil, hsweep₂.retired, hsweep₁.retired] at hperm
  exact hperm

/-! ### The calls return -/

theorem AtEpoch.global (h : AtEpoch e m pc) : m.globalEpoch = e ∨ m.globalEpoch = e + 1 := by
  cases pc with
  | reclaimLoad => exact Or.inl h.1
  | scanUse => exact Or.inl h.2.2.1
  | scanEpoch => exact Or.inl h.2.2.1
  | advance => exact Or.inl h.2.1
  | reclaimLock => exact Or.inr h.2.1
  | reclaimHead => exact Or.inr h.2
  | sweep => exact Or.inr h.2.1
  | delete => exact Or.inr h.2.1
  | idle => exact Or.inr h.1
  | _ => exact h.elim

/-- A call that began after `n` advances has advanced the epoch at most once. -/
theorem AtEpoch.advances {n : ℕ} (h : AtEpoch (BitVec.ofNat 64 (1 + n)) m pc) {h' : History Tid Node}
    (hc : Counts m h') (hle : h'.advances ≤ n + 2) : h'.advances ≤ n + 1 := by
  by_contra hgt
  have heq : h'.advances = n + 2 := by omega
  have hglobal : m.globalEpoch = BitVec.ofNat 64 (1 + n) + 2 := by
    rw [hc, heq, ← Nat.add_assoc, BitVec.ofNat_add]
    rfl
  rcases h.global with h | h <;> bv_omega

theorem History.advances_succ (h : History Tid Node) (t : Tid) (label : Label Loc Node)
    (m : Mem Loc Node) (pc : Pc Node) : (h.step t label m pc).advances ≤ h.advances + 1 := by
  unfold History.step
  split <;> first | exact Nat.le_succ _ | exact le_rfl

/-- Thread `t` is in a `try_reclaim` that runs alone and began after `n` advances. -/
structure Counted (b : U64) (n : ℕ) (retired : List Node) (t : Tid)
    (s : State Tid Loc Node × History Tid Node) : Prop where
  alone : Alone b (BitVec.ofNat 64 (1 + n)) retired t s
  counts : Counts s.1.mem s.2
  advances : s.2.advances ≤ n + 1

theorem Counted.next {n : ℕ} {retired : List Node} (hc : Counted b n retired t s)
    (hn : n + 2 < 2 ^ 64) (hpc : (s.1.thread t).pc ≠ .idle) :
    ∃ s', (observed Tid Loc Node).Step (EpochManager.alone t) s s' ∧ Counted b n retired t s' ∧
      remaining s'.1.mem (s'.1.thread t).pc < remaining s.1.mem (s.1.thread t).pc := by
  obtain ⟨s', hnext, halone, hlt⟩ := hc.alone.next hpc
  obtain ⟨t', label, m, l, heq, rfl, ⟨rfl, hrun⟩ | ⟨hidle, hcall⟩⟩ := observed_cases hnext
  · cases heq
    have hcounts := hc.counts.run hrun (t := t)
    have hle := halone.undisturbed.position.advances hcounts
      ((s.2.advances_succ t .run s.1.mem (s.1.thread t).pc).trans (Nat.succ_le_succ hc.advances))
    refine ⟨_, ⟨_, hnext, rfl, ?_⟩, ⟨halone, hcounts, hle⟩, hlt⟩
    exact (Nat.succ_le_succ hle).trans_lt hn
  · cases heq
    cases hcall

/-- Without readers a `try_reclaim` that runs alone returns, and has advanced the epoch at most once. -/
theorem exists_tryReclaims (hreach : (observed Tid Loc Node).Reachable fewAdvances s)
    (hq : Quiescent s.1.mem s.1.thread) (hbound : s.2.advances + 2 < 2 ^ 64) (t : Tid) :
    ∃ s', TryReclaims t s s' ∧ s'.2.advances ≤ s.2.advances + 1 := by
  have htimely := timely_of_reachable hreach
  have hcall : step .tryReclaim s.1.mem (s.1.thread t) =
      some (s.1.mem, (s.1.thread t).go .reclaimLoad) := by
    unfold step
    rw [hq.idle t]
    rfl
  have hbegin := Alone.begin (excludes_of_reachable hreach) hq
    (fun node hnode => htimely.dated node (Or.inl hnode)) (observed_next_of_step hcall)
  have halone := hbegin
  rw [htimely.counts] at halone
  obtain ⟨s', hlead, hcounted, hidle⟩ := Machine.Leads.to_end _
    (fun c (hc : Counted _ s.2.advances s.2.retired t c) hpc => hc.next hbound hpc)
    ⟨halone, htimely.counts, Nat.le_succ _⟩
  exact ⟨s', ⟨_, observed_next_of_step hcall, hlead, hidle⟩, hcounted.advances⟩

end Psync.EpochManager
