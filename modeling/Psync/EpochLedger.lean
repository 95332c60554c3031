import Psync.EpochReclaim

/-! Where the retired nodes are. Under `reclaim_mu_` a thread sees the list as it is, so that a step
moves a node at most from the thread that retires it into the list, and from the list to the thread
that runs its deleter. No contract of the clients is needed. -/

namespace Psync.EpochManager

open Concurrency

set_option linter.unusedSectionVars false

variable {Tid Loc Node : Type*} [DecidableEq Tid] [DecidableEq Loc] {t : Tid} {m m' : Mem Loc Node}
  {f : Tid → Local Node} {h : History Tid Node} {l l' : Local Node} {i : Slot} {pc : Pc Node}
  {label : Label Loc Node} {ok : StepCond (State Tid Loc Node × History Tid Node) (Act Tid (Label Loc Node))}

/-! ### The critical section -/

/-- The thread holds `reclaim_mu_`. -/
def Pc.inMutex : Pc Node → Prop
  | .retireHead _ | .retireStore .. | .retireUnlock | .reclaimHead _ | .sweep .. | .delete .. => True
  | _ => False

/-- What a thread remembers of the list is up to date. -/
def Agrees (m : Mem Loc Node) : Pc Node → Prop
  | .retireStore _ next => m.retired = next
  | .sweep _ kept rest | .delete _ kept _ rest => m.retired = kept ++ rest
  | _ => True

/-- The node whose deleter the next step runs. -/
def Pc.doomed : Pc Node → List Node
  | .delete _ _ node _ => [node.ptr]
  | _ => []

/-- The node that the thread has begun to retire and not linked yet, or that it has unlinked and not
deleted yet. -/
def Pc.carried : Pc Node → List Node
  | .retireLoad ptr => [ptr]
  | .retireLock node | .retireHead node | .retireStore node _ | .delete _ _ node _ => [node.ptr]
  | _ => []

theorem scanNext_outside (current minEpoch : U64) (i : Slot) :
    ¬ (scanNext current minEpoch i : Pc Node).inMutex ∧
      (scanNext current minEpoch i : Pc Node).carried = [] := by
  unfold scanNext
  split_ifs <;> exact ⟨id, rfl⟩

theorem Agrees.of_outside (hpc : ¬ pc.inMutex) : Agrees m pc := by
  cases pc with
  | retireStore | sweep | delete => exact absurd trivial hpc
  | _ => trivial

/-- A step that neither links, unlinks nor deletes a node. -/
structure Keeps (m : Mem Loc Node) (pc : Pc Node) (m' : Mem Loc Node) (pc' : Pc Node) : Prop where
  retired : m'.retired = m.retired
  carried : pc'.carried = pc.carried
  doomed : pc.doomed = []

/-- What a step of the code does to `reclaim_mu_` and to the retired nodes. -/
inductive ListStep (m : Mem Loc Node) : Pc Node → Mem Loc Node → Pc Node → Prop
  | other {pc pc' : Pc Node} {m' : Mem Loc Node} (hkeeps : Keeps m pc m' pc')
      (hmu : m'.reclaimMu = m.reclaimMu) (hmutex : pc'.inMutex ↔ pc.inMutex)
      (hagrees : Agrees m' pc') : ListStep m pc m' pc'
  | lock {pc pc' : Pc Node} {m' : Mem Loc Node} (hkeeps : Keeps m pc m' pc')
      (free : m.reclaimMu = false) (hmu : m'.reclaimMu = true) (hmutex : pc'.inMutex)
      (hagrees : Agrees m' pc') : ListStep m pc m' pc'
  | unlock {pc pc' : Pc Node} {m' : Mem Loc Node} (hkeeps : Keeps m pc m' pc')
      (hin : pc.inMutex) (hmu : m'.reclaimMu = false) (hmutex : ¬ pc'.inMutex) : ListStep m pc m' pc'
  | push (node : RetiredNode Node) : ListStep m (.retireStore node m.retired)
      { m with retired := node :: m.retired } .retireUnlock
  | unlink {minEpoch : U64} {kept rest : List (RetiredNode Node)} {node : RetiredNode Node}
      (hlist : m.retired = kept ++ node :: rest) (hlt : node.epoch < minEpoch) :
      ListStep m (.sweep minEpoch kept (node :: rest)) { m with retired := kept ++ rest }
        (.delete minEpoch kept node rest)
  | delete {minEpoch : U64} {kept rest : List (RetiredNode Node)} {node : RetiredNode Node}
      (hlist : m.retired = kept ++ rest) :
      ListStep m (.delete minEpoch kept node rest) m (.sweep minEpoch kept rest)

theorem listStep_of_run (hagrees : Agrees m l.pc) (hrun : run m l = some (m', l')) :
    ListStep m l.pc m' l'.pc := by
  have hstep := runStep_of_run hrun
  generalize l.pc = pc at hstep hagrees
  have hscan : ∀ current minEpoch i, ¬ pc.inMutex → pc.carried = [] → pc.doomed = [] →
      ListStep m pc m (scanNext current minEpoch i : Pc Node) := by
    intro current minEpoch i hout hcarried hdoomed
    obtain ⟨hnext, hnone⟩ : ¬ (scanNext current minEpoch i : Pc Node).inMutex ∧
        (scanNext current minEpoch i : Pc Node).carried = [] := scanNext_outside current minEpoch i
    exact .other ⟨rfl, hnone.trans hcarried.symm, hdoomed⟩ rfl (iff_of_false hnext hout)
      (.of_outside hnext)
  cases hstep with
  | scanUnused | scanEpoch => exact hscan _ _ _ id rfl rfl
  | retireLock free | reclaimLock free => exact .lock ⟨rfl, rfl, rfl⟩ free rfl trivial trivial
  | retireStore =>
      obtain rfl := hagrees
      exact .push _
  | retireUnlock | sweepEnd => exact .unlock ⟨rfl, rfl, rfl⟩ trivial rfl id
  | retireHead | reclaimHead => exact .other ⟨rfl, rfl, rfl⟩ rfl Iff.rfl rfl
  | unlink hlt => exact .unlink hagrees hlt
  | @keep minEpoch kept rest node =>
      have hlist : m.retired = kept ++ node :: rest := hagrees
      rw [List.append_cons] at hlist
      exact .other ⟨rfl, rfl, rfl⟩ rfl Iff.rfl hlist
  | delete => exact .delete hagrees
  | _ => exact .other ⟨rfl, rfl, rfl⟩ rfl Iff.rfl trivial

/-- `reclaim_mu_` excludes, and who holds it sees the list as it is. -/
structure Excludes (m : Mem Loc Node) (f : Tid → Local Node) : Prop where
  mutex : Guards (m.reclaimMu = true) (fun l : Local Node => l.pc.inMutex) f
  agrees : ∀ t, Agrees m (f t).pc

theorem Excludes.init : Excludes (.init : Mem Loc Node) (fun _ : Tid => ⟨none, [], .idle⟩) where
  mutex := ⟨by simp [Mem.init, Pc.inMutex], fun t u ht => ht.elim⟩
  agrees _ := trivial

/-- Outside every call `reclaim_mu_` is free. -/
theorem Excludes.free (he : Excludes m f) (hidle : ∀ t, (f t).pc = .idle) : m.reclaimMu = false := by
  refine Bool.eq_false_of_not_eq_true fun hmu => ?_
  obtain ⟨u, hu⟩ := he.mutex.iff.mp hmu
  rw [hidle u] at hu
  exact hu

/-- The threads outside the critical section do not depend on the list, and there is at most one
thread inside. -/
theorem Excludes.agrees_of_inside (he : Excludes m f) (hin : (f t).pc.inMutex) {u : Tid} (hut : u ≠ t) :
    Agrees m' (f u).pc :=
  .of_outside fun hu => hut (he.mutex.unique u t hu hin)

theorem Agrees.congr (hretired : m'.retired = m.retired) (h : Agrees m pc) : Agrees m' pc := by
  cases pc with
  | retireStore | sweep | delete =>
      unfold Agrees at h ⊢
      rw [hretired]
      exact h
  | _ => trivial

theorem Excludes.run (he : Excludes m f) (hrun : EpochManager.run m (f t) = some (m', l')) :
    Excludes m' (Function.update f t l') := by
  have hstep := listStep_of_run (he.agrees t) hrun
  have hagrees : Agrees m' l'.pc → (∀ u, u ≠ t → Agrees m' (f u).pc) →
      ∀ u, Agrees m' (Function.update f t l' u).pc := by
    intro hown hothers u
    rw [Function.update_apply]
    split_ifs with hut
    · exact hown
    · exact hothers u hut
  generalize hpc : (f t).pc = pc at hstep
  generalize hpc' : l'.pc = pc' at hstep hagrees
  have hin : pc.inMutex → (f t).pc.inMutex := fun h => by rwa [hpc]
  cases hstep with
  | other hkeeps hmu hmutex hown =>
      refine ⟨he.mutex.same (by rw [hmu]) ?_, hagrees hown fun u _ => (he.agrees u).congr hkeeps.retired⟩
      rw [hpc, hpc']
      exact hmutex
  | lock hkeeps free hmu hmutex hown =>
      refine ⟨he.mutex.enter (by rw [free]; exact Bool.false_ne_true) hmu ?_,
        hagrees hown fun u _ => (he.agrees u).congr hkeeps.retired⟩
      rw [hpc']
      exact hmutex
  | unlock hkeeps hinside hmu hmutex =>
      refine ⟨he.mutex.leave (hin hinside) (by rw [hmu]; exact Bool.false_ne_true) ?_,
        hagrees (.of_outside hmutex) fun u _ => (he.agrees u).congr hkeeps.retired⟩
      rw [hpc']
      exact hmutex
  | push node =>
      refine ⟨he.mutex.same Iff.rfl ?_, hagrees trivial fun u => he.agrees_of_inside (hin trivial)⟩
      rw [hpc, hpc']
      exact Iff.rfl
  | unlink hlist hlt =>
      refine ⟨he.mutex.same Iff.rfl ?_, hagrees rfl fun u => he.agrees_of_inside (hin trivial)⟩
      rw [hpc, hpc']
      exact Iff.rfl
  | delete hlist =>
      refine ⟨he.mutex.same Iff.rfl ?_, hagrees hlist fun u _ => he.agrees u⟩
      rw [hpc, hpc']
      exact Iff.rfl

/-- A call begins outside the critical section. -/
theorem CallStep.outside (hcall : CallStep m l label m' l') :
    m'.reclaimMu = m.reclaimMu ∧ (l'.pc.inMutex → l'.pc = l.pc) := by
  cases hcall with
  | read | write => exact ⟨rfl, fun _ => rfl⟩
  | _ => exact ⟨rfl, fun h => h.elim⟩

theorem Excludes.call (he : Excludes m f) (hidle : (f t).pc = .idle)
    (hcall : CallStep m (f t) label m' l') : Excludes m' (Function.update f t l') := by
  obtain ⟨-, hretired, -⟩ := hcall.leaves
  obtain ⟨hmu, hin⟩ := hcall.outside
  have hnew : ¬ l'.pc.inMutex := by
    intro h
    rw [hin h, hidle] at h
    exact h
  refine ⟨he.mutex.same (by rw [hmu]) (iff_of_false hnew ?_), fun u => ?_⟩
  · rw [hidle]
    exact id
  · rw [Function.update_apply]
    split_ifs
    · exact .of_outside hnew
    · exact (he.agrees u).congr hretired

/-! ### The ledger -/

theorem History.freed_eq (h : History Tid Node) (pc : Pc Node) :
    (h.step t (.run : Label Loc Node) m pc).freed = pc.doomed ++ h.freed := by
  cases pc <;> rfl

section Counting

variable [DecidableEq Node]

/-- How often the node `x` has been freed, is in the list, or is carried by a thread. -/
def located (m : Mem Loc Node) (f : Tid → Local Node) (h : History Tid Node) [Fintype Tid] (x : Node) : ℕ :=
  h.freed.count x + (m.retired.map RetiredNode.ptr).count x + tally (fun l => l.pc.carried.count x) f

/-- A step of the code hands a node on. -/
theorem count_of_run (hagrees : Agrees m l.pc) (hrun : run m l = some (m', l')) (x : Node) :
    l.pc.doomed.count x + (m'.retired.map RetiredNode.ptr).count x + l'.pc.carried.count x =
      (m.retired.map RetiredNode.ptr).count x + l.pc.carried.count x := by
  have hstep := listStep_of_run hagrees hrun
  generalize l.pc = pc at hstep
  generalize l'.pc = pc' at hstep
  have hkeep : Keeps m pc m' pc' → pc.doomed.count x + (m'.retired.map RetiredNode.ptr).count x +
      pc'.carried.count x = (m.retired.map RetiredNode.ptr).count x + pc.carried.count x := by
    rintro ⟨hretired, hcarried, hdoomed⟩
    rw [hretired, hcarried, hdoomed, List.count_nil, Nat.zero_add]
  cases hstep with
  | other hkeeps | lock hkeeps | unlock hkeeps => exact hkeep hkeeps
  | push node =>
      simp only [Pc.doomed, Pc.carried, List.map_cons, List.count_cons, List.count_nil]
      omega
  | unlink hlist hlt =>
      rw [hlist]
      simp only [Pc.doomed, Pc.carried, List.map_append, List.map_cons, List.count_append,
        List.count_cons, List.count_nil]
      omega
  | delete hlist =>
      simp only [Pc.doomed, Pc.carried, List.count_cons, List.count_nil]
      omega

/-- Every node whose `retire` has begun is located as often as it has been retired. -/
def Balanced (m : Mem Loc Node) (f : Tid → Local Node) (h : History Tid Node) [Fintype Tid] : Prop :=
  ∀ x, h.retired.count x = located m f h x

variable [Fintype Tid]

theorem Balanced.init : Balanced (.init : Mem Loc Node) (fun _ : Tid => ⟨none, [], .idle⟩) .init := by
  intro x
  have hnone : tally (fun l : Local Node => l.pc.carried.count x)
      (fun _ : Tid => ⟨none, [], .idle⟩) = 0 := tally_eq_zero.mpr fun _ => rfl
  rw [located, hnone]
  rfl

theorem Balanced.run (hb : Balanced m f h) (hagrees : Agrees m (f t).pc)
    (hrun : EpochManager.run m (f t) = some (m', l')) :
    Balanced m' (Function.update f t l') (h.step t (.run : Label Loc Node) m (f t).pc) := by
  intro x
  have hold := hb x
  have hcount := count_of_run hagrees hrun x
  have htally := tally_update (w := fun l : Local Node => l.pc.carried.count x) (f := f) t l'
  unfold located at hold ⊢
  rw [h.retired_run, h.freed_eq, List.count_append]
  omega

theorem Balanced.call (hb : Balanced m f h) (hidle : (f t).pc = .idle)
    (hcall : CallStep m (f t) label m' l') :
    Balanced m' (Function.update f t l') (h.step t label m (f t).pc) := by
  intro x
  have hold := hb x
  have htally := tally_update (w := fun l : Local Node => l.pc.carried.count x) (f := f) t l'
  have hnone : (f t).pc.carried.count x = 0 := by
    rw [hidle]
    rfl
  obtain ⟨-, hretired, -⟩ := hcall.leaves
  unfold located at hold ⊢
  rw [hretired, (h.retired_call hcall).2]
  have hcarried : (h.step t label m (f t).pc).retired.count x =
      h.retired.count x + l'.pc.carried.count x := by
    cases hcall with
    | retire ptr =>
        change (ptr :: h.retired).count x = h.retired.count x + [ptr].count x
        rw [List.count_cons, List.count_singleton]
    | read | write => rw [hnone]; rfl
    | _ => rfl
  omega

end Counting

/-! ### Runs -/

variable [Fintype Tid] {s s' : State Tid Loc Node × History Tid Node} {a : Act Tid (Label Loc Node)}

/-- A step goes on with the call of a thread, or begins one. -/
theorem observed_cases (hnext : (observed Tid Loc Node).next s a = some s') :
    ∃ t label m l, a = .step t label ∧ s' = (s.1.move t m l, s.2.step t label s.1.mem (s.1.thread t).pc) ∧
      ((label = .run ∧ run s.1.mem (s.1.thread t) = some (m, l)) ∨
        ((s.1.thread t).pc = .idle ∧ CallStep s.1.mem (s.1.thread t) label m l)) := by
  obtain ⟨t, label, m, l, rfl, hstep, rfl⟩ := Program.observed_step_of_next _ (fun _ => rfl)
    (fun _ => rfl) (fun _ => rfl) hnext
  exact ⟨t, label, m, l, rfl, rfl, step_cases hstep⟩

theorem Excludes.next (he : Excludes s.1.mem s.1.thread)
    (hnext : (observed Tid Loc Node).next s a = some s') : Excludes s'.1.mem s'.1.thread := by
  obtain ⟨t, label, m, l, rfl, rfl, ⟨rfl, hrun⟩ | ⟨hidle, hcall⟩⟩ := observed_cases hnext
  · exact he.run hrun
  · exact he.call hidle hcall

theorem Balanced.next [DecidableEq Node] (he : Excludes s.1.mem s.1.thread)
    (hb : Balanced s.1.mem s.1.thread s.2) (hnext : (observed Tid Loc Node).next s a = some s') :
    Balanced s'.1.mem s'.1.thread s'.2 := by
  obtain ⟨t, label, m, l, rfl, rfl, ⟨rfl, hrun⟩ | ⟨hidle, hcall⟩⟩ := observed_cases hnext
  · exact hb.run (he.agrees t) hrun
  · exact hb.call hidle hcall

theorem excludes_of_reachable (hreach : (observed Tid Loc Node).Reachable ok s) :
    Excludes s.1.mem s.1.thread :=
  hreach.induct (I := fun s => Excludes s.1.mem s.1.thread) .init fun _ ih hnext _ => ih.next hnext

theorem balanced_of_reachable [DecidableEq Node] (hreach : (observed Tid Loc Node).Reachable ok s) :
    Balanced s.1.mem s.1.thread s.2 := by
  refine hreach.induct (I := fun s => Balanced s.1.mem s.1.thread s.2) .init ?_
  intro s a s' hreach ih hnext _
  exact ih.next (excludes_of_reachable hreach) hnext

/-- No deleter runs more often than its node was retired. -/
theorem freed_subperm (hreach : (observed Tid Loc Node).Reachable ok s) :
    s.2.freed.Subperm s.2.retired := by
  classical
  refine List.subperm_ext_iff.mpr fun x _ => ?_
  have hcount : s.2.retired.count x = located s.1.mem s.1.thread s.2 x := balanced_of_reachable hreach x
  unfold located at hcount
  omega

/-- Outside every call, what has not been freed is in the list. -/
theorem retired_perm (hreach : (observed Tid Loc Node).Reachable ok s)
    (hidle : ∀ t, (s.1.thread t).pc = .idle) :
    (s.2.freed ++ s.1.mem.retired.map RetiredNode.ptr).Perm s.2.retired := by
  classical
  refine List.perm_iff_count.mpr fun x => ?_
  have hnone : tally (fun l : Local Node => l.pc.carried.count x) s.1.thread = 0 := by
    refine tally_eq_zero.mpr fun t => ?_
    rw [hidle t]
    rfl
  rw [balanced_of_reachable hreach x, located, hnone, List.count_append]
  rfl

end Psync.EpochManager
