import Psync.EpochRefinement

/-! Every retired node is freed exactly once: at most once in any run, by `reclaim_all` at the latest,
and by two calls of `try_reclaim` in a row when no reader is active. The nodes that are kept stay in
the list in their order. -/

namespace Psync.EpochHeap

open Concurrency
open EpochManager (RetiredNode History fewAdvances kInactiveEpoch)

set_option linter.unusedSectionVars false

variable {Tid Loc Node Addr : Type*} [Fintype Tid] [DecidableEq Tid] [DecidableEq Loc] [DecidableEq Addr]
  {x x' x₁ x₂ : State Tid Loc Node Addr × History Tid Node} {t u : Tid}
  {l l' : List (Addr × RetiredNode Node)} {v : EpochManager.State Tid Loc Node}
  {y : EpochManager.State Tid Loc Node × History Tid Node}

/-- Thread `t` goes on with its call. -/
def alone (t : Tid) : StepCond (State Tid Loc Node Addr × History Tid Node) (Act Tid (Label Loc Node Addr)) :=
  fun x a x' => a = .step t (.code .run) ∧ fewAdvances x a x'

/-- Thread `t` calls `try_reclaim`, and nothing else happens until it returns. -/
def TryReclaims (t : Tid) (x x' : State Tid Loc Node Addr × History Tid Node) : Prop :=
  ∃ c, (observed Tid Loc Node Addr).next x (.step t (.code .tryReclaim)) = some c ∧
    (observed Tid Loc Node Addr).Leads (alone t) c x' ∧ (x'.1.thread t).pc = .outer .idle

/-- No call is in progress, and no slot in use announces an epoch. -/
structure Quiescent (s : State Tid Loc Node Addr) : Prop where
  idle : ∀ t, (s.thread t).pc = .outer .idle
  inactive : ∀ i, (s.mem.threads i).inUse = true → (s.mem.threads i).activeEpoch = kInactiveEpoch

/-- What the manager does with the retired nodes. -/
structure FreesOnce (x : State Tid Loc Node Addr × History Tid Node) : Prop where
  /-- No deleter has run more often than its node was retired. -/
  once : x.2.freed.Subperm x.2.retired
  /-- Outside every call, the destructor runs the deleters that have not run. -/
  destroyed : (∀ t, (x.1.thread t).pc = .outer .idle) → ∃ deleted m,
    Solo reclaimAll DestroyPc.deleted x.1.mem .lock deleted m () ∧
      (x.2.freed ++ deleted).Perm x.2.retired ∧ m.retiredHead = none
  list : ∃ l, Chain x.1.mem l
  /-- A step adds a node in front, or takes out one of an earlier epoch than `min_epoch`. -/
  changes : ∀ a x' l l', (observed Tid Loc Node Addr).next x a = some x' → Chain x.1.mem l →
    Chain x'.1.mem l' → ∃ t label, a = .step t label ∧ Evolves (x.1.thread t).pc l l'
  /-- In every run the nodes that are kept stay in their order, behind the new ones. -/
  stays : ∀ x' l l', (observed Tid Loc Node Addr).Leads fewAdvances x x' → Chain x.1.mem l →
    Chain x'.1.mem l' → ∃ new kept, l' = new ++ kept ∧ kept.Sublist l
  /-- Without guards there is no reader. -/
  readers : (∀ t, (x.1.thread t).pc = .outer .idle) → (∀ t, (x.1.thread t).guards = []) → Quiescent x.1
  /-- Two calls in a row free every node. -/
  twice : Quiescent x.1 → ∀ t u x₁ x₂, TryReclaims t x x₁ → TryReclaims u x₁ x₂ →
    x₂.1.mem.retiredHead = none ∧ x₂.2.freed.Perm x.2.retired
  /-- Two calls in a row return. -/
  returns : Quiescent x.1 → x.2.advances + 3 < 2 ^ 64 → ∀ t u, ∃ x₁ x₂,
    TryReclaims t x x₁ ∧ TryReclaims u x₁ x₂

/-! ### From one model to the other -/

theorem Refines.idle_iff (h : Refines x.1 v l) :
    (x.1.thread t).pc = .outer .idle ↔ (v.thread t).pc = .idle := by
  refine ⟨fun hpc => h.bare hpc, fun hidle => ?_⟩
  have hposition := h.position t
  rw [hidle] at hposition
  generalize (x.1.thread t).pc = pc at hposition
  cases hposition with
  | outer hbare => rfl

theorem Refines.quiescent_iff (h : Refines x.1 v l) :
    Quiescent x.1 ↔ EpochManager.Quiescent v.mem v.thread := by
  have hthreads : v.mem.threads = x.1.mem.threads := by
    rw [h.mem]
    rfl
  constructor
  · rintro ⟨hidle, hinactive⟩
    exact ⟨fun t => h.idle_iff.mp (hidle t), by rw [hthreads]; exact hinactive⟩
  · rintro ⟨hidle, hinactive⟩
    exact ⟨fun t => h.idle_iff.mpr (hidle t), by rw [← hthreads]; exact hinactive⟩

theorem simulates_alone (t : Tid) : Machine.Simulates (observed Tid Loc Node Addr) (alone t)
    (EpochManager.observed Tid Loc Node) (EpochManager.alone t) Simulated := by
  rintro x x' ⟨v, hist⟩ ⟨rfl, l, h⟩ ⟨a, hnext, rfl, hfew⟩
  obtain ⟨t', label, v', l', heq, hv, h', -⟩ := h.next hnext
  cases heq
  exact ⟨(v', x'.2), ⟨_, hv, rfl, hfew⟩, rfl, l', h'⟩

/-- A call with pointers is a call with the list. -/
theorem TryReclaims.erase (hsim : Simulated x y) (h : TryReclaims t x x') :
    ∃ y', EpochManager.TryReclaims t y y' ∧ Simulated x' y' := by
  obtain ⟨v, hist⟩ := y
  obtain ⟨rfl, l, hrefines⟩ := hsim
  obtain ⟨c, hnext, hlead, hidle⟩ := h
  obtain ⟨t', label, v', l', heq, hv, hrefines', -⟩ := hrefines.next hnext
  cases heq
  have hcall : Simulated c (v', c.2) := ⟨rfl, l', hrefines'⟩
  obtain ⟨y', hlead', hsim'⟩ := (simulates_alone t).leads hcall hlead
  obtain ⟨-, l'', hrefines''⟩ := id hsim'
  exact ⟨y', ⟨_, hv, hlead', hrefines''.idle_iff.mp hidle⟩, hsim'⟩

/-- The two models are at the same point, and thread `t` is not at the load of `retire_internal`. -/
def Matched (t : Tid) (y : EpochManager.State Tid Loc Node × History Tid Node)
    (x : State Tid Loc Node Addr × History Tid Node) : Prop :=
  Simulated x y ∧ ∀ ptr, (y.1.thread t).pc ≠ .retireLoad ptr

theorem exists_next {label : Label Loc Node Addr} {m : Mem Loc Node Addr} {lo : Local Node Addr}
    (hstep : step label x.1.mem (x.1.thread t) = some (m, lo)) :
    ∃ x', (observed Tid Loc Node Addr).next x (.step t label) = some x' := by
  have hnext := (program Tid Loc Node Addr).next_of_step (Subsingleton.elim (x.1.asleep t) none) hstep
  refine ⟨(x.1.move t m lo, record x.2 x.1 (.step t label) (x.1.move t m lo)), ?_⟩
  change ((program Tid Loc Node Addr).machine.next x.1 _).map _ = _
  rw [hnext]
  rfl

/-- A call with the list can be followed with pointers. -/
theorem matched_alone (t : Tid) : Machine.Simulates (EpochManager.observed Tid Loc Node)
    (EpochManager.alone t) (observed Tid Loc Node Addr) (alone t) (Matched t) := by
  rintro ⟨v, hist⟩ y' x ⟨⟨rfl, l, h⟩, hload⟩ ⟨a, hnext, rfl, hfew⟩
  obtain ⟨t', label, m, lo, heq, rfl, ⟨rfl, hrun⟩ | ⟨-, hcall⟩⟩ := EpochManager.observed_cases hnext
  · cases heq
    obtain ⟨⟨m', lo'⟩, hx⟩ := h.step_run hload hrun
    obtain ⟨x', hx'⟩ := exists_next (show step (.code .run) x.1.mem (x.1.thread t) = _ from hx)
    obtain ⟨t', label, v', l', heq, hv, h', -⟩ := h.next hx'
    cases heq
    obtain ⟨hstate, hhistory⟩ := Prod.mk.inj (Option.some.inj (hnext.symm.trans hv))
    refine ⟨x', ⟨_, hx', rfl, ?_⟩, ⟨hhistory.symm, l', hstate ▸ h'⟩, fun ptr => ?_⟩
    · unfold fewAdvances at hfew ⊢
      rw [← hhistory]
      exact hfew
    · rw [Config.move_thread, Function.update_self]
      exact (EpochManager.run_frame hrun).2.1 ptr
  · cases heq
    cases hcall

/-- A call with pointers exists for a call with the list. -/
theorem TryReclaims.exists_of (hsim : Simulated x y) (hidle : (x.1.thread t).pc = .outer .idle)
    {y' : EpochManager.State Tid Loc Node × History Tid Node} (h : EpochManager.TryReclaims t y y') :
    ∃ x', TryReclaims t x x' ∧ Simulated x' y' := by
  obtain ⟨v, hist⟩ := y
  obtain ⟨rfl, l, hrefines⟩ := hsim
  obtain ⟨c, hnext, hlead, hdone⟩ := h
  have hstep : step (.code .tryReclaim) x.1.mem (x.1.thread t) = some (x.1.mem.outer
      (x.1.mem.view [], ((x.1.thread t).view .idle).go .reclaimLoad)) := by
    unfold step
    rw [hidle]
    rfl
  obtain ⟨d, hd⟩ := exists_next hstep
  obtain ⟨t', label, v', l', heq, hv, hrefines', -⟩ := hrefines.next hd
  cases heq
  obtain rfl := Option.some.inj (hnext.symm.trans hv)
  have hload : ∀ ptr, (v'.thread t).pc ≠ .retireLoad ptr := by
    obtain ⟨t', label, m, lo, heq, hmove, ⟨rfl, hrun⟩ | ⟨-, hcall⟩⟩ := EpochManager.observed_cases hnext
    · cases heq
    · cases heq
      cases hcall
      obtain ⟨rfl, -⟩ := Prod.mk.inj hmove
      intro ptr hpc
      rw [Config.move_thread, Function.update_self] at hpc
      cases hpc
  obtain ⟨x', hlead', ⟨hsim, -⟩⟩ := (matched_alone t).leads ⟨⟨rfl, l', hrefines'⟩, hload⟩ hlead
  obtain ⟨-, l'', hrefines''⟩ := id hsim
  exact ⟨x', ⟨d, hd, hlead', hrefines''.idle_iff.mpr hdone⟩, hsim⟩

/-! ### The list -/

/-- What a step does to the list, whatever it is called. -/
theorem Evolves.kept {pc : Pc Node Addr} (h : Evolves pc l l') {l₀ new kept : List (Addr × RetiredNode Node)}
    (hl : l = new ++ kept) (hsub : kept.Sublist l₀) :
    ∃ new kept, l' = new ++ kept ∧ kept.Sublist l₀ := by
  cases h with
  | same => exact ⟨new, kept, hl, hsub⟩
  | @push _ a node hpc =>
      refine ⟨(a, node) :: new, kept, ?_, hsub⟩
      rw [hl, List.cons_append]
  | @unlink la lb a node minEpoch prev hpc hlt =>
      have hcut : (la ++ lb).Sublist (new ++ kept) := by
        rw [← hl]
        exact List.Sublist.append (List.Sublist.refl la) (List.sublist_cons_self ..)
      obtain ⟨new', kept', hcat, -, hkept⟩ := List.sublist_append_iff.mp hcut
      exact ⟨new', kept', hcat, hkept.trans hsub⟩

theorem list_changes (hreach : (observed Tid Loc Node Addr).Reachable fewAdvances x)
    {a : Act Tid (Label Loc Node Addr)} (hnext : (observed Tid Loc Node Addr).next x a = some x')
    (hl : Chain x.1.mem l) (hl' : Chain x'.1.mem l') :
    ∃ t label, a = .step t label ∧ Evolves (x.1.thread t).pc l l' := by
  obtain ⟨v, l₁, -, hrefines⟩ := refines_of_reachable hreach
  obtain ⟨t, label, v', l₂, ha, -, hrefines', hevolves⟩ := hrefines.next hnext
  rw [hl.unique hrefines.chain, hl'.unique hrefines'.chain]
  exact ⟨t, label, ha, hevolves⟩

theorem list_stays (hreach : (observed Tid Loc Node Addr).Reachable fewAdvances x)
    (hlead : (observed Tid Loc Node Addr).Leads fewAdvances x x') (hl : Chain x.1.mem l)
    (hl' : Chain x'.1.mem l') : ∃ new kept, l' = new ++ kept ∧ kept.Sublist l := by
  refine (hlead.induct (I := fun c => (observed Tid Loc Node Addr).Reachable fewAdvances c ∧
    ∀ l', Chain c.1.mem l' → ∃ new kept, l' = new ++ kept ∧ kept.Sublist l) ⟨hreach, fun l' hl' => ?_⟩ ?_).2
      l' hl'
  · exact ⟨[], l', rfl, (hl'.unique hl) ▸ List.Sublist.refl _⟩
  · rintro c a c' - ⟨hc, ih⟩ hnext hfew
    refine ⟨hc.next hnext hfew, fun l' hl' => ?_⟩
    obtain ⟨v, l₁, -, hrefines⟩ := refines_of_reachable hc
    obtain ⟨new, kept, heq, hsub⟩ := ih l₁ hrefines.chain
    obtain ⟨t, label, -, hevolves⟩ := list_changes hc hnext hrefines.chain hl'
    exact hevolves.kept heq hsub

/-- Every retired node is freed exactly once. -/
theorem retired_nodes_freed_once (hreach : (observed Tid Loc Node Addr).Reachable fewAdvances x) :
    FreesOnce x := by
  obtain ⟨v, l, hv, h⟩ := refines_of_reachable hreach
  have hsim : Simulated x (v, x.2) := ⟨rfl, l, h⟩
  have hretired : v.mem.retired = l.map Prod.snd := by
    rw [h.mem]
    rfl
  refine ⟨EpochManager.freed_subperm hv, fun hidle => ?_, ⟨l, h.chain⟩,
    fun a x' l l' hnext => list_changes hreach hnext, fun x' l l' hlead => list_stays hreach hlead,
    fun hidle hguards => ?_, fun hq t u x₁ x₂ h₁ h₂ => ?_, fun hq hbound t u => ?_⟩
  · have hidle' : ∀ t, (v.thread t).pc = .idle := fun t => h.idle_iff.mp (hidle t)
    have hfree := h.excludes.free hidle'
    rw [h.mem] at hfree
    obtain ⟨m, hsolo, hhead, -⟩ := h.chain.destroy hfree
    have hperm := EpochManager.retired_perm hv hidle'
    rw [hretired, List.map_map] at hperm
    exact ⟨_, m, hsolo, hperm, hhead⟩
  · refine h.quiescent_iff.mpr ((EpochManager.timely_of_reachable hv).attended.quiescent
      (fun t => h.idle_iff.mp (hidle t)) fun t => ?_)
    rw [h.thread t]
    exact hguards t
  · obtain ⟨y₁, hy₁, hsim₁⟩ := h₁.erase hsim
    obtain ⟨y₂, hy₂, hhistory, l₂, hrefines⟩ := h₂.erase hsim₁
    obtain ⟨hempty, hperm⟩ := hy₁.twice hv (h.quiescent_iff.mp hq) hy₂
    rw [hrefines.mem] at hempty
    rw [hrefines.chain.head, List.map_eq_nil_iff.mp hempty, hhistory]
    exact ⟨rfl, hperm⟩
  · have hq' := h.quiescent_iff.mp hq
    have hfirst : x.2.advances + 2 < 2 ^ 64 := by omega
    obtain ⟨y₁, hy₁, hle⟩ := EpochManager.exists_tryReclaims hv hq' hfirst t
    have hsecond : y₁.2.advances + 2 < 2 ^ 64 := (Nat.add_le_add_right hle 2).trans_lt hbound
    have hsweep := hy₁.swept hv hq' fun node hnode => (EpochManager.timely_of_reachable hv).dated node (Or.inl hnode)
    obtain ⟨y₂, hy₂, -⟩ := EpochManager.exists_tryReclaims (hy₁.reachable hv) hsweep.quiescent hsecond u
    obtain ⟨x₁, hx₁, hsim₁⟩ := TryReclaims.exists_of hsim (hq.idle t) hy₁
    obtain ⟨-, l₁, hrefines⟩ := id hsim₁
    obtain ⟨x₂, hx₂, -⟩ := TryReclaims.exists_of hsim₁ ((hrefines.quiescent_iff.mpr hsweep.quiescent).idle u) hy₂
    exact ⟨x₁, x₂, hx₁, hx₂⟩

/-- Thread `a` retires node 7 and runs `try_reclaim`, then retires node 8 and runs `try_reclaim` again. -/
def retireRun : List (Act Runner (Label Unit ℕ ℕ)) :=
  [.step .a (.code (.retire 7)), .step .a (.new 0)] ++ List.replicate 4 (.step .a (.code .run)) ++
    .step .a (.code .tryReclaim) :: List.replicate 134 (.step .a (.code .run)) ++
    [.step .a (.code (.retire 8)), .step .a (.new 1)] ++ List.replicate 4 (.step .a (.code .run)) ++
    .step .a (.code .tryReclaim) :: List.replicate 136 (.step .a (.code .run))

theorem retired_nodes_freed_once_tail : ∃ x : State Runner Unit ℕ ℕ × History Runner ℕ,
    x.2.retired = [8, 7] ∧ x.2.freed = [7] ∧ x.1.mem.retiredHead = some 1 ∧ FreesOnce x :=
  let M := observed Runner Unit ℕ ℕ
  ⟨(M.run fewAdvances M.init retireRun).get (by decide +kernel), by decide +kernel, by decide +kernel,
    by decide +kernel, retired_nodes_freed_once (.of_run _ _)⟩

end Psync.EpochHeap
