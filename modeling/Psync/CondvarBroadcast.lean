import Psync.CondvarModel

/-! `broadcast(mutex)` and the threads asleep on `seq_` when it executes its `fetch_add`. The
operation it issues is not the kernel's requeue, so it fails in every state: nobody is compared with,
woken or moved to the mutex. Nobody is stranded in the runs in which the call finds none of its
threads asleep. -/

namespace Psync.ConditionVariable

open Concurrency

set_option linter.unusedSectionVars false

variable {Tid : Type*} [Fintype Tid] [DecidableEq Tid]

abbrev State (Tid : Type*) := Config Tid Mem Thread Addr

/-- The threads that a step adds: `(n, t)` when `n` executes the `fetch_add` of `broadcast(mutex)`
while `t` is asleep on `seq_`. -/
def announced (s : State Tid) : Act Tid Label → Finset (Tid × Tid)
  | .step n .run => if (s.thread n).pc = .requeueAdd then {n} ×ˢ s.sleepers .seq else ∅
  | _ => ∅

/-- The pairs `(n, t)` such that `t` has been asleep since it was asleep on `seq_` at a `fetch_add`
of `n`. -/
def recordCovered (covered : Finset (Tid × Tid)) (s : State Tid) (a : Act Tid Label)
    (s' : State Tid) : Finset (Tid × Tid) :=
  (covered ∪ announced s a).filter fun p => s'.asleep p.2 ≠ none

/-- The runs of the condition variable, with the threads each broadcast covers. -/
def observed (Tid : Type*) [Fintype Tid] [DecidableEq Tid] :
    Machine (State Tid × Finset (Tid × Tid)) (Act Tid Label) :=
  (program Tid).machine.observe ∅ recordCovered

/-- When a broadcast calls `futex::requeue`, none of the threads it covers is still asleep. -/
def requeuesNone : StepCond (State Tid × Finset (Tid × Tid)) (Act Tid Label) :=
  fun s a _ => match a with
    | .requeue n _ _ => ∀ t, (n, t) ∉ s.2
    | _ => True

instance (s : State Tid × Finset (Tid × Tid)) (a : Act Tid Label)
    (s' : State Tid × Finset (Tid × Tid)) : Decidable (requeuesNone s a s') :=
  match a with
  | .requeue n _ _ => inferInstanceAs (Decidable (∀ t, (n, t) ∉ s.2))
  | .step .. | .sleep _ | .ret _ | .wake .. => .isTrue trivial

/-- Every broadcast has finished, the mutex is free and nobody is inside its `lock` or `unlock`, but a
thread is asleep that some broadcast covered. -/
def Stranded (s : State Tid × Finset (Tid × Tid)) : Prop :=
  (∀ n, (s.1.thread n).broadcasting = false) ∧ s.1.mem.mutexState &&& Mutex.lockedFlag = 0 ∧
    (∀ t, (s.1.thread t).mutex.locking = false ∧ (s.1.thread t).mutex.unlocking = false) ∧
      ∃ n t, (n, t) ∈ s.2 ∧ s.1.asleep t ≠ none

/-! ### The positions of a thread -/

/-- The thread may be inside a call of the mutex. -/
def Thread.nesting (th : Thread) : Bool :=
  match th.pc with
  | .idle | .waitUnlock _ | .waitLock => true
  | _ => false

def Thread.Ok (th : Thread) : Prop := th.nesting = true ∨ th.mutex.pc = .idle

theorem Thread.settle_ok {th : Thread} (h : th.Ok) : th.settle.Ok := by
  by_cases hidle : th.mutex.pc = .idle
  · obtain ⟨mutex, pc⟩ := th
    rw [settle, if_pos hidle]
    cases pc <;> exact Or.inr hidle
  · rw [settle, if_neg hidle]
    exact h

theorem mutexStep_ok {l : Mutex.Label} {m m' : Mem} {th th' : Thread} (hn : th.nesting = true)
    (h : mutexStep l m th = some (m', th')) : th'.Ok := by
  simp only [mutexStep, Option.map_eq_some_iff] at h
  obtain ⟨r, -, heq⟩ := h
  cases heq
  exact Thread.settle_ok (Or.inl hn)

theorem run_ok {m m' : Mem} {th th' : Thread} (hok : th.Ok) (h : run m th = some (m', th')) :
    th'.Ok := by
  have hidle : th.nesting = false → th.mutex.pc = .idle :=
    fun hn => hok.resolve_left (by rw [hn]; exact Bool.false_ne_true)
  obtain ⟨mutex, pc⟩ := th
  cases pc with
  | idle => exact mutexStep_ok rfl h
  | waitUnlock seq => exact mutexStep_ok rfl h
  | waitLock => exact mutexStep_ok rfl h
  | waitLoad =>
      cases h
      exact Or.inl rfl
  | signalAdd | broadcastAdd | requeueAdd =>
      rw [run, Option.some.injEq] at h
      rw [← (Prod.mk.inj h).2]
      exact Or.inr (hidle rfl)
  | _ => cases h

theorem step_ok {l : Label} {m m' : Mem} {th th' : Thread} (hok : th.Ok)
    (h : step l m th = some (m', th')) : th'.Ok := by
  have hfree : th.free → th.nesting = true := fun hf => by rw [Thread.nesting, hf.1]
  cases l with
  | run => exact run_ok hok h
  | wait =>
      simp only [step] at h
      split_ifs at h with hf
      cases h
      exact Or.inr hf.1.2
  | lock | tryLock | unlock =>
      simp only [step] at h
      split_ifs at h with hf
      exact mutexStep_ok (hfree hf) h
  | signal | broadcast | broadcastMutex =>
      simp only [step] at h
      split_ifs at h with hf
      cases h
      exact Or.inr hf.2

theorem afterWait_ok {th : Thread} (h : th.Ok) : ((program Tid).afterWait th).Ok := by
  obtain ⟨mutex, pc⟩ := th
  rw [Program.afterWait]
  rcases h with hn | hidle
  · cases pc <;> try cases hn
    all_goals
      change Thread.Ok (Option.elim (Option.map _ (Mutex.wait mutex)) _ _)
      cases Mutex.wait mutex <;> exact Or.inl rfl
  · have hnone : Mutex.wait mutex = none := by rw [Mutex.wait, show mutex.pc = .idle from hidle]
    cases pc <;> first
      | exact Or.inl rfl
      | (simp only [program, wait, hnone]
         exact Or.inr hidle)

variable (Tid) in
/-- A thread at `futex::requeue` does nothing else. -/
theorem requeueCall_alone {th : Thread} {oldSeq : U32} (hok : th.Ok)
    (hpc : th.pc = .requeueCall oldSeq) :
    (∀ l m, step l m th = none) ∧ wait th = none ∧ wake th = none ∧
      ((program Tid).afterWait th) = th := by
  have hidle : th.mutex.pc = .idle :=
    hok.resolve_left (by rw [Thread.nesting, hpc]; exact Bool.false_ne_true)
  have hwait : wait th = none := by rw [wait, hpc]; simp only [Mutex.wait, hidle, Option.map_none]
  refine ⟨fun l m => ?_, hwait, ?_, ?_⟩
  · have hfree : ¬ th.free := fun hf => by
      rw [Thread.free, hpc] at hf
      cases hf.1
    cases l with
    | run => rw [step, run, hpc]
    | wait => rw [step, if_neg fun h => hfree h.1]
    | _ => rw [step, if_neg hfree]
  · rw [wake, hpc]
    simp only [Mutex.wake, hidle, Option.map_none]
  · rw [Program.afterWait, show (program Tid).wait th = none from hwait]
    rfl

/-! ### Covered threads -/

/-- A broadcast that covers a sleeping thread has not executed its requeue. -/
structure Inv (s : State Tid × Finset (Tid × Tid)) : Prop where
  ok : ∀ t, (s.1.thread t).Ok
  pending : ∀ n t, (n, t) ∈ s.2 → ∃ oldSeq, (s.1.thread n).pc = .requeueCall oldSeq

theorem ok_of_next {s s' : State Tid} {a : Act Tid Label} (hok : ∀ t, (s.thread t).Ok)
    (h : (program Tid).machine.next s a = some s') : ∀ t, (s'.thread t).Ok := by
  refine Program.thread_of_next _ hok h step_ok afterWait_ok ?_ ?_
  · intro th w hth hwake
    obtain ⟨mutex, pc⟩ := th
    have hmutex : Thread.nesting ⟨mutex, pc⟩ = true → (Mutex.wake mutex).map (fun w =>
        ({ addr := .mutex, count := w.count, after := Thread.settle ⟨w.after, pc⟩ } :
          WakeCall Thread Addr)) = some w → w.after.Ok := by
      intro hn hw
      simp only [Option.map_eq_some_iff] at hw
      obtain ⟨v, -, rfl⟩ := hw
      exact Thread.settle_ok (Or.inl hn)
    cases pc with
    | idle | waitUnlock | waitLock => exact hmutex rfl hwake
    | signalWake | broadcastWake =>
        cases hwake
        exact Or.inl rfl
    | _ =>
        rw [show (program Tid).wake = wake from rfl, wake, Mutex.wake, hth.resolve_left nofun] at hwake
        cases hwake
  · intro th r hth hrequeue
    obtain ⟨mutex, pc⟩ := th
    cases pc <;> cases hrequeue
    exact Or.inl rfl

/-- `futex::requeue` wakes and moves nobody. -/
theorem asleep_of_requeue {s s' : State Tid} {n : Tid} {woken moved : Finset Tid}
    (hnext : (program Tid).machine.next s (.requeue n woken moved) = some s') :
    s'.asleep = s.asleep := by
  cases Program.transition_of_next _ hnext with
  | @requeue _ r _ _ awake hrequeue holds hwoken hmoved =>
      rw [show (program Tid).requeue = requeue from rfl, requeue] at hrequeue
      split at hrequeue
      · cases hrequeue
        rw [futex.requeue_holds] at holds
        cases holds
      · cases hrequeue
  | refused awake hrequeue holds => rfl

theorem idle_of_requeue {s s' : State Tid} {n : Tid} {woken moved : Finset Tid}
    (hnext : (program Tid).machine.next s (.requeue n woken moved) = some s') :
    (s'.thread n).broadcasting = false := by
  have hafter : ∀ {r}, (program Tid).requeue (s.thread n) = some r → r.after.broadcasting = false := by
    intro r hrequeue
    rw [show (program Tid).requeue = requeue from rfl, requeue] at hrequeue
    split at hrequeue
    · cases hrequeue
      rfl
    · cases hrequeue
  cases Program.transition_of_next _ hnext with
  | requeue awake hrequeue =>
      rw [Config.move_thread, Function.update_self]
      exact hafter hrequeue
  | refused awake hrequeue =>
      rw [Config.move_thread, Function.update_self]
      exact hafter hrequeue

/-- Only its requeue takes a thread away from `futex::requeue`. -/
theorem requeueCall_stays {s s' : State Tid} {a : Act Tid Label} {n : Tid} {oldSeq : U32}
    (hok : ∀ t, (s.thread t).Ok) (hpc : (s.thread n).pc = .requeueCall oldSeq)
    (hnext : (program Tid).machine.next s a = some s') :
    s'.thread n = s.thread n ∨ ∃ woken moved, a = .requeue n woken moved := by
  obtain ⟨hstep, hwait, hwake, hafter⟩ := requeueCall_alone Tid (hok n) hpc
  have hresume : ∀ woken, ((program Tid).resume s woken).thread n = s.thread n := by
    intro woken
    rw [Program.resume_thread, hafter, ite_self]
  cases Program.transition_of_next _ hnext with
  | @step t l m th awake hs =>
      have hne : n ≠ t := by
        rintro rfl
        rw [show (program Tid).step n l s.mem (s.thread n) = step l s.mem (s.thread n) from rfl,
          hstep] at hs
        cases hs
      exact Or.inl (by rw [Config.move_thread, Function.update_of_ne hne])
  | sleep awake hw holds => exact Or.inl rfl
  | ret hw => exact Or.inl (hresume _)
  | @wake t w woken awake hw chosen =>
      have hne : n ≠ t := by
        rintro rfl
        rw [show (program Tid).wake (s.thread n) = wake (s.thread n) from rfl, hwake] at hw
        cases hw
      exact Or.inl (by rw [Config.move_thread, Function.update_of_ne hne, hresume])
  | @requeue t r woken moved awake hr holds hwoken hmoved =>
      by_cases hne : n = t
      · exact Or.inr ⟨woken, moved, by rw [hne]⟩
      · exact Or.inl (by rw [Config.move_thread, Function.update_of_ne hne, Config.requeue_thread, hresume])
  | @refused t r awake hr holds =>
      by_cases hne : n = t
      · exact Or.inr ⟨∅, ∅, by rw [hne]⟩
      · exact Or.inl (by rw [Config.move_thread, Function.update_of_ne hne])

theorem mem_announced {s : State Tid} {a : Act Tid Label} {n t : Tid}
    (h : (n, t) ∈ announced s a) : a = .step n .run ∧ (s.thread n).pc = .requeueAdd := by
  unfold announced at h
  split at h
  · split_ifs at h with hpc
    · rw [Finset.mem_product, Finset.mem_singleton] at h
      obtain ⟨rfl, -⟩ := h
      exact ⟨rfl, hpc⟩
    · exact absurd h (Finset.notMem_empty _)
  · exact absurd h (Finset.notMem_empty _)

theorem requeueCall_of_add {s s' : State Tid} {n : Tid} (hpc : (s.thread n).pc = .requeueAdd)
    (hnext : (program Tid).machine.next s (.step n .run) = some s') :
    (s'.thread n).pc = .requeueCall s.mem.seq := by
  cases Program.transition_of_next _ hnext with
  | step awake hs =>
      rw [show (program Tid).step n .run s.mem (s.thread n) = run s.mem (s.thread n) from rfl, run,
        hpc, Option.some.injEq] at hs
      rw [Config.move_thread, Function.update_self, ← (Prod.mk.inj hs).2]
      rfl

theorem inv_of_reachable {s : State Tid × Finset (Tid × Tid)}
    (h : (observed Tid).Reachable requeuesNone s) : Inv s := by
  refine h.induct ⟨fun _ => Or.inl rfl, fun _ _ hn => absurd hn (Finset.notMem_empty _)⟩ ?_
  intro s a s' _ ih hnext hok
  obtain ⟨hnext, hrecord⟩ := Machine.observe_next hnext
  refine ⟨ok_of_next ih.ok hnext, fun n t hmem => ?_⟩
  rw [hrecord, recordCovered, Finset.mem_filter, Finset.mem_union] at hmem
  obtain ⟨hmem | hmem, hasleep⟩ := hmem
  · obtain ⟨oldSeq, hpc⟩ := ih.pending n t hmem
    rcases requeueCall_stays ih.ok hpc hnext with hsame | ⟨woken, moved, rfl⟩
    · exact ⟨oldSeq, by rw [hsame, hpc]⟩
    · exact absurd hmem (hok t)
  · -- the `fetch_add` of the broadcast
    obtain ⟨rfl, hpc⟩ := mem_announced hmem
    exact ⟨_, requeueCall_of_add hpc hnext⟩

/-- No broadcast strands a thread in the runs that meet the condition. -/
theorem broadcast_strands_nobody {s : State Tid × Finset (Tid × Tid)}
    (h : (observed Tid).Reachable requeuesNone s) : ¬ Stranded s := by
  rintro ⟨hdone, -, -, n, t, hmem, -⟩
  obtain ⟨oldSeq, hpc⟩ := (inv_of_reachable h).pending n t hmem
  have hbusy := hdone n
  rw [Thread.broadcasting, hpc] at hbusy
  cases hbusy

/-- A broadcast that does not meet the condition ends while a thread it covers is still asleep. -/
theorem asleep_of_violated {s s' : State Tid × Finset (Tid × Tid)} {a : Act Tid Label}
    (h : (observed Tid).Reachable anyStep s) (hnext : (observed Tid).next s a = some s')
    (hbad : ¬ requeuesNone s a s') :
    ∃ n t, (s'.1.thread n).broadcasting = false ∧ (n, t) ∈ s'.2 ∧ s'.1.asleep t ≠ none := by
  have hasleep : ∀ p ∈ s.2, s.1.asleep p.2 ≠ none := by
    refine h.induct (I := fun s => ∀ p ∈ s.2, s.1.asleep p.2 ≠ none)
      (fun p hp => absurd hp (Finset.notMem_empty p)) fun _ _ hnext _ p hp => ?_
    rw [(Machine.observe_next hnext).2, recordCovered, Finset.mem_filter] at hp
    exact hp.2
  obtain ⟨hstep, hrecord⟩ := Machine.observe_next hnext
  cases a with
  | requeue n woken moved =>
      obtain ⟨t, hmem⟩ : ∃ t, (n, t) ∈ s.2 := by
        by_contra hnone
        exact hbad fun t ht => hnone ⟨t, ht⟩
      have hstill : s'.1.asleep t ≠ none := by
        rw [asleep_of_requeue hstep]
        exact hasleep _ hmem
      refine ⟨n, t, idle_of_requeue hstep, ?_, hstill⟩
      rw [hrecord, recordCovered, Finset.mem_filter, Finset.mem_union]
      exact ⟨Or.inl hmem, hstill⟩
  | _ => exact absurd trivial hbad

/-- Thread `a` has taken the mutex and sleeps in `wait`; thread `b` has executed the `fetch_add` of
`broadcast(mutex)`. -/
def coveredRun : List (Act Runner Label) :=
  [.step .a .lock, .step .a .run, .step .a .wait, .step .a .run, .step .a .run, .step .a .run, .sleep .a,
    .step .b .broadcastMutex, .step .b .run]

/-- The waiter returns spuriously before the requeue, and takes the mutex again. -/
theorem broadcast_strands_nobody_spurious : ∃ s : State Runner × Finset (Runner × Runner),
    (s.1.thread .a).pc = .waitLock ∧ (s.1.thread .b).pc = .idle ∧ ¬ Stranded s :=
  ⟨((observed Runner).run requeuesNone (observed Runner).init
      (coveredRun ++ [.ret .a, .requeue .b ∅ ∅])).get (by decide),
    by decide, by decide, broadcast_strands_nobody (.of_run _ _)⟩

/-- The kernel refuses the operation and the waiter sleeps on. -/
theorem broadcast_strands_waiter : ∃ s : State Runner × Finset (Runner × Runner),
    (observed Runner).Reachable anyStep s ∧ Stranded s :=
  ⟨((observed Runner).run anyStep (observed Runner).init
      (coveredRun ++ [.requeue .b ∅ ∅])).get (by decide),
    .of_run _ _, by decide, by decide, by decide, .b, .a, by decide, by decide⟩

end Psync.ConditionVariable
