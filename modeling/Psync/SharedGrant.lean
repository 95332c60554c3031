import Psync.BatchGrant
import Psync.RunSleepers
import Psync.SharedWakeup

/-! What batches need of the reader/writer lock to come to an end. A registered writer goes first; whoever
sleeps while nobody holds the lock is behind one that is awake. -/

namespace Psync.Batch

open Concurrency LockCode

set_option linter.unusedSectionVars false

variable {Tid : Type*} [DecidableEq Tid] [Fintype Tid]

variable {s : Config Tid U32 SharedMutex.Thread Unit} {t : Tid} {th : SharedMutex.Thread} {mode : SharedMode}

theorem shared_attended (h : (SharedMutex.program Tid).machine.Reachable SharedMutex.withinLimits s)
    (hsleep : ∃ t, s.asleep t = some ()) : SharedMutex.Attended s := by
  refine h.induct (I := fun s => (∃ t, s.asleep t = some ()) → SharedMutex.Attended s) (fun ⟨_, ht⟩ => nomatch ht) ?_
    hsleep
  rintro s a s' hreach ih hnext - ⟨u, hu⟩
  have hinv := SharedMutex.inv_of_reachable hreach
  cases Program.transition_of_next _ hnext with
  | step awake hstep => exact (ih ⟨u, hu⟩).move hinv (SharedMutex.effect_of_step (hinv.ok _) hstep).1 awake
  | sleep awake hwait holds => exact SharedMutex.attended_sleep ih hinv hwait holds
  | ret hwait =>
      rw [Program.resume_asleep] at hu
      split_ifs at hu
      exact (ih ⟨u, hu⟩).resume _
  | wake awake hwake chosen =>
      obtain ⟨-, -, rfl⟩ := SharedMutex.wake_eq_some hwake
      rw [not_asleep_of_wake rfl chosen] at hu
      cases hu
  | requeue awake hrequeue => cases hrequeue
  | refused awake hrequeue => cases hrequeue

/-- A thread with a phase has at most one hold, and none while it waits. -/
theorem shared_le_one {p : LockPhase SharedMode} (h : sharedPhase th = some p) : th.shared ≤ 1 := by
  have hresting : ∀ {q}, sharedResting th = some q → th.shared ≤ 1 := by
    intro q hq
    obtain ⟨held, shared, pc⟩ := th
    rw [sharedResting] at hq
    split at hq <;> first | omega | cases hq
  obtain ⟨held, shared, pc⟩ := th
  cases pc with
  | idle => exact hresting h
  | tryLock | tried | triedShared => cases h
  | sharedLoad trying | sharedCas trying current =>
      cases trying with
      | true => cases h
      | false =>
          simp only [sharedPhase, Option.ite_none_right_eq_some] at h
          exact hresting h.1
  | _ =>
      simp only [sharedPhase, Option.ite_none_right_eq_some] at h
      exact hresting h.1

theorem sharedResting_waiting (h : LockPhase.Waits (sharedResting th)) : sharedResting th = some .out := by
  rcases h with h | ⟨mode, h⟩
  · exact h
  · cases sharedResting_quiet h

/-- A thread that is out of the lock or waits for it. -/
theorem shared_waiting (h : LockPhase.Waits (sharedPhase th)) :
    th.held = false ∧ th.shared = 0 ∧ th.waking = false := by
  obtain ⟨held, shared, pc⟩ := th
  have hout : ∀ {pc}, sharedResting ⟨held, shared, pc⟩ = some .out → held = false ∧ shared = 0 :=
    fun hout => sharedResting_out hout
  cases pc with
  | tryLock | tried | triedShared => exact (LockPhase.not_waits_none h).elim
  | idle => exact ⟨(hout (sharedResting_waiting h)).1, (hout (sharedResting_waiting h)).2, rfl⟩
  | lockFast | register | waitLoad | waitCas | waitFutex | sharedWaitLoad | sharedWaitCas | sharedWaitFutex =>
      exact ⟨(hout (LockPhase.Waits.of_ite h).1).1, (hout (LockPhase.Waits.of_ite h).1).2, rfl⟩
  | sharedLoad trying | sharedCas trying =>
      cases trying with
      | true => exact (LockPhase.not_waits_none h).elim
      | false => exact ⟨(hout (LockPhase.Waits.of_ite h).1).1, (hout (LockPhase.Waits.of_ite h).1).2, rfl⟩
  | unlockClear | unlockWake | unlockSharedSub | unlockSharedWake =>
      rcases (LockPhase.Waits.of_ite h).2 with h | ⟨mode, h⟩ <;> cases h

theorem shared_step {p : LockPhase SharedMode} {m : U32} (awake : s.asleep t = none)
    (hrun : SharedMutex.run s.mem (s.thread t) = some (m, th))
    (rest : ∀ s' : Config Tid U32 SharedMutex.Thread Unit, s'.asleep t = none → s'.mem = m → s'.thread t = th →
      (sharedMutexGuard Tid).Reaches s' t p) : (sharedMutexGuard Tid).Reaches s t p :=
  .step awake hrun rest

theorem shared_last {p : LockPhase SharedMode} {m : U32} (awake : s.asleep t = none)
    (hrun : SharedMutex.run s.mem (s.thread t) = some (m, th)) (hphase : sharedPhase th = some p) :
    (sharedMutexGuard Tid).Reaches s t p :=
  .last awake hrun hphase

/-! `unlock` and `unlock_shared` -/

theorem shared_wake {pc : SharedMutex.Pc} (awake : s.asleep t = none) (hthread : s.thread t = ⟨false, 0, pc⟩)
    (hwaking : pc = .unlockWake ∨ pc = .unlockSharedWake) : (sharedMutexGuard Tid).Reaches s t .out := by
  have hwake : (sharedMutexGuard Tid).code.wake (s.thread t) = some (futex.wakeAll () ⟨false, 0, .idle⟩) := by
    rw [hthread]
    rcases hwaking with rfl | rfl <;> rfl
  refine .wake (fun th => ?_) awake hwake rfl
  obtain ⟨held, shared, pc⟩ := th
  cases pc <;> rfl

theorem shared_finish (awake : s.asleep t = none) (h : sharedPhase (s.thread t) = some (.releasing mode)) :
    (sharedMutexGuard Tid).Reaches s t .out := by
  generalize hthread : s.thread t = th at h
  obtain ⟨held, shared, pc⟩ := th
  cases pc with
  | idle => cases sharedResting_quiet h
  | tryLock | tried | triedShared => cases h
  | sharedLoad trying | sharedCas trying =>
      cases trying with
      | true => cases h
      | false =>
          simp only [sharedPhase, Option.ite_none_right_eq_some] at h
          cases h.2
  | lockFast | register | waitLoad | waitCas | waitFutex | sharedWaitLoad | sharedWaitCas | sharedWaitFutex =>
      simp only [sharedPhase, Option.ite_none_right_eq_some] at h
      cases h.2
  | unlockWake | unlockSharedWake =>
      simp only [sharedPhase, Option.ite_none_right_eq_some] at h
      obtain ⟨rfl, rfl⟩ := sharedResting_out h.1
      exact shared_wake awake hthread (by simp)
  | unlockClear =>
      simp only [sharedPhase, Option.ite_none_right_eq_some] at h
      obtain ⟨rfl, rfl⟩ := sharedResting_exclusive h.1
      have hrun : SharedMutex.run s.mem (s.thread t) =
          some (s.mem &&& ~~~SharedMutex.writerLocked, ⟨false, 0, .unlockWake⟩) := by
        rw [hthread]
        rfl
      exact shared_step awake hrun fun s' awake' _ hthread' => shared_wake awake' hthread' (Or.inl rfl)
  | unlockSharedSub =>
      simp only [sharedPhase, Option.ite_none_right_eq_some] at h
      obtain ⟨rfl, rfl⟩ := sharedResting_shared h.1
      have hrun : SharedMutex.run s.mem (s.thread t) = some (s.mem - SharedMutex.readerIncrement,
          ⟨false, 0, if SharedMutex.lastReader s.mem then .unlockSharedWake else .idle⟩) := by
        rw [hthread]
        rfl
      split_ifs at hrun
      · exact shared_step awake hrun fun s' awake' _ hthread' => shared_wake awake' hthread' (Or.inr rfl)
      · exact shared_last awake hrun rfl

/-! `lock` -/

theorem shared_waitCas {current : U32} {spinCount backoff : ℕ} (awake : s.asleep t = none)
    (hthread : s.thread t = ⟨false, 0, .waitCas current spinCount backoff⟩) (hsame : s.mem = current) :
    (sharedMutexGuard Tid).Reaches s t (.holding .exclusive) := by
  have hrun : SharedMutex.run s.mem (s.thread t) =
      some ((current - SharedMutex.writerWaitingInc) ||| SharedMutex.writerLocked, ⟨true, 0, .idle⟩) := by
    rw [hthread]
    exact congrArg some (if_pos hsame)
  exact shared_last awake hrun rfl

theorem shared_waitLoad {spinCount backoff : ℕ} (awake : s.asleep t = none)
    (hthread : s.thread t = ⟨false, 0, .waitLoad spinCount backoff⟩)
    (hfree : s.mem.toNat % 2 = 0 ∧ s.mem.toNat / 65536 = 0) :
    (sharedMutexGuard Tid).Reaches s t (.holding .exclusive) := by
  have hrun : SharedMutex.run s.mem (s.thread t) =
      some (s.mem, ⟨false, 0, .waitCas s.mem spinCount backoff⟩) := by
    rw [hthread]
    simp only [SharedMutex.run, if_pos ((SharedMutex.noHolder_iff s.mem).mpr hfree)]
    rfl
  exact shared_step awake hrun fun s' awake' hmem hthread' => shared_waitCas awake' hthread' hmem

/-- A registered writer that is awake gets a lock that nobody holds. -/
theorem shared_grant_registered (hok : (s.thread t).Ok) (awake : s.asleep t = none)
    (hfree : s.mem.toNat % 2 = 0 ∧ s.mem.toNat / 65536 = 0) (hout : (s.thread t).held = false ∧ (s.thread t).shared = 0)
    (hreg : (s.thread t).registered = true) : (sharedMutexGuard Tid).Reaches s t (.holding .exclusive) := by
  generalize hthread : s.thread t = th at hok hout hreg
  obtain ⟨held, shared, pc⟩ := th
  obtain ⟨rfl, rfl⟩ := hout
  cases pc with
  | waitLoad => exact shared_waitLoad awake hthread hfree
  | waitCas current spinCount backoff =>
      by_cases hsame : s.mem = current
      · exact shared_waitCas awake hthread hsame
      · have hrun : SharedMutex.run s.mem (s.thread t) = some (s.mem, ⟨false, 0, .waitLoad spinCount backoff⟩) := by
          rw [hthread]
          exact congrArg some (if_neg hsame)
        exact shared_step awake hrun fun s' awake' hmem hthread' => shared_waitLoad awake' hthread' (hmem ▸ hfree)
  | waitFutex current =>
      have hchanged : s.mem ≠ current := by
        rintro rfl
        exact hok.waitFutex _ rfl hfree
      have hwait : (sharedMutexGuard Tid).code.wait (s.thread t) =
          some (futex.wait () id current ⟨false, 0, .waitLoad 0 spinInitial⟩) := by
        rw [hthread]
        rfl
      refine .ret awake hwait (decide_eq_false hchanged) fun s' awake' hmem hthread' => ?_
      exact shared_waitLoad awake' hthread' (hmem ▸ hfree)
  | _ => cases hreg

/-! `lock_shared` -/

theorem shared_sharedCas {current : U32} (awake : s.asleep t = none)
    (hthread : s.thread t = ⟨false, 0, .sharedCas false current⟩) (hsame : s.mem = current) :
    (sharedMutexGuard Tid).Reaches s t (.holding .shared) := by
  have hrun : SharedMutex.run s.mem (s.thread t) =
      some (current + SharedMutex.readerIncrement, ⟨false, 1, .idle⟩) := by
    rw [hthread]
    exact congrArg some (if_pos hsame)
  exact shared_last awake hrun rfl

/-- The test of a word that shows no writer. -/
theorem shared_test {trying : Bool} (hfree : s.mem.toNat % 65536 = 0) :
    SharedMutex.sharedTest trying s.mem = .sharedCas trying s.mem :=
  if_neg (not_not_intro ((SharedMutex.noWriter_iff s.mem).mpr hfree))

theorem shared_sharedWaitCas {current : U32} {spinCount backoff : ℕ} (awake : s.asleep t = none)
    (hthread : s.thread t = ⟨false, 0, .sharedWaitCas current spinCount backoff⟩) (hsame : s.mem = current) :
    (sharedMutexGuard Tid).Reaches s t (.holding .shared) := by
  have hrun : SharedMutex.run s.mem (s.thread t) =
      some (current + SharedMutex.readerIncrement, ⟨false, 1, .idle⟩) := by
    rw [hthread]
    exact congrArg some (if_pos hsame)
  exact shared_last awake hrun rfl

theorem shared_sharedWaitLoad {spinCount backoff : ℕ} (awake : s.asleep t = none)
    (hthread : s.thread t = ⟨false, 0, .sharedWaitLoad spinCount backoff⟩) (hfree : s.mem.toNat % 65536 = 0) :
    (sharedMutexGuard Tid).Reaches s t (.holding .shared) := by
  have hrun : SharedMutex.run s.mem (s.thread t) =
      some (s.mem, ⟨false, 0, .sharedWaitCas s.mem spinCount backoff⟩) := by
    rw [hthread]
    simp only [SharedMutex.run, if_pos ((SharedMutex.noWriter_iff s.mem).mpr hfree)]
    rfl
  exact shared_step awake hrun fun s' awake' hmem hthread' => shared_sharedWaitCas awake' hthread' hmem

/-- A reader that is awake gets a lock for which no writer waits. -/
theorem shared_grant_shared (hok : (s.thread t).Ok) (awake : s.asleep t = none) (hfree : s.mem.toNat % 65536 = 0)
    (h : sharedPhase (s.thread t) = some (.acquiring .shared)) :
    (sharedMutexGuard Tid).Reaches s t (.holding .shared) := by
  obtain ⟨hheld, hshared, -⟩ := shared_waiting (Or.inr ⟨_, h⟩)
  generalize hthread : s.thread t = th at hok h hheld hshared
  obtain ⟨held, shared, pc⟩ := th
  cases hheld
  cases hshared
  cases pc with
  | idle | tryLock | tried | triedShared => cases h
  | lockFast | register | waitLoad | waitCas | waitFutex | unlockClear | unlockWake | unlockSharedSub
  | unlockSharedWake =>
      simp only [sharedPhase, Option.ite_none_right_eq_some] at h
      cases h.2
  | sharedLoad trying =>
      cases trying with
      | true => cases h
      | false =>
          have hrun : SharedMutex.run s.mem (s.thread t) = some (s.mem, ⟨false, 0, .sharedCas false s.mem⟩) := by
            rw [hthread]
            simp only [SharedMutex.run, shared_test hfree]
            rfl
          exact shared_step awake hrun fun s' awake' hmem hthread' => shared_sharedCas awake' hthread' hmem
  | sharedCas trying current =>
      cases trying with
      | true => cases h
      | false =>
          by_cases hsame : s.mem = current
          · exact shared_sharedCas awake hthread hsame
          · have hrun : SharedMutex.run s.mem (s.thread t) = some (s.mem, ⟨false, 0, .sharedCas false s.mem⟩) := by
              rw [hthread]
              simp only [SharedMutex.run, if_neg hsame, shared_test hfree]
              rfl
            exact shared_step awake hrun fun s' awake' hmem hthread' => shared_sharedCas awake' hthread' hmem
  | sharedWaitLoad => exact shared_sharedWaitLoad awake hthread hfree
  | sharedWaitCas current spinCount backoff =>
      by_cases hsame : s.mem = current
      · exact shared_sharedWaitCas awake hthread hsame
      · have hrun : SharedMutex.run s.mem (s.thread t) =
            some (s.mem, ⟨false, 0, .sharedWaitLoad spinCount backoff⟩) := by
          rw [hthread]
          exact congrArg some (if_neg hsame)
        exact shared_step awake hrun fun s' awake' hmem hthread' =>
          shared_sharedWaitLoad awake' hthread' (hmem ▸ hfree)
  | sharedWaitFutex current =>
      have hchanged : s.mem ≠ current := by
        rintro rfl
        exact hok.sharedWaitFutex _ rfl hfree
      have hwait : (sharedMutexGuard Tid).code.wait (s.thread t) =
          some (futex.wait () id current ⟨false, 0, .sharedWaitLoad 0 spinInitial⟩) := by
        rw [hthread]
        rfl
      refine .ret awake hwait (decide_eq_false hchanged) fun s' awake' hmem hthread' => ?_
      exact shared_sharedWaitLoad awake' hthread' (hmem ▸ hfree)

/-- A writer that has not registered gets a lock that shows nobody. -/
theorem shared_grant_plain (awake : s.asleep t = none) (hzero : s.mem = 0)
    (h : sharedPhase (s.thread t) = some (.acquiring .exclusive)) (hreg : (s.thread t).registered = false) :
    (sharedMutexGuard Tid).Reaches s t (.holding .exclusive) := by
  obtain ⟨hheld, hshared, -⟩ := shared_waiting (Or.inr ⟨_, h⟩)
  generalize hthread : s.thread t = th at h hheld hshared hreg
  obtain ⟨held, shared, pc⟩ := th
  cases hheld
  cases hshared
  cases pc with
  | idle | tryLock | tried | triedShared => cases h
  | waitLoad | waitCas | waitFutex => cases hreg
  | sharedLoad trying | sharedCas trying =>
      cases trying with
      | true => cases h
      | false =>
          simp only [sharedPhase, Option.ite_none_right_eq_some] at h
          cases h.2
  | sharedWaitLoad | sharedWaitCas | sharedWaitFutex | unlockClear | unlockWake | unlockSharedSub
  | unlockSharedWake =>
      simp only [sharedPhase, Option.ite_none_right_eq_some] at h
      cases h.2
  | lockFast =>
      have hrun : SharedMutex.run s.mem (s.thread t) = some (SharedMutex.writerLocked, ⟨true, 0, .idle⟩) := by
        rw [hthread]
        exact congrArg some (if_pos hzero)
      exact shared_last awake hrun rfl
  | register =>
      have hrun : SharedMutex.run s.mem (s.thread t) =
          some (s.mem + SharedMutex.writerWaitingInc, ⟨false, 0, .waitLoad 0 spinInitial⟩) := by
        rw [hthread]
        rfl
      refine shared_step awake hrun fun s' awake' hmem hthread' => shared_waitLoad awake' hthread' ?_
      rw [hmem, hzero]
      decide

/-- A registered thread is a writer. -/
theorem shared_writer (h : LockPhase.Waits (sharedPhase th))
    (hreg : th.registered = true) : sharedPhase th = some (.acquiring .exclusive) := by
  obtain ⟨held, shared, pc⟩ := th
  cases pc with
  | waitLoad | waitCas | waitFutex => exact if_pos (LockPhase.Waits.of_ite h).1
  | _ => cases hreg

/-- While nobody holds or releases the lock, a thread that sleeps is behind a registered writer that is awake. -/
theorem shared_awake_writer {u : Tid} {a : Unit}
    (h : (SharedMutex.program Tid).machine.Reachable SharedMutex.withinLimits s)
    (hout : ∀ u, (s.thread u).held = false ∧ (s.thread u).shared = 0 ∧ (s.thread u).waking = false)
    (hsleep : s.asleep u = some a) : ∃ v, (s.thread v).registered = true ∧ s.asleep v = none := by
  rcases shared_attended h ⟨u, hsleep⟩ with ⟨v, hv⟩ | ⟨⟨v, hv⟩, -⟩ | ⟨v, hv⟩ | hawake
  · rw [(hout v).1] at hv
    cases hv
  · rw [(hout v).2.1] at hv
    exact absurd hv (lt_irrefl 0)
  · rw [(hout v).2.2] at hv
    cases hv
  · exact hawake

theorem sharedMutexGuard_finishing (hcard : Fintype.card Tid ≤ SharedMutex.maxWaitingWriters) :
    (sharedMutexGuard Tid).Finishing SharedFits where
  idle := by
    intro th p h hquiet
    obtain ⟨hidle, -⟩ := shared_idle h hquiet
    obtain ⟨held, shared, pc⟩ := th
    cases hidle
    exact ⟨fun _ _ => rfl, rfl⟩
  release := by
    intro t m th mode h
    obtain ⟨hidle, hin⟩ := shared_idle h rfl
    obtain ⟨held, shared, pc⟩ := th
    cases hidle
    cases mode with
    | exclusive =>
        obtain ⟨rfl, rfl⟩ := sharedResting_exclusive hin
        rfl
    | shared =>
        obtain ⟨rfl, rfl⟩ := sharedResting_shared hin
        rfl
  finish := by
    intro s t mode h _ ht
    refine ⟨t, mode, ht, shared_finish ?_ ht⟩
    cases hsleep : s.asleep t with
    | none => rfl
    | some a =>
        obtain ⟨w, hwait, -⟩ := Program.wait_of_asleep _ (fun _ => rfl) h hsleep
        generalize s.thread t = th at ht hwait
        obtain ⟨held, shared, pc⟩ := th
        cases pc with
        | waitFutex | sharedWaitFutex =>
            simp only [sharedMutexGuard, sharedPhase, Option.ite_none_right_eq_some] at ht
            cases ht.2
        | _ => cases hwait
  grant := by
    intro s t mode h hphases ht
    have hlimits : (SharedMutex.program Tid).machine.Reachable SharedMutex.withinLimits s :=
      h.mono fun hok => hok.2
    have hinv := SharedMutex.inv_of_reachable hlimits
    have hout : ∀ u, (s.thread u).held = false ∧ (s.thread u).shared = 0 ∧ (s.thread u).waking = false :=
      fun u => shared_waiting (hphases u)
    have hheld : count SharedMutex.Thread.held s.thread = 0 := count_eq_zero.mpr fun u => (hout u).1
    have hshared : tally SharedMutex.Thread.shared s.thread = 0 := tally_eq_zero.mpr fun u => (hout u).2.1
    by_cases hreg : ∃ u, (s.thread u).registered = true
    · obtain ⟨u, hu, awake⟩ : ∃ u, (s.thread u).registered = true ∧ s.asleep u = none := by
        obtain ⟨u, hu⟩ := hreg
        cases hsleep : s.asleep u with
        | none => exact ⟨u, hu, hsleep⟩
        | some a => exact shared_awake_writer hlimits hout hsleep
      have hfree : s.mem.toNat % 2 = 0 ∧ s.mem.toNat / 65536 = 0 :=
        ⟨hinv.mod_two.trans hheld, hinv.div_high.trans hshared⟩
      exact ⟨u, .exclusive, shared_writer (hphases u) hu,
        shared_grant_registered (hinv.ok u) awake hfree ⟨(hout u).1, (hout u).2.1⟩ hu⟩
    · have hnone : ∀ u, (s.thread u).registered = false := fun u => Bool.eq_false_iff.mpr fun hu => hreg ⟨u, hu⟩
      have hzero : s.mem = 0 := by
        have hword := hinv.word
        rw [hheld, hshared, count_eq_zero.mpr hnone] at hword
        exact (MachineWord.eq_zero_iff _).mpr hword
      have awake : s.asleep t = none := by
        cases hsleep : s.asleep t with
        | none => rfl
        | some a =>
            obtain ⟨v, hv, -⟩ := shared_awake_writer hlimits hout hsleep
            exact absurd ⟨v, hv⟩ hreg
      cases mode with
      | exclusive => exact ⟨t, _, ht, shared_grant_plain awake hzero ht (hnone t)⟩
      | shared => exact ⟨t, _, ht, shared_grant_shared (hinv.ok t) awake (by rw [hzero]; rfl) ht⟩
  fits := by
    intro s hphases
    refine ⟨?_, count_le_card.trans hcard⟩
    have hone : ∀ u, (s.thread u).shared ≤ 1 := fun u => (hphases u).elim fun _ hp => shared_le_one hp
    calc tally SharedMutex.Thread.shared s.thread ≤ tally (fun _ => 1) s.thread := tally_mono hone
      _ = Fintype.card Tid := by rw [tally, ← Finset.card_eq_sum_ones, Finset.card_univ]
      _ ≤ SharedMutex.maxReaders := hcard.trans (by decide)

end Psync.Batch
