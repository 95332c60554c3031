import Psync.MutexState

/-! The mutex loses no wakeup. A waiter goes to sleep only while the locked flag is set; whoever
clears the flag with waiters registered still owes a `futex::wake`, and that wake reaches a
registered waiter, which stays awake until it has acquired or has found the flag set again. -/

namespace Psync.Mutex

open Concurrency

set_option linter.unusedSectionVars false

variable {Tid : Type*}

/-- Somebody will look after the sleepers of a free mutex. -/
def Attended (s : Config Tid U32 Thread Unit) : Prop :=
  (∃ u, (s.thread u).waking = true) ∨
    ∃ u, (s.thread u).registered = true ∧ s.asleep u = none

structure Wakeup (s : Config Tid U32 Thread Unit) : Prop where
  sleeper : ∀ t, s.asleep t = some () → (s.thread t).registered = true
  attended : s.mem &&& lockedFlag = 0 → (∃ t, s.asleep t = some ()) → Attended s

variable [Fintype Tid] [DecidableEq Tid] {s : Config Tid U32 Thread Unit}

theorem sleeper_move {t : Tid} {m : U32} {th : Thread} (h : Wakeup s) (awake : s.asleep t = none) :
    ∀ u, (s.move t m th).asleep u = some () → ((s.move t m th).thread u).registered = true := by
  intro u hu
  rw [Config.move_asleep] at hu
  have hne : u ≠ t := by
    rintro rfl
    rw [awake] at hu
    cases hu
  rw [Config.move_thread, Function.update_of_ne hne]
  exact h.sleeper u hu

/-- A step of an awake thread that leaves it registered and keeps its pending wake keeps the care
for the sleepers. -/
theorem Attended.move {t : Tid} {m : U32} {th : Thread} (h : Attended s)
    (hwaking : (s.thread t).waking = false)
    (hreg : th.registered = (s.thread t).registered) : Attended (s.move t m th) := by
  rcases h with ⟨u, hu⟩ | ⟨u, hu, hawake⟩
  · have hne : u ≠ t := by
      rintro rfl
      rw [hwaking] at hu
      cases hu
    exact Or.inl ⟨u, by rwa [Config.move_thread, Function.update_of_ne hne]⟩
  · refine Or.inr ⟨u, ?_, hawake⟩
    rw [Config.move_thread, Function.update_apply]
    split_ifs with heq
    · rw [hreg, ← heq, hu]
    · exact hu

theorem Wakeup.move {t : Tid} {m : U32} {th : Thread} (h : Wakeup s) (hinv : Inv s)
    (hinv' : Inv (s.move t m th)) (awake : s.asleep t = none)
    (heff : Effect s.mem (s.thread t) m th) : Wakeup (s.move t m th) := by
  refine ⟨sleeper_move h awake, fun hfree hsleep => ?_⟩
  have hself : (s.move t m th).thread t = th := by rw [Config.move_thread, Function.update_self]
  have hlocked : th.held = true → (s.move t m th).mem &&& lockedFlag ≠ 0 :=
    fun hheld => hinv'.locked.mpr ⟨t, by rwa [hself]⟩
  cases heff with
  | keep held registered waking =>
      exact (h.attended hfree hsleep).move waking registered
  | acquire => exact absurd hfree (hlocked rfl)
  | acquireWaiter => exact absurd hfree (hlocked rfl)
  | register held out registered => exact Or.inr ⟨t, by rw [hself, registered], awake⟩
  | release only =>
      -- the fast path saw a word without waiters, so nobody is asleep
      obtain ⟨u, hu⟩ := hsleep
      have := hinv.two_le (h.sleeper u hu)
      omega
  | clear => exact Or.inl ⟨t, by rw [hself]; rfl⟩

theorem Wakeup.sleep {t : Tid} {w : WaitCall U32 Thread Unit} (h : Wakeup s) (hinv : Inv s)
    (hwait : (program Tid).wait (s.thread t) = some w) (holds : w.holds s.mem = true) :
    Wakeup (s.sleep t w.addr) := by
  obtain ⟨current, hpc, rfl⟩ := wait_eq_some hwait
  refine ⟨fun u hu => ?_, fun hfree _ => ?_⟩
  · rw [Config.sleep_asleep, Function.update_apply] at hu
    split_ifs at hu with heq
    · rw [Config.sleep_thread, heq, Thread.registered, hpc]
    · exact h.sleeper u hu
  · -- the kernel compared with a copy of the word that had the flag set
    have hodd := (hinv.ok t).waitFutex current hpc
    have hsame : s.mem = current := by simpa [futex.wait] using holds
    rw [Config.sleep_mem, locked_iff, hsame] at hfree
    omega

/-- A waiter that returns from `futex::wait` is awake and registered. -/
theorem attended_resume {woken : Finset Tid} {u : Tid} (hu : u ∈ woken)
    (hreg : (s.thread u).registered = true) : Attended ((program Tid).resume s woken) := by
  refine Or.inr ⟨u, ?_, ?_⟩
  · rw [Program.resume_same _ afterWait_registered, hreg]
  · rw [Program.resume_asleep, if_pos hu]

theorem sleeper_resume {woken : Finset Tid} (h : Wakeup s) :
    ∀ u, ((program Tid).resume s woken).asleep u = some () →
      s.asleep u = some () ∧ (((program Tid).resume s woken).thread u).registered = true := by
  intro u hu
  rw [Program.resume_asleep] at hu
  split_ifs at hu
  refine ⟨hu, ?_⟩
  rw [Program.resume_same _ afterWait_registered]
  exact h.sleeper u hu

theorem Wakeup.ret {t : Tid} {w : WaitCall U32 Thread Unit} (h : Wakeup s)
    (hwait : (program Tid).wait (s.thread t) = some w) :
    Wakeup ((program Tid).resume s {t}) := by
  obtain ⟨current, hpc, rfl⟩ := wait_eq_some hwait
  refine ⟨fun u hu => (sleeper_resume h u hu).2, fun _ _ => ?_⟩
  exact attended_resume (Finset.mem_singleton_self t) (by rw [Thread.registered, hpc])

/-- `futex::wake` reaches a sleeper if there is one. -/
theorem Wakeup.wake {t : Tid} {w : WakeCall Thread Unit} {woken : Finset Tid} (h : Wakeup s)
    (awake : s.asleep t = none) (hwake : (program Tid).wake (s.thread t) = some w)
    (chosen : Chosen w.count (s.sleepers w.addr) woken) :
    Wakeup (((program Tid).resume s woken).move t s.mem w.after) := by
  obtain ⟨hpc, rfl⟩ := wake_eq_some hwake
  have hsleeper : ∀ u, (((program Tid).resume s woken).move t s.mem ((s.thread t).at .idle)).asleep u
      = some () → u ≠ t ∧ s.asleep u = some () := by
    intro u hu
    have hs := (sleeper_resume h u hu).1
    refine ⟨?_, hs⟩
    rintro rfl
    rw [awake] at hs
    cases hs
  refine ⟨fun u hu => ?_, fun _ ⟨u, hu⟩ => ?_⟩
  · obtain ⟨hne, -⟩ := hsleeper u hu
    rw [Config.move_thread, Function.update_of_ne hne]
    exact (sleeper_resume h u hu).2
  · obtain ⟨v, hv⟩ := Chosen.nonempty_of_one chosen ⟨u, by simpa using (hsleeper u hu).2⟩
    have hvs : s.asleep v = some () := by simpa using chosen.1 hv
    have hne : v ≠ t := by
      rintro rfl
      rw [awake] at hvs
      cases hvs
    refine Or.inr ⟨v, ?_, ?_⟩
    · rw [Config.move_thread, Function.update_of_ne hne,
        Program.resume_same _ afterWait_registered]
      exact h.sleeper v hvs
    · rw [Config.move_asleep, Program.resume_asleep, if_pos hv]

theorem wakeup_of_reachable (hcard : Fintype.card Tid < 2 ^ 31)
    (h : (program Tid).machine.Reachable anyStep s) : Wakeup s := by
  refine h.induct ⟨nofun, fun _ ⟨_, ht⟩ => nomatch ht⟩ ?_
  intro s a s' hreach ih hnext _
  have hinv := inv_of_reachable hcard hreach
  have hinv' := inv_of_reachable hcard (hreach.next hnext trivial)
  cases Program.transition_of_next _ hnext with
  | step awake hstep =>
      exact ih.move hinv hinv' awake (effect_of_step (hinv.ok _) hstep).1
  | sleep awake hwait holds => exact ih.sleep hinv hwait holds
  | ret hwait => exact ih.ret hwait
  | wake awake hwake chosen => exact ih.wake awake hwake chosen
  | requeue awake hrequeue => cases hrequeue
  | refused awake hrequeue => cases hrequeue

/-- Whenever the flag is clear and a thread sleeps on `state_`, a wake is pending or a registered
waiter is awake; in particular the mutex is never free with every thread inside `lock` asleep and
no wake pending. -/
theorem no_lost_wakeup (hcard : Fintype.card Tid < 2 ^ 31)
    (h : (program Tid).machine.Reachable anyStep s) :
    (s.mem &&& lockedFlag = 0 → (∃ t, s.asleep t = some ()) →
      (∃ u, (s.thread u).waking = true) ∨
        ∃ u, (s.thread u).registered = true ∧ s.asleep u = none) ∧
    ¬ (s.mem &&& lockedFlag = 0 ∧ (∃ t, (s.thread t).locking = true) ∧
      (∀ t, (s.thread t).locking = true → s.asleep t = some ()) ∧
      ∀ u, (s.thread u).waking = false) := by
  have hw := wakeup_of_reachable hcard h
  refine ⟨hw.attended, ?_⟩
  rintro ⟨hfree, ⟨t, ht⟩, hall, hnone⟩
  rcases hw.attended hfree ⟨t, hall t ht⟩ with ⟨u, hu⟩ | ⟨u, hu, hawake⟩
  · rw [hnone u] at hu
    cases hu
  · have hsleep := hall u (Thread.locking_of_registered hu)
    rw [hawake] at hsleep
    cases hsleep

/-- Thread `b` sleeps, thread `a` has cleared the flag and has not woken it yet. -/
theorem no_lost_wakeup_pending : ∃ s : Config Runner U32 Thread Unit,
    s.mem &&& lockedFlag = 0 ∧ s.asleep .b = some () ∧
    ((∃ u, (s.thread u).waking = true) ∨ ∃ u, (s.thread u).registered = true ∧ s.asleep u = none) :=
  ⟨((program Runner).machine.run anyStep (program Runner).machine.init
      (contendedRun ++ [.step .a .unlock, .step .a .run, .step .a .run])).get (by decide),
    by decide, by decide,
    (no_lost_wakeup (by decide) (.of_run _ _)).1 (by decide) ⟨.b, by decide⟩⟩

end Psync.Mutex
