import Psync.SharedState

/-! The reader/writer lock strands no sleeper. A thread sleeps only on a word that shows a writer or,
for a writer, a reader; each way out of that situation passes through a `wake_all` or leaves a
registered writer awake. -/

namespace Psync.SharedMutex

open Concurrency

set_option linter.unusedSectionVars false

variable {Tid : Type*}

/-- Somebody will look after the sleepers: a writer that holds, a reader that holds with a writer
registered, a thread about to execute `wake_all`, or a registered writer that is awake. -/
def Attended (s : Config Tid U32 Thread Unit) : Prop :=
  (∃ u, (s.thread u).held = true) ∨
  ((∃ u, 0 < (s.thread u).shared) ∧ ∃ u, (s.thread u).registered = true) ∨
  (∃ u, (s.thread u).waking = true) ∨
  ∃ u, (s.thread u).registered = true ∧ s.asleep u = none

variable [Fintype Tid] [DecidableEq Tid] {s : Config Tid U32 Thread Unit}

/-- A thread other than the one that moves keeps what is true of it. -/
theorem exists_move {t : Tid} {m : U32} {th : Thread} {p : Thread → Prop} (h : ∃ u, p (s.thread u))
    (hp : p (s.thread t) → p th) : ∃ u, p ((s.move t m th).thread u) := by
  obtain ⟨u, hu⟩ := h
  refine ⟨u, ?_⟩
  rw [Config.move_thread, Function.update_apply]
  split_ifs with heq
  · exact hp (heq ▸ hu)
  · exact hu

theorem exists_resume {woken : Finset Tid} {p : Thread → Prop}
    (hp : ∀ th, p ((program Tid).afterWait th) = p th) (h : ∃ u, p (s.thread u)) :
    ∃ u, p (((program Tid).resume s woken).thread u) := by
  obtain ⟨u, hu⟩ := h
  exact ⟨u, by rwa [Program.resume_same (program Tid) hp s woken u]⟩

/-- A step that changes nothing but the position of an awake thread without a pending wake. -/
theorem Attended.keep {t : Tid} {m : U32} {th : Thread} (h : Attended s)
    (held : th.held = (s.thread t).held) (shared : th.shared = (s.thread t).shared)
    (registered : th.registered = (s.thread t).registered)
    (waking : (s.thread t).waking = false) : Attended (s.move t m th) := by
  have hreg : (∃ u, (s.thread u).registered = true) →
      ∃ u, ((s.move t m th).thread u).registered = true :=
    fun h => exists_move (p := fun th => th.registered = true) h fun ht => by rwa [registered]
  rcases h with h | ⟨hr, hw⟩ | h | ⟨u, hu, hawake⟩
  · exact Or.inl (exists_move (p := fun th => th.held = true) h fun ht => by rwa [held])
  · refine Or.inr (Or.inl ⟨?_, hreg hw⟩)
    exact exists_move (p := fun th => 0 < th.shared) hr fun ht => by rwa [shared]
  · refine Or.inr (Or.inr (Or.inl ?_))
    refine exists_move (p := fun th => th.waking = true) h fun ht => ?_
    rw [waking] at ht
    cases ht
  · refine Or.inr (Or.inr (Or.inr ⟨u, ?_, hawake⟩))
    rw [Config.move_thread, Function.update_apply]
    split_ifs with heq
    · rw [registered, ← heq, hu]
    · exact hu

/-- With no writer holding or registered, only a pending `wake_all` looks after the sleepers. -/
theorem Attended.waking (h : Attended s) (hheld : count Thread.held s.thread = 0)
    (hreg : count Thread.registered s.thread = 0) : ∃ u, (s.thread u).waking = true := by
  have hnone := count_eq_zero.mp hreg
  rcases h with ⟨u, hu⟩ | ⟨-, u, hu⟩ | h | ⟨u, hu, -⟩
  · rw [count_eq_zero.mp hheld u] at hu
    cases hu
  · rw [hnone u] at hu
    cases hu
  · exact h
  · rw [hnone u] at hu
    cases hu

theorem Attended.move {t : Tid} {m : U32} {th : Thread} (h : Attended s) (hinv : Inv s)
    (heff : Effect s.mem (s.thread t) m th) (awake : s.asleep t = none) :
    Attended (s.move t m th) := by
  have hself : (s.move t m th).thread t = th := by rw [Config.move_thread, Function.update_self]
  have hother : (s.thread t).waking = false → (∃ u, (s.thread u).waking = true) →
      Attended (s.move t m th) := by
    intro hquiet hw
    refine Or.inr (Or.inr (Or.inl (exists_move (p := fun th => th.waking = true) hw fun ht => ?_)))
    rw [hquiet] at ht
    cases ht
  cases heff with
  | keep held shared registered waking => exact h.keep held shared registered waking
  | acquire => exact Or.inl ⟨t, by rw [hself, Thread.own_held]⟩
  | acquireWaiter => exact Or.inl ⟨t, by rw [hself, Thread.own_held]⟩
  | register held shared out registered =>
      exact Or.inr (Or.inr (Or.inr ⟨t, by rw [hself, registered], awake⟩))
  | unlock held held' shared registered registered' waking waking' =>
      exact Or.inr (Or.inr (Or.inl ⟨t, by rw [hself, waking']⟩))
  | share free after registered waking =>
      rw [hinv.mod_low] at free
      exact hother waking (h.waking (by omega) (by omega))
  | unshare held shared registered registered' waking waking' =>
      have hmine := le_tally (w := Thread.shared) (f := s.thread) t
      have hheld : count Thread.held s.thread = 0 := by
        have := hinv.excludes
        omega
      by_cases hwriters : count Thread.registered s.thread = 0
      · exact hother waking (h.waking hheld hwriters)
      · -- a writer waits: either this was the last reader and it wakes everybody, or one remains
        obtain ⟨v, hv⟩ := count_pos.mp (Nat.pos_of_ne_zero hwriters)
        have hv' : ((s.move t (s.mem - readerIncrement) th).thread v).registered = true := by
          have hne : v ≠ t := by
            rintro rfl
            rw [registered] at hv
            cases hv
          rwa [Config.move_thread, Function.update_of_ne hne]
        by_cases hlast : lastReader s.mem = true
        · exact Or.inr (Or.inr (Or.inl ⟨t, by rw [hself, waking', hlast]⟩))
        · rw [lastReader_iff, hinv.div_high, hinv.mod_low] at hlast
          have hsub := tally_update (w := Thread.shared) (f := s.thread) t th
          have hmore : tally Thread.shared (Function.update s.thread t th) ≠ 0 := by omega
          rw [ne_eq, tally_eq_zero] at hmore
          push Not at hmore
          obtain ⟨u, hu⟩ := hmore
          exact Or.inr (Or.inl ⟨⟨u, Nat.pos_of_ne_zero hu⟩, v, hv'⟩)

/-- The kernel lets a thread sleep only on the word it has examined. -/
theorem attended_sleep {t : Tid} {w : WaitCall U32 Thread Unit}
    (h : (∃ u, s.asleep u = some ()) → Attended s) (hinv : Inv s)
    (hwait : (program Tid).wait (s.thread t) = some w) (holds : w.holds s.mem = true) :
    Attended (s.sleep t w.addr) := by
  have hreaders := hinv.div_high
  have hlow := hinv.mod_low
  have hword := hinv.mod_two
  rcases wait_eq_some hwait with ⟨current, hpc, rfl⟩ | ⟨current, hpc, rfl⟩
  · -- a writer saw another holder, and it is registered itself
    have hsame : s.mem = current := by simpa [futex.wait] using holds
    have hblocked := (hinv.ok t).waitFutex current hpc
    rw [← hsame, hword, hreaders] at hblocked
    by_cases hheld : count Thread.held s.thread = 0
    · have hmore : tally Thread.shared s.thread ≠ 0 := fun hz => hblocked ⟨hheld, hz⟩
      rw [ne_eq, tally_eq_zero] at hmore
      push Not at hmore
      obtain ⟨u, hu⟩ := hmore
      refine Or.inr (Or.inl ⟨⟨u, Nat.pos_of_ne_zero hu⟩, t, ?_⟩)
      rw [Config.sleep_thread, Thread.registered, hpc]
    · exact Or.inl (count_pos.mp (Nat.pos_of_ne_zero hheld))
  · -- a reader saw a writer that holds or waits
    have hsame : s.mem = current := by simpa [futex.wait] using holds
    have hblocked := (hinv.ok t).sharedWaitFutex current hpc
    rw [← hsame, hlow] at hblocked
    by_cases hheld : count Thread.held s.thread = 0
    · obtain ⟨u, hu⟩ := count_pos.mp (show 0 < count Thread.registered s.thread by omega)
      have hkeep : ∀ v, (s.thread v).registered = true → s.asleep v = none →
          Attended (s.sleep t ()) := by
        intro v hv hawake
        have hne : v ≠ t := by
          rintro rfl
          rw [Thread.registered, hpc] at hv
          cases hv
        exact Or.inr (Or.inr (Or.inr ⟨v, hv, by
          rwa [Config.sleep_asleep, Function.update_of_ne hne]⟩))
      cases hasleep : s.asleep u with
      | none => exact hkeep u hu hasleep
      | some a =>
          rcases h ⟨u, hasleep⟩ with h1 | h2 | h3 | ⟨v, hv, hawake⟩
          · exact Or.inl h1
          · exact Or.inr (Or.inl h2)
          · exact Or.inr (Or.inr (Or.inl h3))
          · exact hkeep v hv hawake
    · exact Or.inl (count_pos.mp (Nat.pos_of_ne_zero hheld))

theorem Attended.resume (h : Attended s) (woken : Finset Tid) :
    Attended ((program Tid).resume s woken) := by
  have hreg : (∃ u, (s.thread u).registered = true) →
      ∃ u, (((program Tid).resume s woken).thread u).registered = true :=
    exists_resume (p := fun th => th.registered = true) fun th => by rw [afterWait_registered]
  rcases h with h | ⟨hr, hw⟩ | h | ⟨u, hu, hawake⟩
  · exact Or.inl (exists_resume (p := fun th => th.held = true)
      (fun th => by rw [afterWait_held]) h)
  · exact Or.inr (Or.inl ⟨exists_resume (p := fun th => 0 < th.shared)
      (fun th => by rw [afterWait_shared]) hr, hreg hw⟩)
  · exact Or.inr (Or.inr (Or.inl (exists_resume (p := fun th => th.waking = true)
      (fun th => by rw [afterWait_waking]) h)))
  · refine Or.inr (Or.inr (Or.inr ⟨u, ?_, ?_⟩))
    · rw [Program.resume_same _ afterWait_registered, hu]
    · rw [Program.resume_asleep, hawake, ite_self]

/-- In every reachable state in which a reader or writer sleeps on `state_`, somebody is going to
wake it. -/
theorem no_stranded_sleeper (h : (program Tid).machine.Reachable withinLimits s)
    (hsleep : ∃ t, s.asleep t = some ()) :
    (∃ u, (s.thread u).held = true) ∨
    ((∃ u, 0 < (s.thread u).shared) ∧ ∃ u, (s.thread u).registered = true) ∨
    (∃ u, (s.thread u).waking = true) ∨
    ∃ u, (s.thread u).registered = true ∧ s.asleep u = none := by
  refine h.induct (I := fun s => (∃ t, s.asleep t = some ()) → Attended s)
    (fun ⟨_, ht⟩ => nomatch ht) ?_ hsleep
  intro s a s' hreach ih hnext _ ⟨u, hu⟩
  have hinv := inv_of_reachable hreach
  cases Program.transition_of_next _ hnext with
  | step awake hstep =>
      exact (ih ⟨u, hu⟩).move hinv (effect_of_step (hinv.ok _) hstep).1 awake
  | sleep awake hwait holds => exact attended_sleep ih hinv hwait holds
  | ret hwait =>
      rw [Program.resume_asleep] at hu
      split_ifs at hu
      exact (ih ⟨u, hu⟩).resume _
  | wake awake hwake chosen =>
      -- `wake_all` leaves nobody asleep
      obtain ⟨-, -, rfl⟩ := wake_eq_some hwake
      rw [Config.move_asleep, Program.resume_asleep, Chosen.all chosen] at hu
      split_ifs at hu with hmem
      exact absurd ((Config.mem_sleepers s).mpr hu) hmem
  | requeue awake hrequeue => cases hrequeue
  | refused awake hrequeue => cases hrequeue

/-- Thread `c`, a reader, sleeps behind the writer that waits for thread `a` to stop reading. -/
theorem no_stranded_sleeper_reader : ∃ s : Config Runner U32 Thread Unit,
    s.asleep .c = some () ∧
    ((∃ u, (s.thread u).held = true) ∨
    ((∃ u, 0 < (s.thread u).shared) ∧ ∃ u, (s.thread u).registered = true) ∨
    (∃ u, (s.thread u).waking = true) ∨
    ∃ u, (s.thread u).registered = true ∧ s.asleep u = none) :=
  ⟨((program Runner).machine.run withinLimits (program Runner).machine.init
      (preferredRun ++ [.step .c .lockShared] ++ List.replicate 5 (.step .c .run) ++
        [.sleep .c])).get (by decide),
    by decide, no_stranded_sleeper (.of_run _ _) ⟨.c, by decide⟩⟩

end Psync.SharedMutex
