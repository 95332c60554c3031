import Psync.BatonModel

/-! A posted baton leaves nobody asleep, as long as no `reset` wipes out the announcement of a sleeper.
The sleepers have compared the word with `kWaiting`; an exchange that ends that value is followed by a
wake for everybody. -/

namespace Psync.Baton

open Concurrency

set_option linter.unusedSectionVars false

variable {Tid : Type*} [DecidableEq Tid] [Fintype Tid] {s s' : State Tid}

theorem wait_eq_some {th : Thread} {c : WaitCall U32 Thread Unit} (h : wait th = some c) :
    ∃ timed, th.pc = .futexWait timed ∧ c = futex.wait () id kWaiting (th.at (.loop timed)) := by
  obtain ⟨passed, pc⟩ := th
  cases pc with
  | futexWait timed =>
      cases h
      exact ⟨timed, rfl, rfl⟩
  | _ => cases h

theorem wake_eq_some {th : Thread} {c : WakeCall Thread Unit} (h : wake th = some c) :
    c = futex.wakeAll () (th.at .idle) := by
  obtain ⟨passed, pc⟩ := th
  cases pc with
  | wakeAll =>
      cases h
      rfl
  | _ => cases h

theorem wakesAll : (program Tid).WakesAll Thread.waking where
  wait hwait := by
    obtain ⟨timed, hpc, -⟩ := wait_eq_some hwait
    rw [Thread.waking, hpc]
    rfl
  step := by
    rintro t l m ⟨passed, pc⟩ m' th' hstep
    cases pc with
    | wakeAll => cases l <;> cases hstep
    | _ => rfl
  wake hwake := by
    rw [wake_eq_some hwake]
    rfl
  requeue _ := rfl

/-- A step that ends the value `kWaiting` is a `reset`, or leads to a wake. -/
theorem run_waiting {th th' : Thread} {m : U32} (h : run kWaiting th = some (m, th')) :
    m = kWaiting ∨ th'.waking = true ∨ th.pc = .reset := by
  obtain ⟨passed, pc⟩ := th
  cases pc with
  | exchange =>
      cases h
      exact Or.inr (Or.inl rfl)
  | reset => exact Or.inr (Or.inr rfl)
  | idle | wakeAll | clock | futexWait timed => cases h
  | _ =>
      cases h
      exact Or.inl rfl

theorem step_waiting {l : Label} {th th' : Thread} {m : U32} (h : step l kWaiting th = some (m, th')) :
    m = kWaiting ∨ th'.waking = true ∨ l = .run ∧ th.pc = .reset := by
  cases l with
  | run => exact (run_waiting h).imp_right (Or.imp_right fun hpc => ⟨rfl, hpc⟩)
  | _ =>
      simp only [step] at h
      split_ifs at h
      all_goals
        cases h
        exact Or.inl rfl

theorem watched_of_reachable (h : (program Tid).machine.Reachable keepsAnnouncement s) :
    Watched (· = kWaiting) Thread.waking s := by
  refine h.induct Watched.init ?_
  intro s a s' _ ih hnext hok
  refine ih.next wakesAll hnext ?_ ?_
  · intro t c _ hwait holds
    obtain ⟨timed, -, rfl⟩ := wait_eq_some hwait
    exact eq_of_beq holds
  · rintro t l m th rfl hstep hsleep hwaiting
    rw [hwaiting] at hstep
    rcases step_waiting hstep with hsame | hwaking | ⟨rfl, hpc⟩
    · exact Or.inl hsame
    · exact Or.inr ⟨t, by rwa [Config.move_thread, Function.update_self]⟩
    · refine Or.inr (Watched.keep ?_ (hok hpc hwaiting hsleep))
      rw [Thread.waking, hpc]
      rfl

/-- In the runs in which no `reset` wipes out the announcement of a sleeper, whoever sleeps on a posted
baton is going to be woken. -/
theorem baton_wakes_waiters (h : (program Tid).machine.Reachable keepsAnnouncement s)
    (hready : s.mem = kReady) (hsleep : ∃ t, s.asleep t = some ()) :
    ∃ u, (s.thread u).waking = true := by
  refine (watched_of_reachable h hsleep).resolve_left fun hwaiting => ?_
  rw [hready] at hwaiting
  exact absurd hwaiting (by decide)

/-- The steps of `wait` up to its sleep on a baton that is not posted. -/
def waitRun (t : Runner) : List (Act Runner Label) :=
  .step t .wait :: List.replicate 35 (.step t .run) ++ [.sleep t]

/-- Threads `a` and `b` sleep, and `c` posts. -/
def postRun : List (Act Runner Label) :=
  waitRun .a ++ waitRun .b ++ [.step .c .post, .step .c .run]

theorem baton_wakes_waiters_posted : ∃ s : State Runner, s.mem = kReady ∧ s.asleep .a = some () ∧
    ∃ u, (s.thread u).waking = true :=
  let M := (program Runner).machine
  let s := (M.run keepsAnnouncement M.init postRun).get (by decide)
  ⟨s, by decide, by decide, baton_wakes_waiters (.of_run postRun _) (by decide) ⟨.a, by decide⟩⟩

/-- Thread `b` posts, and both find the baton posted. `a` resets it and waits again; then `b` resets it
and posts again. -/
def wipeRun : List (Act Runner Label) :=
  [.step .b .post, .step .b .run, .step .a .tryWait, .step .a .run, .step .b .tryWait, .step .b .run,
    .step .a .reset, .step .a .run] ++ waitRun .a ++
  [.step .b .reset, .step .b .run, .step .b .post, .step .b .run]

/-- Thread `a` sleeps on the posted baton, and all others are outside every call. -/
theorem baton_strands_waiter : ∃ s : State Runner, (program Runner).machine.Reachable anyStep s ∧
    s.mem = kReady ∧ s.asleep .a = some () ∧ ∀ u, (s.thread u).waking = false :=
  let M := (program Runner).machine
  ⟨(M.run anyStep M.init wipeRun).get (by decide), .of_run _ _, by decide, by decide, by decide⟩

end Psync.Baton
