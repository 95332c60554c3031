import Psync.RunFutex

/-! Programs in which every wake is for everybody. All threads sleep on one word; a thread falls asleep
only while `blocked` holds of the memory, and whoever ends that state calls `futex::wake_all` before
anything else. -/

namespace Concurrency

/-- Nobody sleeps but while `blocked`, or until the wake of a thread at `waking`. -/
def Watched {Tid M Th : Type*} (blocked : M → Prop) (waking : Th → Bool) (s : Config Tid M Th Unit) : Prop :=
  (∃ t, s.asleep t = some ()) → blocked s.mem ∨ ∃ u, waking (s.thread u) = true

/-- The calls into the kernel: a thread at `waking` can only wake, and a wake is for every sleeper. -/
structure Program.WakesAll {Tid M Th L : Type*} (P : Program Tid M Th Unit L) (waking : Th → Bool) :
    Prop where
  wait : ∀ {th w}, P.wait th = some w → waking th = false
  step : ∀ {t l m th m' th'}, P.step t l m th = some (m', th') → waking th = false
  wake : ∀ {th w}, P.wake th = some w → w.count = none
  requeue : ∀ th, P.requeue th = none

variable {Tid M Th L : Type*} [DecidableEq Tid] {P : Program Tid M Th Unit L} {blocked : M → Prop}
  {waking : Th → Bool} {s s' : Config Tid M Th Unit} {a : Act Tid L}

/-- The wake that others wait for stays pending when thread `t` moves. -/
theorem Watched.keep {t : Tid} {m : M} {th : Th} (hwaking : waking (s.thread t) = false)
    (h : ∃ u, waking (s.thread u) = true) : ∃ u, waking ((s.move t m th).thread u) = true := by
  obtain ⟨u, hu⟩ := h
  have hut : u ≠ t := by
    rintro rfl
    rw [hwaking] at hu
    cases hu
  exact ⟨u, by rwa [Config.move_thread, Function.update_of_ne hut]⟩

variable [Fintype Tid]

theorem Watched.init : Watched blocked waking P.machine.init := fun ⟨_, ht⟩ => nomatch ht

/-- After a wake for everybody nobody sleeps. -/
theorem not_asleep_of_wake {t u : Tid} {w : WakeCall Th Unit} {woken : Finset Tid} {th : Th}
    (hall : w.count = none) (chosen : Chosen w.count (s.sleepers w.addr) woken) :
    ((P.resume s woken).move t s.mem th).asleep u = none := by
  rw [hall] at chosen
  rw [Config.move_asleep, Program.resume_asleep, chosen.all]
  split_ifs with hu
  · rfl
  · cases hsleep : s.asleep u with
    | none => rfl
    | some x => exact absurd (s.mem_sleepers.mpr hsleep) hu

/-- The rule: the compare of a wait fails unless `blocked`, and a step of the code that ends the blocked
state while somebody sleeps leads to a wake. -/
theorem Watched.next (h : Watched blocked waking s) (hP : P.WakesAll waking)
    (hnext : P.machine.next s a = some s')
    (hsleep : ∀ {t w}, a = .sleep t → P.wait (s.thread t) = some w → w.holds s.mem = true → blocked s.mem)
    (hstep : ∀ {t l m th}, a = .step t l → P.step t l s.mem (s.thread t) = some (m, th) →
      (∃ u, s.asleep u = some ()) → blocked s.mem →
        blocked m ∨ ∃ u, waking ((s.move t m th).thread u) = true) :
    Watched blocked waking s' := by
  cases P.transition_of_next hnext with
  | step awake hcode =>
      intro hasleep
      rcases h hasleep with hblocked | hwaking
      · exact hstep rfl hcode hasleep hblocked
      · exact Or.inr (Watched.keep (hP.step hcode) hwaking)
  | sleep awake hwait holds => exact fun _ => Or.inl (hsleep rfl hwait holds)
  | @ret t w hwait =>
      rintro ⟨u, hu⟩
      rw [Program.resume_asleep] at hu
      split_ifs at hu
      refine (h ⟨u, hu⟩).imp_right ?_
      rintro ⟨v, hv⟩
      have hvt : v ≠ t := by
        rintro rfl
        rw [hP.wait hwait] at hv
        cases hv
      exact ⟨v, by rwa [Program.resume_thread, if_neg (by simpa using hvt)]⟩
  | wake awake hwake chosen =>
      rintro ⟨u, hu⟩
      rw [not_asleep_of_wake (hP.wake hwake) chosen] at hu
      cases hu
  | requeue awake hrequeue => rw [hP.requeue] at hrequeue; cases hrequeue
  | refused awake hrequeue => rw [hP.requeue] at hrequeue; cases hrequeue

end Concurrency
