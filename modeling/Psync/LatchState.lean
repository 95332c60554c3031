import Psync.LatchModel

/-! The latch opens when the decrements reach the count, as long as none takes more than is left. An
amount that is larger wraps the word around: the threads are woken, find it nonzero, and sleep again. -/

namespace Psync.Latch

open Concurrency

set_option linter.unusedSectionVars false

variable {Tid : Type*} [DecidableEq Tid] [Fintype Tid] {count : U32} {s s' : State Tid} {t : Tid}
  {m : U32} {pc : Pc} {h n : ℕ}

/-! ### What a step can do -/

/-- The value of the word with which a thread is going to sleep. -/
def Pc.expects : Pc → Option U32
  | .clock current | .futexWait _ current => some current
  | _ => none

/-- A step on the word, and the amount that it takes. -/
inductive Effect (m : U32) (pc : Pc) : U32 → Pc → ℕ → Prop
  | keep {pc' : Pc} (expects : pc'.expects ≠ some 0) : Effect m pc m pc' 0
  | sub {n : U32} {joins : Bool} (hpc : pc = .fetchSub n joins) :
      Effect m pc (m - n) (if m ≤ n then .wakeAll joins else afterCountDown joins) n.toNat

theorem Effect.out {pc' : Pc} (hnone : pc'.expects = none) : Effect m pc m pc' 0 :=
  .keep (by rw [hnone]; exact nofun)

/-- What the history and the condition of the runs make of the step. -/
def Counts (s s' : State Tid) (h : ℕ) (a : Act Tid Label) (n : ℕ) : Prop :=
  record h s a s' = h + n ∧ (covered s a s' ↔ n ≤ s.mem.toNat)

theorem Counts.run (hpc : ∀ n joins, s.thread t ≠ .fetchSub n joins) :
    Counts s s' h (.step t .run) 0 := by
  have hcovered : covered s (.step t .run) s' := by
    rw [covered]
    split
    · rename_i n joins heq
      exact absurd heq (hpc n joins)
    · trivial
  refine ⟨?_, iff_of_true hcovered (Nat.zero_le _)⟩
  rw [record]
  split
  · rename_i n joins heq
    exact absurd heq (hpc n joins)
  · rfl

theorem effect_of_run (hstep : run s.mem (s.thread t) = some (m, pc)) :
    ∃ n, Effect s.mem (s.thread t) m pc n ∧ Counts s s' h (.step t .run) n := by
  cases hpc : s.thread t with
  | fetchSub n joins =>
      rw [hpc] at hstep
      cases hstep
      refine ⟨_, .sub rfl, by rw [record, hpc], ?_⟩
      rw [covered, hpc]
      exact Iff.rfl
  | tryWait =>
      rw [hpc] at hstep
      cases hstep
      exact ⟨0, .out rfl, .run fun _ _ hsub => by cases hpc.symm.trans hsub⟩
  | load =>
      rw [hpc] at hstep
      cases hstep
      refine ⟨0, .out ?_, .run fun _ _ hsub => by cases hpc.symm.trans hsub⟩
      split_ifs <;> rfl
  | loop timed =>
      rw [hpc] at hstep
      simp only [Latch.run, Option.some.injEq, Prod.mk.injEq] at hstep
      obtain ⟨rfl, rfl⟩ := hstep
      refine ⟨0, ?_, .run fun _ _ hsub => by cases hpc.symm.trans hsub⟩
      split_ifs with hzero htimed
      · exact .out rfl
      · exact .keep fun heq => hzero (Option.some.inj heq)
      · exact .keep fun heq => hzero (Option.some.inj heq)
  | idle | wakeAll joins | clock current | futexWait timed current =>
      rw [hpc] at hstep
      cases hstep

theorem effect_of_step {l : Label} (s' : State Tid) (h : ℕ) (hexpects : (s.thread t).expects ≠ some 0)
    (hstep : step l s.mem (s.thread t) = some (m, pc)) :
    ∃ n, Effect s.mem (s.thread t) m pc n ∧ Counts s s' h (.step t l) n := by
  cases l with
  | run => exact effect_of_run hstep
  | now expired =>
      cases hpc : s.thread t with
      | clock current =>
          rw [hpc] at hstep hexpects
          cases hstep
          refine ⟨0, ?_, rfl, iff_of_true trivial (Nat.zero_le _)⟩
          split_ifs
          · exact .out rfl
          · exact .keep hexpects
      | _ =>
          rw [hpc] at hstep
          cases hstep
  | _ =>
      simp only [step] at hstep
      split_ifs at hstep
      cases hstep
      exact ⟨0, .out rfl, rfl, iff_of_true trivial (Nat.zero_le _)⟩

theorem afterCountDown_expects (joins : Bool) : (afterCountDown joins).expects = none := by
  cases joins <;> rfl

theorem Effect.expects (heff : Effect s.mem (s.thread t) m pc n) : pc.expects ≠ some 0 := by
  cases heff with
  | keep expects => exact expects
  | sub hpc =>
      split_ifs
      · exact nofun
      · rw [afterCountDown_expects]
        exact nofun

/-- The decrement that reaches zero is the one that wakes. -/
theorem Effect.watched (heff : Effect s.mem (s.thread t) m pc n) (hne : s.mem ≠ 0) :
    m ≠ 0 ∨ pc.waking = true := by
  cases heff with
  | keep expects => exact Or.inl hne
  | @sub n joins hpc =>
      split_ifs with hle
      · exact Or.inr rfl
      · refine Or.inl fun hzero => hle ?_
        bv_omega

theorem Effect.left (heff : Effect s.mem (s.thread t) m pc n)
    (hn : n ≤ s.mem.toNat) : m.toNat + n = s.mem.toNat := by
  cases heff with
  | keep expects => rfl
  | sub hpc =>
      rw [BitVec.toNat_sub_of_le hn]
      exact Nat.sub_add_cancel hn

/-- An amount that is larger than what is left leaves the latch closed. -/
theorem Effect.wraps (heff : Effect s.mem (s.thread t) m pc n) (hn : s.mem.toNat < n) : m ≠ 0 := by
  cases heff with
  | keep expects => exact absurd hn (Nat.not_lt_zero _)
  | sub hpc =>
      intro hzero
      bv_omega

theorem wait_eq_some {c : WaitCall U32 Pc Unit} (hwait : wait pc = some c) :
    ∃ timed current, pc = .futexWait timed current ∧ c = futex.wait () id current (.loop timed) := by
  cases pc with
  | futexWait timed current =>
      cases hwait
      exact ⟨timed, current, rfl, rfl⟩
  | _ => cases hwait

theorem wake_eq_some {c : WakeCall Pc Unit} (hwake : wake pc = some c) :
    ∃ joins, pc = .wakeAll joins ∧ c = futex.wakeAll () (afterCountDown joins) := by
  cases pc with
  | wakeAll joins =>
      cases hwake
      exact ⟨joins, rfl, rfl⟩
  | _ => cases hwake

theorem wakesAll : (program Tid count).WakesAll Pc.waking where
  wait hwait := by
    obtain ⟨timed, current, rfl, -⟩ := wait_eq_some hwait
    rfl
  step := by
    intro t l m pc m' pc' hstep
    cases pc with
    | wakeAll joins => cases l <;> cases hstep
    | _ => rfl
  wake hwake := by
    obtain ⟨joins, -, rfl⟩ := wake_eq_some hwake
    rfl
  requeue _ := rfl

/-! ### The invariant -/

structure Inv (count : U32) (s : State Tid) (h : ℕ) : Prop where
  left : s.mem.toNat + h = count.toNat
  expects : ∀ t, (s.thread t).expects ≠ some 0
  watched : Watched (· ≠ 0) Pc.waking s

theorem Inv.init : Inv count (program Tid count).machine.init 0 where
  left := rfl
  expects _ h := nomatch h
  watched := Watched.init

theorem afterWait_expects (pc : Pc) (h : pc.expects ≠ some 0) :
    ((program Tid count).afterWait pc).expects ≠ some 0 := by
  cases pc with
  | futexWait timed current => exact nofun
  | _ => exact h

/-- No step makes a thread expect zero. -/
theorem Inv.expects_next {a : Act Tid Label} (hinv : Inv count s h)
    (hnext : (program Tid count).machine.next s a = some s') (u : Tid) : (s'.thread u).expects ≠ some 0 := by
  have hresume : ∀ woken u, (((program Tid count).resume s woken).thread u).expects ≠ some 0 := by
    intro woken u
    rw [Program.resume_thread]
    split_ifs
    · exact afterWait_expects _ (hinv.expects u)
    · exact hinv.expects u
  cases Program.transition_of_next _ hnext with
  | @step t l m pc awake hstep =>
      obtain ⟨n, heff, -⟩ := effect_of_step s h (hinv.expects t) hstep
      rw [Config.move_thread, Function.update_apply]
      split_ifs
      · exact heff.expects
      · exact hinv.expects u
  | sleep awake hwait holds => exact hinv.expects u
  | ret hwait => exact hresume _ u
  | wake awake hwake chosen =>
      obtain ⟨joins, -, rfl⟩ := wake_eq_some hwake
      rw [Config.move_thread, Function.update_apply]
      split_ifs
      · rw [futex.wakeAll, afterCountDown_expects]
        exact nofun
      · exact hresume _ u
  | requeue awake hrequeue => cases hrequeue
  | refused awake hrequeue => cases hrequeue

theorem Inv.watched_next {a : Act Tid Label} (hinv : Inv count s h)
    (hnext : (program Tid count).machine.next s a = some s') : Watched (· ≠ 0) Pc.waking s' := by
  refine hinv.watched.next wakesAll hnext ?_ ?_
  · intro t c _ hwait holds
    obtain ⟨timed, current, hpc, rfl⟩ := wait_eq_some hwait
    have hsame : s.mem = current := eq_of_beq holds
    intro hzero
    refine hinv.expects t ?_
    rw [hpc, ← hzero, hsame]
    rfl
  · intro t l m pc _ hstep _ hne
    obtain ⟨n, heff, -⟩ := effect_of_step s h (hinv.expects t) hstep
    refine (heff.watched hne).imp_right fun hwaking => ⟨t, ?_⟩
    rwa [Config.move_thread, Function.update_self]

variable {x x' : State Tid × ℕ} {a : Act Tid Label}

/-- A step of the code takes its amount from the word; the others leave the word and the sum. -/
theorem step_or_same (hinv : Inv count x.1 x.2) (hnext : (observed Tid count).next x a = some x') :
    (∃ t m pc n, Effect x.1.mem (x.1.thread t) m pc n ∧ x'.1.mem = m ∧ x'.2 = x.2 + n ∧
      (covered x.1 a x'.1 ↔ n ≤ x.1.mem.toNat)) ∨
    x'.1.mem = x.1.mem ∧ x'.2 = x.2 ∧ covered x.1 a x'.1 := by
  obtain ⟨hmove, hrecord⟩ := Machine.observe_next hnext
  rw [hrecord]
  generalize x'.1 = s' at hmove
  cases Program.transition_of_next _ hmove with
  | @step t l m pc awake hstep =>
      obtain ⟨n, heff, hsum, hok⟩ := effect_of_step _ _ (hinv.expects t) hstep
      exact Or.inl ⟨t, m, pc, n, heff, rfl, hsum, hok⟩
  | sleep awake hwait holds => exact Or.inr ⟨rfl, rfl, trivial⟩
  | ret hwait => exact Or.inr ⟨rfl, rfl, trivial⟩
  | wake awake hwake chosen => exact Or.inr ⟨rfl, rfl, trivial⟩
  | requeue awake hrequeue => cases hrequeue
  | refused awake hrequeue => cases hrequeue

theorem Inv.next (hinv : Inv count x.1 x.2) (hnext : (observed Tid count).next x a = some x')
    (hok : covered x.1 a x'.1) : Inv count x'.1 x'.2 where
  left := by
    have hleft := hinv.left
    rcases step_or_same hinv hnext with ⟨t, m, pc, n, heff, hmem, hsum, hcovered⟩ | ⟨hmem, hsum, -⟩
    · have := heff.left (hcovered.mp hok)
      rw [hmem, hsum]
      omega
    · rw [hmem, hsum, hleft]
  expects := hinv.expects_next (Machine.observe_next hnext).1
  watched := hinv.watched_next (Machine.observe_next hnext).1

theorem inv_of_reachable (h : (observed Tid count).Reachable (fun x a x' => covered x.1 a x'.1) x) :
    Inv count x.1 x.2 :=
  h.induct (I := fun x => Inv count x.1 x.2) Inv.init fun _ ih hnext hok => ih.next hnext hok

/-- In the runs in which no `count_down` takes more than is left, the latch is open from the step on at
which the decrements reach the count, and then nobody sleeps but until a wake that is to come. A
`count_down` that takes more leaves the latch closed. -/
theorem latch_opens (h : (observed Tid count).Reachable (fun x a x' => covered x.1 a x'.1) x) :
    opened x.1 = decide (count.toNat ≤ x.2) ∧
    (opened x.1 = true → (∃ t, x.1.asleep t = some ()) → ∃ u, (x.1.thread u).waking = true) ∧
    ∀ a x', (observed Tid count).next x a = some x' → ¬ covered x.1 a x'.1 →
      count.toNat ≤ x'.2 ∧ opened x'.1 = false := by
  have hinv := inv_of_reachable h
  have hleft := hinv.left
  refine ⟨?_, fun hopen hsleep => ?_, fun a x' hnext hnot => ?_⟩
  · rw [opened, decide_eq_decide, BitVec.toNat_eq]
    change x.1.mem.toNat = 0 ↔ count.toNat ≤ x.2
    omega
  · exact (hinv.watched hsleep).resolve_left fun hne => hne (of_decide_eq_true hopen)
  · rcases step_or_same hinv hnext with ⟨t, m, pc, n, heff, hmem, hsum, hcovered⟩ | ⟨-, -, hcovered⟩
    · have hlt : x.1.mem.toNat < n := by
        rw [hcovered] at hnot
        exact Nat.lt_of_not_le hnot
      refine ⟨by omega, decide_eq_false ?_⟩
      rw [hmem]
      exact heff.wraps hlt
    · exact absurd hcovered hnot

/-- Thread `a` sleeps, and `b` takes the last one and has not woken it yet. -/
def lastRun : List (Act Runner Label) :=
  [.step .a .wait, .step .a .run, .sleep .a, .step .b (.countDown 2), .step .b .run]

theorem latch_opens_waking : ∃ x : State Runner × ℕ, x.2 = 2 ∧ opened x.1 = true ∧
    x.1.asleep .a = some () ∧ ∃ u, (x.1.thread u).waking = true :=
  let M := observed Runner 2
  have h : M.Reachable (fun x a x' => covered x.1 a x'.1)
    ((M.run (fun x a x' => covered x.1 a x'.1) M.init lastRun).get (by decide)) := .of_run _ _
  ⟨(M.run (fun x a x' => covered x.1 a x'.1) M.init lastRun).get (by decide), by decide, by decide,
    by decide, (latch_opens h).2.1 (by decide) ⟨.a, by decide⟩⟩

/-- Thread `b` takes two of one. -/
def overRun : List (Act Runner Label) :=
  [.step .a .wait, .step .a .run, .sleep .a, .step .b (.countDown 2), .step .b .run, .wake .b {.a},
    .step .a .run, .sleep .a]

/-- The decrements have reached the count, the latch is closed, and thread `a` sleeps with nobody
inside a call that could wake it. -/
theorem latch_stays_closed : ∃ x : State Runner × ℕ, (observed Runner 1).Reachable anyStep x ∧
    1 ≤ x.2 ∧ opened x.1 = false ∧ x.1.asleep .a = some () ∧ ∀ u, (x.1.thread u).waking = false :=
  let M := observed Runner 1
  ⟨(M.run anyStep M.init overRun).get (by decide), .of_run _ _, by decide, by decide, by decide,
    by decide⟩

end Psync.Latch
