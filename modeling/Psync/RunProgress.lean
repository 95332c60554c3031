import Psync.RunBatch
import Psync.RunSimulation

/-! Batches come to an end. From every state that is reached with batches, those that have begun can all be
ended, by steps of the code alone: no further batch begins, and whoever sleeps returns only when another
thread wakes it.

What is asked of a lock is said of its own code: if threads release it, one of them can finish its call, and
while nobody holds or releases the lock some thread that waits for it can get it. -/

namespace Concurrency

set_option linter.unusedSectionVars false

variable {Tid M Th Addr L Mode K X : Type*} [DecidableEq Tid] [Fintype Tid] [DecidableEq Addr]

/-- Nobody returns from `FUTEX_WAIT` for no reason: a thread that sleeps is woken by another one, and a thread
that does not sleep has found the word changed. -/
def Program.Prompt (P : Program Tid M Th Addr L) (s : Config Tid M Th Addr) : Act Tid L → Prop
  | .ret t => s.asleep t = none ∧ ∀ w, P.wait (s.thread t) = some w → w.holds s.mem = false
  | _ => True

/-- Nobody sleeps where there is nothing to sleep on. -/
theorem Config.never_asleep (s : Config Tid M Th Empty) (t : Tid) : s.asleep t = none := by
  cases hsleep : s.asleep t with
  | none => rfl
  | some a => cases a

/-- Out of the lock, or waiting for it. -/
def LockPhase.Waits (p : Option (LockPhase Mode)) : Prop := p = some .out ∨ ∃ mode, p = some (.acquiring mode)

theorem LockPhase.Waits.eq_some {p : Option (LockPhase Mode)} (h : Waits p) : ∃ q, p = some q := by
  rcases h with h | ⟨mode, h⟩
  · exact ⟨_, h⟩
  · exact ⟨_, h⟩

theorem LockPhase.not_waits_none (h : Waits (none : Option (LockPhase Mode))) : False := by
  obtain ⟨p, hp⟩ := h.eq_some
  cases hp

theorem LockPhase.Waits.of_ite {c : Prop} [Decidable c] {p : Option (LockPhase Mode)}
    (h : Waits (if c then p else none)) : c ∧ Waits p := by
  split_ifs at h with hc
  · exact ⟨hc, h⟩
  · exact (not_waits_none h).elim

namespace LockCode

variable (C : LockCode Tid M Th Addr L Mode)

/-- The calls that are under way go on. -/
def Onward (s : Config Tid M Th Addr) (a : Act Tid L) : Prop :=
  (∀ t l, a = .step t l → l = C.run) ∧ C.code.Prompt s a

def onward : StepCond (Config Tid M Th Addr) (Act Tid L) := fun s a _ => C.Onward s a

/-- Thread `t` comes to phase `p`, and the others keep theirs. -/
structure Passes (s : Config Tid M Th Addr) (t : Tid) (p : LockPhase Mode) (s' : Config Tid M Th Addr) : Prop where
  leads : C.code.machine.Leads C.onward s s'
  self : C.phase (s'.thread t) = some p
  others : ∀ u, u ≠ t → C.phase (s'.thread u) = C.phase (s.thread u)

def Reaches (s : Config Tid M Th Addr) (t : Tid) (p : LockPhase Mode) : Prop := ∃ s', C.Passes s t p s'

/-- What batches need of a lock to come to an end. -/
structure Finishing (fits : Config Tid M Th Addr → Prop) : Prop where
  idle : ∀ {th p}, C.phase th = some p → p.busy = false →
    (∀ t m, C.code.step t C.run m th = none) ∧ C.code.wait th = none
  release : ∀ t m {th mode}, C.phase th = some (.holding mode) → (C.code.step t (C.release mode) m th).isSome
  finish : ∀ {s t mode}, C.code.machine.Reachable (fun _ a s' => C.Calls a ∧ fits s') s →
    (∀ u, ∃ p, C.phase (s.thread u) = some p) → C.phase (s.thread t) = some (.releasing mode) →
    ∃ u mode', C.phase (s.thread u) = some (.releasing mode') ∧ C.Reaches s u .out
  grant : ∀ {s t mode}, C.code.machine.Reachable (fun _ a s' => C.Calls a ∧ fits s') s →
    (∀ u, LockPhase.Waits (C.phase (s.thread u))) →
    C.phase (s.thread t) = some (.acquiring mode) →
    ∃ u mode', C.phase (s.thread u) = some (.acquiring mode') ∧ C.Reaches s u (.holding mode')
  fits : ∀ s, (∀ t, ∃ p, C.phase (s.thread t) = some p) → fits s

variable {C} {s s' u : Config Tid M Th Addr} {t : Tid} {p : LockPhase Mode}

namespace Reaches

theorem done (h : C.phase (s.thread t) = some p) : C.Reaches s t p := ⟨s, .refl, h, fun _ _ => rfl⟩

/-- A step of thread `t`, from which it goes on. -/
theorem step {m : M} {th : Th} (awake : s.asleep t = none)
    (hstep : C.code.step t C.run s.mem (s.thread t) = some (m, th))
    (rest : ∀ s' : Config Tid M Th Addr, s'.asleep t = none → s'.mem = m → s'.thread t = th → C.Reaches s' t p) :
    C.Reaches s t p := by
  obtain ⟨s', hleads, hself, hothers⟩ := rest (s.move t m th) awake rfl (Function.update_self ..)
  have hfirst : C.code.machine.Step C.onward s (s.move t m th) :=
    ⟨.step t C.run, C.code.next_of_step awake hstep, fun _ _ hlabel => by cases hlabel; rfl, trivial⟩
  refine ⟨s', .head hfirst hleads, hself, fun u hu => ?_⟩
  rw [hothers u hu, Config.move_thread, Function.update_of_ne hu]

/-- The last step. -/
theorem last {m : M} {th : Th} (awake : s.asleep t = none)
    (hstep : C.code.step t C.run s.mem (s.thread t) = some (m, th)) (hphase : C.phase th = some p) :
    C.Reaches s t p :=
  .step awake hstep fun _ _ _ hthread => .done (by rw [hthread, hphase])

/-- A wait whose compare fails. -/
theorem ret {w : WaitCall M Th Addr} (awake : s.asleep t = none) (hwait : C.code.wait (s.thread t) = some w)
    (hholds : w.holds s.mem = false)
    (rest : ∀ s' : Config Tid M Th Addr, s'.asleep t = none → s'.mem = s.mem → s'.thread t = w.after →
      C.Reaches s' t p) : C.Reaches s t p := by
  have hafter : (C.code.resume s {t}).thread t = w.after := by
    rw [Program.resume_thread, if_pos (Finset.mem_singleton_self t), Program.afterWait, hwait]
    rfl
  obtain ⟨s', hleads, hself, hothers⟩ := rest (C.code.resume s {t})
    (by rw [Program.resume_asleep, if_pos (Finset.mem_singleton_self t)]) rfl hafter
  have hfirst : C.code.machine.Step C.onward s (C.code.resume s {t}) := by
    refine ⟨.ret t, C.code.next_of_ret hwait, fun _ _ hact => (by cases hact), awake, fun w' hw' => ?_⟩
    obtain rfl := Option.some.inj (hwait.symm.trans hw')
    exact hholds
  refine ⟨s', .head hfirst hleads, hself, fun u hu => ?_⟩
  rw [hothers u hu, Program.resume_thread, if_neg (Finset.notMem_singleton.mpr hu)]

/-- A wake after which the call returns. -/
theorem wake {w : WakeCall Th Addr} (hafter : ∀ th, C.phase (C.code.afterWait th) = C.phase th)
    (awake : s.asleep t = none) (hwake : C.code.wake (s.thread t) = some w) (hphase : C.phase w.after = some p) :
    C.Reaches s t p := by
  obtain ⟨woken, chosen⟩ := exists_chosen w.count (s.sleepers w.addr)
  have hfirst : C.code.machine.Step C.onward s ((C.code.resume s woken).move t s.mem w.after) :=
    ⟨.wake t woken, C.code.next_of_wake awake hwake chosen, fun _ _ hact => (by cases hact), trivial⟩
  refine ⟨_, .single hfirst, ?_, fun u hu => ?_⟩
  · rw [Config.move_thread, Function.update_self, hphase]
  · rw [Config.move_thread, Function.update_of_ne hu]
    exact C.code.resume_same hafter s woken u

/-- A run of other threads, which all keep their phases, may come first. -/
theorem after {s' : Config Tid M Th Addr} (hleads : C.code.machine.Leads C.onward s s')
    (hphases : ∀ u, C.phase (s'.thread u) = C.phase (s.thread u)) (h : C.Reaches s' t p) : C.Reaches s t p := by
  obtain ⟨s'', hleads', hself, hothers⟩ := h
  exact ⟨s'', hleads.trans hleads', hself, fun u hu => (hothers u hu).trans (hphases u)⟩

end Reaches

/-! ### Batches over the lock -/

section Batches

variable {func : Mode → K × X → Option (K × X)} {x : X}

/-- The batches that have begun go on. -/
def onwardBatches (C : LockCode Tid M Th Addr L Mode) (func : Mode → K × X → Option (K × X)) (x : X) :
    StepCond (Config Tid (M × X) (BatchThread Th Mode K) Addr × List (Batch Tid Mode K))
      (Act Tid (BatchLabel Mode K)) :=
  fun w a _ => (∀ t l, a = .step t l → l = .run) ∧ (C.batches func x).Prompt w.1 a

/-- The batch that a thread has begun and that has not ended. -/
def pending : BatchStage Mode K → List (Mode × K)
  | .acquiring mode first | .inside mode first _ => [(mode, first)]
  | _ => []

/-- The batches of a thread. -/
def batchesOf (t : Tid) (log : List (Batch Tid Mode K)) : List (Mode × K) :=
  (log.filter fun b => b.thread = t).map fun b => (b.mode, b.first)

/-- All batches have ended, those since `w` are the ones that were pending there, once each, and no thread
sleeps. -/
structure Ended (w w' : Config Tid (M × X) (BatchThread Th Mode K) Addr × List (Batch Tid Mode K)) : Prop where
  outside : ∀ t, (w'.1.thread t).stage = .outside
  awake : ∀ t, w'.1.asleep t = none
  log : ∃ new, w'.2 = w.2 ++ new ∧ ∀ t, batchesOf t new = pending (w.1.thread t).stage

/-- Every function ends when it runs alone. -/
def Terminates (func : Mode → K × X → Option (K × X)) : Prop :=
  ∀ mode p, ∃ q, Alone func mode p q ∧ func mode q = none

/-! ### What a run leaves pending -/

variable {m m' : M × X} {th th' : BatchThread Th Mode K}

theorem pending_of_run (h : C.batchStep func t .run m th = some (m', th')) (u : Tid) :
    batchesOf u (ended t th.stage th'.stage) ++ (if u = t then pending th'.stage else []) =
      if u = t then pending th.stage else [] := by
  obtain ⟨lock, st⟩ := th
  cases st with
  | outside => cases h
  | acquiring mode first =>
      simp only [batchStep] at h
      split_ifs at h
      · cases h
        rfl
      · obtain ⟨-, -, hstage⟩ := lockStep_eq_some h
        rw [hstage]
        rfl
  | inside mode first k =>
      simp only [batchStep] at h
      cases hfunc : func mode (k, m.2) with
      | some q =>
          rw [hfunc] at h
          cases h
          rfl
      | none =>
          rw [hfunc] at h
          obtain ⟨-, -, hstage⟩ := lockStep_eq_some h
          rw [hstage]
          by_cases hut : u = t
          · simp [hut, ended, batchesOf, pending]
          · simp [hut, ended, batchesOf, Ne.symm hut]
  | releasing mode =>
      simp only [batchStep] at h
      split_ifs at h
      · cases h
        rfl
      · obtain ⟨-, -, hstage⟩ := lockStep_eq_some h
        rw [hstage]
        rfl

theorem batchesOf_append (log new : List (Batch Tid Mode K)) :
    batchesOf t (log ++ new) = batchesOf t log ++ batchesOf t new := by
  rw [batchesOf, List.filter_append, List.map_append]
  rfl

variable {b b' : Config Tid (M × X) (BatchThread Th Mode K) Addr} (log : List (Batch Tid Mode K))

theorem pending_of_next {a : Act Tid (BatchLabel Mode K)} (hnext : (C.batches func x).machine.next b a = some b')
    (hrun : ∀ t l, a = .step t l → l = .run) :
    ∃ new, record log b a b' = log ++ new ∧
      ∀ u, batchesOf u new ++ pending (b'.thread u).stage = pending (b.thread u).stage := by
  have hkeep : record log b a b' = log → (fun u => (b'.thread u).stage) = (fun u => (b.thread u).stage) →
      ∃ new, record log b a b' = log ++ new ∧
        ∀ u, batchesOf u new ++ pending (b'.thread u).stage = pending (b.thread u).stage := by
    intro hrecord hstages
    refine ⟨[], by rw [hrecord, List.append_nil], fun u => ?_⟩
    rw [show (b'.thread u).stage = (b.thread u).stage from congrFun hstages u]
    rfl
  cases Program.transition_of_next _ hnext with
  | @step t l m th awake hstep =>
      obtain rfl := hrun t l rfl
      refine ⟨ended t (b.thread t).stage th.stage, ?_, fun u => ?_⟩
      · rw [record, Config.move_thread, Function.update_self]
      · have hpending := pending_of_run hstep u
        rw [Config.move_thread, Function.update_apply]
        split_ifs at hpending ⊢ with hut
        · rw [hpending, hut]
        · rw [List.append_nil] at hpending
          rw [hpending, List.nil_append]
  | sleep awake hwait holds => exact hkeep rfl rfl
  | ret hwait => exact hkeep rfl (stages_resume _)
  | @wake t call woken awake hwake chosen =>
      obtain ⟨call', -, rfl⟩ := wake_eq_some hwake
      refine hkeep rfl ?_
      rw [stages_move, stages_resume]
      exact Function.update_eq_self ..
  | requeue awake hcall => cases hcall
  | refused awake hcall => cases hcall

variable {w w' : Config Tid (M × X) (BatchThread Th Mode K) Addr × List (Batch Tid Mode K)}

/-- What a run ends and what it leaves pending are what was pending. -/
theorem pending_of_leads (h : (C.observed func x).Leads (onwardBatches C func x) w w') :
    ∃ new, w'.2 = w.2 ++ new ∧
      ∀ t, batchesOf t new ++ pending (w'.1.thread t).stage = pending (w.1.thread t).stage := by
  refine h.induct (I := fun w' => ∃ new, w'.2 = w.2 ++ new ∧
    ∀ t, batchesOf t new ++ pending (w'.1.thread t).stage = pending (w.1.thread t).stage)
    ⟨[], (List.append_nil _).symm, fun _ => rfl⟩ ?_
  intro u a u' _ ⟨new, hlog, ih⟩ hnext hon
  obtain ⟨hnext, hrecord⟩ := Machine.observe_next hnext
  obtain ⟨new', hnew', hstep⟩ := pending_of_next u.2 hnext hon.1
  refine ⟨new ++ new', ?_, fun t => ?_⟩
  · rw [hrecord, hnew', hlog, List.append_assoc]
  · rw [batchesOf_append, List.append_assoc, hstep t, ih t]

/-! ### Runs of the lock -/

/-- The state of the batches after a run of the lock's code that begins no call. -/
structure Lifts (C : LockCode Tid M Th Addr L Mode) (func : Mode → K × X → Option (K × X)) (x : X)
    (w w' : Config Tid (M × X) (BatchThread Th Mode K) Addr × List (Batch Tid Mode K))
    (c : Config Tid M Th Addr) : Prop where
  leads : (C.observed func x).Leads (onwardBatches C func x) w w'
  lock : lockState w'.1 = c
  stages : (fun u => (w'.1.thread u).stage) = fun u => (w.1.thread u).stage
  log : w'.2 = w.2

variable {writes : Mode → Bool} {fits : Config Tid M Th Addr → Prop} {a : Act Tid L}

theorem ended_self (stage : BatchStage Mode K) : ended t stage stage = [] := by
  cases stage <;> rfl

theorem batchStep_of_run {th₀ : BatchThread Th Mode K} (hC : C.Lawful writes fits) (hF : C.Finishing fits)
    (hcoherent : Coherent C th₀) {m₀ : M} {th₁ : Th} (hstep : C.code.step t C.run m.1 th₀.lock = some (m₀, th₁)) :
    C.batchStep func t .run m th₀ = some ((m₀, m.2), ⟨th₁, th₀.stage⟩) := by
  obtain ⟨lock, stage⟩ := th₀
  have hbusy : ∀ {p}, C.phase lock = some p → p.busy = true := by
    intro p hp
    by_contra hidle
    have hnone := (hF.idle hp (Bool.eq_false_of_not_eq_true hidle)).1 t m.1
    rw [hnone] at hstep
    cases hstep
  cases stage with
  | outside => cases hbusy hcoherent
  | inside mode first k => cases hbusy hcoherent
  | acquiring mode first | releasing mode =>
      obtain ⟨p, hphase, -⟩ := hcoherent
      have hnot : ¬ C.idle lock = true := by
        rw [hC.idle hphase, hbusy hphase]
        exact Bool.false_ne_true
      simp only [batchStep, if_neg hnot, lockStep, hstep, Option.map_some]

theorem observed_next {a : Act Tid (BatchLabel Mode K)} (hnext : (C.batches func x).machine.next b a = some b') :
    (C.observed func x).next (b, log) a = some (b', record log b a b') := by
  change ((C.batches func x).machine.next b a).map _ = _
  rw [hnext]
  rfl

/-- A step of the lock's code that begins no call is one of the batches. -/
theorem lift_step (hC : C.Lawful writes fits) (hF : C.Finishing fits) (hcoherent : ∀ t, Coherent C (b.thread t))
    (hnext : C.code.machine.next (lockState b) a = some s') (hon : C.Onward (lockState b) a) :
    ∃ b', Lifts C func x (b, log) (b', log) s' := by
  have hsingle : ∀ {a : Act Tid (BatchLabel Mode K)} {b' : Config Tid (M × X) (BatchThread Th Mode K) Addr},
      (C.batches func x).machine.next b a = some b' → (∀ t l, a = .step t l → l = .run) →
      (C.batches func x).Prompt b a → record log b a b' = log → lockState b' = s' →
      ((fun u => (b'.thread u).stage) = fun u => (b.thread u).stage) →
      ∃ b', Lifts C func x (b, log) (b', log) s' := by
    intro a b' hnext hrun hprompt hrecord hlock hstages
    have hobserved := observed_next log hnext
    rw [hrecord] at hobserved
    exact ⟨b', .single ⟨a, hobserved, hrun, hprompt⟩, hlock, hstages, rfl⟩
  cases Program.transition_of_next _ hnext with
  | @step t l m th awake hstep =>
      obtain rfl := hon.1 t l rfl
      have hbatch : C.batchStep func t .run b.mem (b.thread t) = some ((m, b.mem.2), ⟨th, (b.thread t).stage⟩) :=
        batchStep_of_run hC hF (hcoherent t) hstep
      refine hsingle (Program.next_of_step _ awake hbatch) (fun _ _ hlabel => by cases hlabel; rfl) trivial ?_
        lockState_move ?_
      · rw [record, Config.move_thread, Function.update_self, ended_self, List.append_nil]
      · rw [stages_move]
        exact Function.update_eq_self ..
  | @sleep t w awake hwait holds =>
      have hbatch : (C.batches func x).wait (b.thread t) =
          some ⟨w.addr, fun m => w.holds m.1, ⟨w.after, (b.thread t).stage⟩⟩ :=
        congrArg (Option.map _) hwait
      exact hsingle (Program.next_of_sleep _ awake hbatch holds) (fun _ _ hact => by cases hact) trivial rfl rfl rfl
  | @ret t w hwait =>
      have hbatch : (C.batches func x).wait (b.thread t) =
          some ⟨w.addr, fun m => w.holds m.1, ⟨w.after, (b.thread t).stage⟩⟩ :=
        congrArg (Option.map _) hwait
      refine hsingle (Program.next_of_ret _ hbatch) (fun _ _ hact => by cases hact)
        ⟨hon.2.1, fun call hcall => ?_⟩ rfl (lockState_resume _) (stages_resume _)
      obtain ⟨w', hw', rfl⟩ := wait_eq_some hcall
      exact hon.2.2 w' hw'
  | @wake t w woken awake hwake chosen =>
      have hbatch : (C.batches func x).wake (b.thread t) = some ⟨w.addr, w.count, ⟨w.after, (b.thread t).stage⟩⟩ :=
        congrArg (Option.map _) hwake
      refine hsingle (Program.next_of_wake _ awake hbatch chosen) (fun _ _ hact => by cases hact) trivial rfl ?_ ?_
      · rw [lockState_move, lockState_resume]
        rfl
      · rw [stages_move, stages_resume]
        exact Function.update_eq_self ..
  | requeue awake hcall => rw [hC.requeue] at hcall; cases hcall
  | refused awake hcall => rw [hC.requeue] at hcall; cases hcall

theorem reachable_of_leads (hreach : (C.batches func x).machine.Reachable anyStep w.1)
    (h : (C.observed func x).Leads (onwardBatches C func x) w w') :
    (C.batches func x).machine.Reachable anyStep w'.1 :=
  hreach.trans (Machine.Leads.of_observed h fun _ => trivial)

/-- A run of the lock's code that begins no call. -/
theorem lift (hC : C.Lawful writes fits) (hF : C.Finishing fits)
    (hreach : (C.batches func x).machine.Reachable anyStep b)
    (h : C.code.machine.Leads C.onward (lockState b) s') : ∃ b', Lifts C func x (b, log) (b', log) s' := by
  refine h.induct (I := fun s' => ∃ b', Lifts C func x (b, log) (b', log) s') ⟨b, .refl, rfl, rfl, rfl⟩ ?_
  rintro c a c' - ⟨b', hlift⟩ hnext hon
  obtain rfl := hlift.lock
  have hcoherent := hC.coherent (reachable_of_leads (w := (b, log)) hreach hlift.leads)
  obtain ⟨b'', hlift'⟩ := lift_step log hC hF hcoherent hnext hon
  exact ⟨b'', hlift.leads.trans hlift'.leads, hlift'.lock, hlift'.stages.trans hlift.stages, rfl⟩

theorem Coherent.phase {th : BatchThread Th Mode K} (h : Coherent C th) : ∃ p, C.phase th.lock = some p := by
  obtain ⟨lock, stage⟩ := th
  cases stage with
  | outside => exact ⟨_, h⟩
  | inside mode first k => exact ⟨_, h⟩
  | acquiring mode first => exact h.imp fun _ hp => hp.1
  | releasing mode => exact h.imp fun _ hp => hp.1

/-- The stages that go with the two phases of a call. -/
theorem Coherent.releasing {th : BatchThread Th Mode K} {mode : Mode} (h : Coherent C th)
    (hphase : C.phase th.lock = some (.releasing mode)) : th.stage = .releasing mode := by
  obtain ⟨lock, stage⟩ := th
  cases stage with
  | outside | inside =>
      have hother := h.symm.trans hphase
      cases hother
  | acquiring mode' first =>
      obtain ⟨p, hp, hnext⟩ := h
      rw [hphase] at hp
      cases hp
      rcases hnext.of_acquiring with heq | heq <;> cases heq
  | releasing mode' =>
      obtain ⟨p, hp, hnext⟩ := h
      rw [hphase] at hp
      cases hp
      rcases hnext.of_releasing with heq | heq <;> cases heq
      rfl

theorem Coherent.acquiring {th : BatchThread Th Mode K} {mode : Mode} (h : Coherent C th)
    (hphase : C.phase th.lock = some (.acquiring mode)) : ∃ first, th.stage = .acquiring mode first := by
  obtain ⟨lock, stage⟩ := th
  cases stage with
  | outside | inside =>
      have hother := h.symm.trans hphase
      cases hother
  | acquiring mode' first =>
      obtain ⟨p, hp, hnext⟩ := h
      rw [hphase] at hp
      cases hp
      rcases hnext.of_acquiring with heq | heq <;> cases heq
      exact ⟨first, rfl⟩
  | releasing mode' =>
      obtain ⟨p, hp, hnext⟩ := h
      rw [hphase] at hp
      cases hp
      rcases hnext.of_releasing with heq | heq <;> cases heq

theorem Finishing.reachable (hF : C.Finishing fits) (hC : C.Lawful writes fits)
    (h : (C.batches func x).machine.Reachable anyStep b) :
    C.code.machine.Reachable (fun _ a s' => C.Calls a ∧ fits s') (lockState b) := by
  refine lockState_reachable fits (h.induct (I := fun b =>
    (C.batches func x).machine.Reachable (fun _ _ b' => fits (lockState b')) b) .refl ?_)
  intro b a b' hreach ih hnext _
  exact ih.next hnext (hF.fits _ fun t => (hC.coherent (hreach.next hnext trivial) t).phase)

/-- Nobody sleeps outside the calls. -/
theorem Finishing.awake (hF : C.Finishing fits) (hreach : (C.batches func x).machine.Reachable anyStep b)
    (hphase : C.phase (b.thread t).lock = some p) (hidle : p.busy = false) : b.asleep t = none := by
  cases hsleep : b.asleep t with
  | none => rfl
  | some a =>
      obtain ⟨w, hw, -⟩ := Program.wait_of_asleep _ (fun _ => rfl) hreach hsleep
      obtain ⟨w', hw', -⟩ := wait_eq_some hw
      rw [(hF.idle hphase hidle).2] at hw'
      cases hw'

/-! ### Rounds

In each round one thread gets one stage further. -/

def weight : BatchStage Mode K → ℕ
  | .outside => 0
  | .releasing _ => 1
  | .inside .. => 2
  | .acquiring .. => 3

def rank (b : Config Tid (M × X) (BatchThread Th Mode K) Addr) : ℕ := tally weight fun t => (b.thread t).stage

theorem rank_move (hlt : weight th.stage < weight (b.thread t).stage) : rank (b.move t m th) < rank b := by
  refine tally_lt (t := t) ?_ fun u hu => ?_
  · rwa [Config.move_thread, Function.update_self]
  · rw [Config.move_thread, Function.update_of_ne hu]

theorem step_onward (awake : b.asleep t = none) (h : C.batchStep func t .run b.mem (b.thread t) = some (m, th)) :
    (C.observed func x).Leads (onwardBatches C func x) (b, log)
      (b.move t m th, log ++ ended t (b.thread t).stage th.stage) :=
  .single ⟨.step t .run, next_of_batchStep x log awake h, fun _ _ hlabel => by cases hlabel; rfl, trivial⟩

variable {log} in
/-- The next stage after a run of the lock's code. -/
theorem Lifts.round (h : Lifts C func x (b, log) (b', log) s') (awake : b'.asleep t = none)
    (hstep : C.batchStep func t .run b'.mem (b'.thread t) = some (m, th))
    (hlt : weight th.stage < weight (b'.thread t).stage) :
    ∃ w', (C.observed func x).Leads (onwardBatches C func x) (b, log) w' ∧ rank w'.1 < rank b := by
  refine ⟨_, h.leads.trans (step_onward log awake hstep), ?_⟩
  have hsame : rank b' = rank b := congrArg (tally weight) h.stages
  rw [← hsame]
  exact rank_move hlt

section Rounds

variable {mode : Mode} {first k : K} (hC : C.Lawful writes fits) (hF : C.Finishing fits)
  (hreach : (C.batches func x).machine.Reachable anyStep b)
include hC hF hreach

/-- A function runs to its end, and its thread begins to release the lock. -/
theorem inside_round (hends : Terminates func) (hstage : (b.thread t).stage = .inside mode first k) :
    ∃ w', (C.observed func x).Leads (onwardBatches C func x) (b, log) w' ∧ rank w'.1 < rank b := by
  have hphase : C.phase (b.thread t).lock = some (.holding mode) := by
    have hcoherent := hC.coherent hreach t
    rwa [Coherent, hstage] at hcoherent
  have awake := hF.awake hreach hphase rfl
  obtain ⟨q, halone, hend⟩ := hends mode (k, b.mem.2)
  -- the thread takes the steps of the function one by one
  have hrun : ∃ b', (C.observed func x).Leads (onwardBatches C func x) (b, log) (b', log) ∧
      b'.thread t = ⟨(b.thread t).lock, .inside mode first q.1⟩ ∧ b'.mem.2 = q.2 ∧ b'.asleep t = none ∧
      ∀ u, u ≠ t → b'.thread u = b.thread u := by
    clear hend
    induction halone with
    | refl =>
        refine ⟨b, .refl, ?_, rfl, awake, fun _ _ => rfl⟩
        rw [← hstage]
    | @tail p q _ hfunc ih =>
        obtain ⟨b', hlead, hthread, hdata, hawake, hothers⟩ := ih
        have hstep : C.batchStep func t .run b'.mem (b'.thread t) =
            some ((b'.mem.1, q.2), ⟨(b.thread t).lock, .inside mode first q.1⟩) := by
          rw [hthread]
          simp only [batchStep, hdata, hfunc]
        refine ⟨b'.move t (b'.mem.1, q.2) ⟨(b.thread t).lock, .inside mode first q.1⟩, hlead.trans ?_,
          Function.update_self .., rfl, hawake, fun u hu => ?_⟩
        · have hended : ended t (.inside mode first p.1) (.inside mode first q.1) = [] := rfl
          have hstep' := step_onward (x := x) log hawake hstep
          rw [hthread, hended, List.append_nil] at hstep'
          exact hstep'
        · rw [Config.move_thread, Function.update_of_ne hu, hothers u hu]
  obtain ⟨b', hlead, hthread, hdata, hawake, hothers⟩ := hrun
  obtain ⟨r, hr⟩ := Option.isSome_iff_exists.mp (hF.release t b'.mem.1 hphase)
  have hstep : C.batchStep func t .run b'.mem (b'.thread t) = some ((r.1, b'.mem.2), ⟨r.2, .releasing mode⟩) := by
    rw [hthread]
    simp only [batchStep, hdata, hend, lockStep, hr, Option.map_some]
  refine ⟨_, hlead.trans (step_onward log hawake hstep), tally_lt (t := t) ?_ fun u hu => ?_⟩
  · rw [Config.move_thread, Function.update_self, hstage]
    exact Nat.lt_succ_self 1
  · rw [Config.move_thread, Function.update_of_ne hu, hothers u hu]

/-- A thread that releases the lock finishes its call. -/
theorem releasing_round (hstage : (b.thread t).stage = .releasing mode) :
    ∃ w', (C.observed func x).Leads (onwardBatches C func x) (b, log) w' ∧ rank w'.1 < rank b := by
  have hcoherent := hC.coherent hreach
  have hout : ∃ u b' c mode, Lifts C func x (b, log) (b', log) c ∧ (b.thread u).stage = .releasing mode ∧
      C.phase (b'.thread u).lock = some .out := by
    have ht := hcoherent t
    rw [Coherent, hstage] at ht
    obtain ⟨p, hphase, hp⟩ := ht
    rcases hp.of_releasing with rfl | rfl
    · obtain ⟨u, mode', hu, c, hpass⟩ := hF.finish (hF.reachable hC hreach)
        (fun v => (hcoherent v).phase) (t := t) hphase
      obtain ⟨b', hlift⟩ := lift log hC hF hreach hpass.leads
      have hself := hpass.self
      rw [← hlift.lock] at hself
      exact ⟨u, b', c, mode', hlift, (hcoherent u).releasing hu, hself⟩
    · exact ⟨t, b, _, mode, ⟨.refl, rfl, rfl, rfl⟩, hstage, hphase⟩
  obtain ⟨u, b', c, mode, hlift, hu, hphase⟩ := hout
  have hstage' : (b'.thread u).stage = .releasing mode := (congrFun hlift.stages u).trans hu
  have hreach' : (C.batches func x).machine.Reachable anyStep b' :=
    reachable_of_leads (w := (b, log)) hreach hlift.leads
  have hstep : C.batchStep func u .run b'.mem (b'.thread u) = some (b'.mem, ⟨(b'.thread u).lock, .outside⟩) := by
    simp only [batchStep, hstage', hC.idle hphase, LockPhase.busy, Bool.not_false, if_true]
  refine hlift.round (hF.awake hreach' hphase rfl) hstep ?_
  rw [hstage']
  exact Nat.lt_succ_self 0

/-- While no batch runs and none is being released, one that waits gets the lock. -/
theorem acquiring_round
    (hwaiting : ∀ u, (b.thread u).stage = .outside ∨ ∃ mode first, (b.thread u).stage = .acquiring mode first)
    (hstage : (b.thread t).stage = .acquiring mode first) :
    ∃ w', (C.observed func x).Leads (onwardBatches C func x) (b, log) w' ∧ rank w'.1 < rank b := by
  have hcoherent := hC.coherent hreach
  have hphases : ∀ u, C.phase (b.thread u).lock = some .out ∨ ∃ mode first,
      (b.thread u).stage = .acquiring mode first ∧ (C.phase (b.thread u).lock = some (.acquiring mode) ∨
        C.phase (b.thread u).lock = some (.holding mode)) := by
    intro u
    have hu := hcoherent u
    rcases hwaiting u with hout | ⟨mode, first, hacquiring⟩
    · rw [Coherent, hout] at hu
      exact Or.inl hu
    · rw [Coherent, hacquiring] at hu
      obtain ⟨p, hphase, hp⟩ := hu
      exact Or.inr ⟨mode, first, hacquiring, hp.of_acquiring.imp (fun h => by rwa [h] at hphase)
        fun h => by rwa [h] at hphase⟩
  have hgranted : ∃ u b' c mode first, Lifts C func x (b, log) (b', log) c ∧
      (b.thread u).stage = .acquiring mode first ∧ C.phase (b'.thread u).lock = some (.holding mode) := by
    by_cases hheld : ∃ u mode, C.phase (b.thread u).lock = some (.holding mode)
    · obtain ⟨u, mode', hu⟩ := hheld
      rcases hphases u with hout | ⟨mode, first, hacquiring, hphase | hphase⟩
      · rw [hout] at hu
        cases hu
      · rw [hphase] at hu
        cases hu
      · exact ⟨u, b, _, mode, first, ⟨.refl, rfl, rfl, rfl⟩, hacquiring, hphase⟩
    · have hfree : ∀ u, LockPhase.Waits (C.phase (b.thread u).lock) := by
        intro u
        refine (hphases u).imp_right ?_
        rintro ⟨mode, first, -, hphase | hphase⟩
        · exact ⟨mode, hphase⟩
        · exact absurd ⟨u, mode, hphase⟩ hheld
      have ht : C.phase (b.thread t).lock = some (.acquiring mode) := by
        have hp := hcoherent t
        rw [Coherent, hstage] at hp
        obtain ⟨p, hphase, hp⟩ := hp
        rcases hp.of_acquiring with rfl | rfl
        · exact hphase
        · exact absurd ⟨t, mode, hphase⟩ hheld
      obtain ⟨u, mode', hu, c, hpass⟩ := hF.grant (hF.reachable hC hreach) hfree ht
      obtain ⟨b', hlift⟩ := lift log hC hF hreach hpass.leads
      have hself := hpass.self
      rw [← hlift.lock] at hself
      obtain ⟨first, hacquiring⟩ := (hcoherent u).acquiring hu
      exact ⟨u, b', c, mode', first, hlift, hacquiring, hself⟩
  obtain ⟨u, b', c, mode, first, hlift, hacquiring, hphase⟩ := hgranted
  have hstage' : (b'.thread u).stage = .acquiring mode first := (congrFun hlift.stages u).trans hacquiring
  have hreach' : (C.batches func x).machine.Reachable anyStep b' :=
    reachable_of_leads (w := (b, log)) hreach hlift.leads
  have hstep : C.batchStep func u .run b'.mem (b'.thread u) =
      some (b'.mem, ⟨(b'.thread u).lock, .inside mode first first⟩) := by
    simp only [batchStep, hstage', hC.idle hphase, LockPhase.busy, Bool.not_false, if_true]
  refine hlift.round (hF.awake hreach' hphase rfl) hstep ?_
  rw [hstage']
  exact Nat.lt_succ_self 2

end Rounds

/-- As long as a batch is pending, a thread gets one stage further. -/
theorem exists_round (hC : C.Lawful writes fits) (hF : C.Finishing fits) (hends : Terminates func)
    (hreach : (C.batches func x).machine.Reachable anyStep b) (hbusy : ¬ ∀ t, (b.thread t).stage = .outside) :
    ∃ w', (C.observed func x).Leads (onwardBatches C func x) (b, log) w' ∧ rank w'.1 < rank b := by
  by_cases hinside : ∃ t mode first k, (b.thread t).stage = .inside mode first k
  · obtain ⟨t, mode, first, k, hstage⟩ := hinside
    exact inside_round log hC hF hreach hends hstage
  by_cases hreleasing : ∃ t mode, (b.thread t).stage = .releasing mode
  · obtain ⟨t, mode, hstage⟩ := hreleasing
    exact releasing_round log hC hF hreach hstage
  have hwaiting : ∀ u, (b.thread u).stage = .outside ∨
      ∃ mode first, (b.thread u).stage = .acquiring mode first := by
    intro u
    cases hstage : (b.thread u).stage with
    | outside => exact Or.inl rfl
    | acquiring mode first => exact Or.inr ⟨mode, first, rfl⟩
    | inside mode first k => exact absurd ⟨u, mode, first, k, hstage⟩ hinside
    | releasing mode => exact absurd ⟨u, mode, hstage⟩ hreleasing
  obtain ⟨t, ht⟩ := not_forall.mp hbusy
  obtain ⟨mode, first, hstage⟩ := (hwaiting t).resolve_left ht
  exact acquiring_round log hC hF hreach hwaiting hstage

/-- **Batches come to an end.** -/
theorem Lawful.finishes (hC : C.Lawful writes fits) (hF : C.Finishing fits) (hends : Terminates func)
    (h : (C.observed func x).Reachable anyStep w) :
    ∃ w', (C.observed func x).Leads (onwardBatches C func x) w w' ∧ Ended w w' := by
  have hround : ∀ w, (C.batches func x).machine.Reachable anyStep w.1 → ¬ (∀ t, (w.1.thread t).stage = .outside) →
      ∃ w', (C.observed func x).Leads (onwardBatches C func x) w w' ∧
        (C.batches func x).machine.Reachable anyStep w'.1 ∧ rank w'.1 < rank w.1 := by
    rintro ⟨b, log⟩ hreach hbusy
    obtain ⟨w', hlead, hlt⟩ := exists_round log hC hF hends hreach hbusy
    exact ⟨w', hlead, reachable_of_leads hreach hlead, hlt⟩
  obtain ⟨w', hlead, hreach, hout⟩ := Machine.Leads.descend _ hround (h.of_observed fun _ => trivial)
  obtain ⟨new, hlog, hnew⟩ := pending_of_leads hlead
  refine ⟨w', hlead, hout, fun t => ?_, new, hlog, fun t => ?_⟩
  · -- outside its batch a thread is outside the calls of the lock
    have hcoherent := hC.coherent hreach t
    rw [Coherent, hout t] at hcoherent
    exact hF.awake hreach hcoherent rfl
  have ht := hnew t
  rw [hout t] at ht
  exact (List.append_nil _).symm.trans ht

end Batches
end LockCode
end Concurrency
