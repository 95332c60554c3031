import Psync.CondvarNotify
import Psync.MutexWakeup
import Psync.RunSimulation

/-! Nobody sleeps for ever beside an item. Inside the clients the mutex is the mutex: what they do to it is a
run of the program of the mutex, so it loses no wakeup of its own. With the counting argument, a state with
items in which every consumer inside `wait` sleeps is on the way out of it. -/

namespace Psync.ConditionVariable.Client

open Concurrency

set_option linter.unusedSectionVars false

variable {Tid : Type*} [Fintype Tid] [DecidableEq Tid] {m : Mem} {th : Thread}

/-! ### What the clients do to the mutex -/

theorem Thread.Ok.comparing {th : Thread} (h : th.Ok) (hcomparing : th.comparing = true) :
    th.held = false ∧ th.cv.mutex.pc = .idle := by
  have hplaced := h.placed
  obtain ⟨⟨mutex, cpc⟩, pc⟩ := th
  cases cpc with
  | waitFutex seq => exact hplaced.2
  | _ => cases hcomparing

/-! ### The mutex inside the clients -/

def onMutex : Option Addr → Option Unit
  | some .mutex => some ()
  | _ => none

theorem onMutex_eq_some {a : Option Addr} : onMutex a = some () ↔ a = some .mutex := by
  rcases a with _ | _ | _ <;> decide

/-- What the clients' state says about the mutex. -/
def mutexView (s : State Tid) : Config Tid U32 Mutex.Thread Unit :=
  ⟨s.mem.cv.mutexState, fun t => (s.thread t).cv.mutex, fun t => onMutex (s.asleep t)⟩

variable {s : State Tid} {t : Tid} {woken : Finset Tid}

theorem mutexView_move (s : State Tid) (t : Tid) (m : Mem) (th : Thread) :
    mutexView (s.move t m th) = (mutexView s).move t m.cv.mutexState th.cv.mutex :=
  Config.ext rfl (Function.comp_update (fun th : Thread => th.cv.mutex) s.thread t th) rfl

theorem mutexView_sleep (s : State Tid) (t : Tid) :
    mutexView (s.sleep t .mutex) = (mutexView s).sleep t () :=
  Config.ext rfl rfl (Function.comp_update onMutex s.asleep t (some .mutex))

theorem mutexView_sleep_seq (awake : s.asleep t = none) : mutexView (s.sleep t .seq) = mutexView s := by
  refine Config.ext rfl rfl (funext fun u => ?_)
  change onMutex (Function.update s.asleep t (some .seq) u) = onMutex (s.asleep u)
  rw [Function.update_apply]
  split_ifs with hut
  · rw [hut, awake]
    rfl
  · rfl

theorem mutexView_sleepers (s : State Tid) : (mutexView s).sleepers () = s.sleepers .mutex := by
  ext u
  rw [Config.mem_sleepers, Config.mem_sleepers]
  exact onMutex_eq_some

theorem onMutex_resume (s : State Tid) (woken : Finset Tid) (u : Tid) :
    onMutex (if u ∈ woken then none else s.asleep u) = if u ∈ woken then none else onMutex (s.asleep u) := by
  split_ifs <;> rfl

/-- Threads that return from the `futex::wait` of the mutex. -/
theorem mutexView_resume (h : ∀ u ∈ woken, (s.thread u).comparing = false) :
    mutexView ((program Tid).resume s woken) = (Mutex.program Tid).resume (mutexView s) woken := by
  refine Config.ext rfl (funext fun u => ?_) (funext fun u => onMutex_resume s woken u)
  change (if u ∈ woken then _ else _ : Thread).cv.mutex = if u ∈ woken then _ else _
  split_ifs with hu
  · rcases afterWait_cases Tid (s.thread u) with ⟨seq, hpc, -⟩ | ⟨-, heq⟩
    · have hcomparing := h u hu
      rw [Thread.comparing, hpc] at hcomparing
      cases hcomparing
    · rw [heq]
      rfl
  · rfl

/-- Threads that return from the `futex::wait` on `seq_` begin a call of `lock`. -/
theorem mutexView_resume_seq (hok : ∀ u, (s.thread u).Ok)
    (h : ∀ u ∈ woken, (s.thread u).comparing = true ∧ onMutex (s.asleep u) = none) :
    (Mutex.program Tid).machine.Leads anyStep (mutexView s) (mutexView ((program Tid).resume s woken)) := by
  have hview : mutexView ((program Tid).resume s woken) =
      { mutexView s with thread := fun u =>
          if u ∈ woken then (s.thread u).cv.mutex.at .lockFast else (s.thread u).cv.mutex } := by
    refine Config.ext rfl (funext fun u => ?_) (funext fun u => ?_)
    · change (if u ∈ woken then _ else _ : Thread).cv.mutex = if u ∈ woken then _ else _
      split_ifs with hu
      · rcases afterWait_cases Tid (s.thread u) with ⟨seq, -, heq⟩ | ⟨hcomparing, -⟩
        · rw [heq]
        · rw [(h u hu).1] at hcomparing
          cases hcomparing
      · rfl
    · change onMutex (if u ∈ woken then none else s.asleep u) = onMutex (s.asleep u)
      rw [onMutex_resume]
      split_ifs with hu
      · exact (h u hu).2.symm
      · rfl
  rw [hview]
  exact (Mutex.program Tid).leads_each (s := mutexView s) (l := Mutex.Label.lock) (g := fun th => th.at .lockFast)
    woken fun u hu => ⟨(h u hu).2, if_pos ((hok u).comparing (h u hu).1).2⟩

/-- Who sleeps on which word. -/
theorem asleep_cases (hsleep : ∀ t a, s.asleep t = some a → ∃ w, wait (s.thread t) = some w ∧ w.addr = a) (t : Tid) :
    (s.thread t).comparing = true ∧ onMutex (s.asleep t) = none ∨
      (s.thread t).comparing = false ∧ s.asleep t ≠ some .seq := by
  cases hcomparing : (s.thread t).comparing with
  | true =>
      refine Or.inl ⟨rfl, ?_⟩
      cases hasleep : s.asleep t with
      | none => rfl
      | some a =>
          obtain ⟨w, hwait, rfl⟩ := hsleep t a hasleep
          rcases wait_cases hwait with ⟨seq, -, haddr, -⟩ | ⟨hother, -⟩
          · rw [haddr]
            rfl
          · rw [hcomparing] at hother
            cases hother
  | false =>
      refine Or.inr ⟨rfl, fun hasleep => ?_⟩
      obtain ⟨w, hwait, haddr⟩ := hsleep t _ hasleep
      rcases wait_cases hwait with ⟨seq, hpc, -, -⟩ | ⟨-, hmutex, -⟩
      · rw [Thread.comparing, hpc] at hcomparing
        cases hcomparing
      · rw [haddr] at hmutex
        cases hmutex

theorem mutexView_step (awake : s.asleep t = none) (hcalls : CallsMutex s.mem (s.thread t) m th) :
    (Mutex.program Tid).machine.Leads anyStep (mutexView s) (mutexView (s.move t m th)) := by
  have hawake : (mutexView s).asleep t = none := congrArg onMutex awake
  rw [mutexView_move]
  rcases hcalls with ⟨l, hmutex⟩ | ⟨hword, hmutex⟩
  · exact .single ⟨.step t l, Program.next_of_step _ hawake hmutex, trivial⟩
  · have hsame : (mutexView s).move t m.cv.mutexState th.cv.mutex = mutexView s := by
      rw [hword, hmutex, Config.move]
      exact Config.ext rfl (Function.update_eq_self t (mutexView s).thread) rfl
    rw [hsame]
    exact .refl

theorem mutexView_wake {c : WakeCall Thread Addr} (hok : ∀ u, (s.thread u).Ok)
    (hsleep : ∀ t a, s.asleep t = some a → ∃ w, wait (s.thread t) = some w ∧ w.addr = a)
    (awake : s.asleep t = none) (hcall : wake (s.thread t) = some c)
    (chosen : Chosen c.count (s.sleepers c.addr) woken) :
    (Mutex.program Tid).machine.Leads anyStep (mutexView s)
      (mutexView (((program Tid).resume s woken).move t s.mem c.after)) := by
  have hout : t ∉ woken := by
    intro hin
    have hasleep := (Config.mem_sleepers _).mp (chosen.1 hin)
    rw [awake] at hasleep
    cases hasleep
  have hsleeps : ∀ u ∈ woken, s.asleep u = some c.addr := fun u hu => (Config.mem_sleepers _).mp (chosen.1 hu)
  have hthread : (mutexView ((program Tid).resume s woken)).thread t = (s.thread t).cv.mutex := by
    change (if t ∈ woken then _ else _ : Thread).cv.mutex = _
    rw [if_neg hout]
  have hseq : c.addr = .seq → c.after.cv.mutex = (s.thread t).cv.mutex →
      (Mutex.program Tid).machine.Leads anyStep (mutexView s)
        (mutexView (((program Tid).resume s woken).move t s.mem c.after)) := by
    intro haddr hmutex
    have hsame : mutexView (((program Tid).resume s woken).move t s.mem c.after) =
        mutexView ((program Tid).resume s woken) := by
      rw [mutexView_move, hmutex, ← hthread]
      exact Config.ext rfl (Function.update_eq_self t _) rfl
    rw [hsame]
    refine mutexView_resume_seq hok fun u hu => (asleep_cases hsleep u).resolve_right fun hother => ?_
    exact hother.2 (by rw [hsleeps u hu, haddr])
  rcases wake_cases hcall with ⟨-, rfl⟩ | ⟨-, rfl⟩ | ⟨hpc, rfl⟩
  · exact hseq rfl rfl
  · exact hseq rfl rfl
  · have hnone : ∀ u ∈ woken, (s.thread u).comparing = false := by
      intro u hu
      rcases asleep_cases hsleep u with ⟨-, hseq⟩ | ⟨hcomparing, -⟩
      · rw [hsleeps u hu] at hseq
        cases hseq
      · exact hcomparing
    have hwake : (Mutex.program Tid).wake ((mutexView s).thread t) =
        some (futex.wake () 1 ((s.thread t).cv.mutex.at .idle)) := by
      change Mutex.wake (s.thread t).cv.mutex = _
      rw [Mutex.wake, hpc]
    rw [mutexView_move, mutexView_resume hnone]
    change (Mutex.program Tid).machine.Leads anyStep _ (((Mutex.program Tid).resume (mutexView s) woken).move t
      s.mem.cv.mutexState (ConditionVariable.Thread.settle _).mutex)
    rw [settle_mutex]
    refine .single ⟨.wake t woken, Program.next_of_wake _ (congrArg onMutex awake) hwake ?_, trivial⟩
    change Chosen (some 1) ((mutexView s).sleepers ()) woken
    rwa [mutexView_sleepers]

theorem mutexView_leads {w : History Tid} {a : Act Tid Label} {s' : State Tid} (hinv : Inv (s, w))
    (hsleep : ∀ t a, s.asleep t = some a → ∃ w, wait (s.thread t) = some w ∧ w.addr = a)
    (hnext : (program Tid).machine.next s a = some s') :
    (Mutex.program Tid).machine.Leads anyStep (mutexView s) (mutexView s') := by
  cases Program.transition_of_next _ hnext with
  | @step t l m th awake hstep =>
      have heff : Effect t w s.mem (s.thread t) (w.step t l (s.thread t)) m th ∧ _ := effect_of_step (hinv.ok t) hstep
      exact mutexView_step awake heff.2
  | @sleep t c awake hcall holds =>
      rcases wait_cases hcall with ⟨-, -, haddr, -⟩ | ⟨-, haddr, w, hwait, hholds⟩
      · rw [haddr, mutexView_sleep_seq awake]
        exact .refl
      · rw [haddr, mutexView_sleep]
        rw [hholds] at holds
        exact .single ⟨.sleep t, Program.next_of_sleep _ (congrArg onMutex awake) hwait holds, trivial⟩
  | @ret t c hcall =>
      rcases wait_cases hcall with ⟨seq, hpc, -, -⟩ | ⟨hcomparing, -, w, hwait, -⟩
      · refine mutexView_resume_seq hinv.ok fun u hu => (asleep_cases hsleep u).resolve_right fun hother => ?_
        rw [Finset.mem_singleton.mp hu, Thread.comparing, hpc] at hother
        exact Bool.noConfusion hother.1
      · rw [mutexView_resume fun u hu => by rw [Finset.mem_singleton.mp hu, hcomparing]]
        exact .single ⟨.ret t, Program.next_of_ret _ hwait, trivial⟩
  | wake awake hcall chosen => exact mutexView_wake hinv.ok hsleep awake hcall chosen
  | requeue awake hcall => cases hcall
  | refused awake hcall => cases hcall

theorem wait_of_reachable {s : State Tid × History Tid} (h : (observed Tid).Reachable fewNotifications s) :
    ∀ t a, s.1.asleep t = some a → ∃ w, wait (s.1.thread t) = some w ∧ w.addr = a := by
  have hreach : (program Tid).machine.Reachable anyStep s.1 := Machine.Leads.of_observed h fun _ => trivial
  exact fun _ _ => (program Tid).wait_of_asleep (fun _ => rfl) hreach

theorem mutexView_reachable {s : State Tid × History Tid} (h : (observed Tid).Reachable fewNotifications s) :
    (Mutex.program Tid).machine.Reachable anyStep (mutexView s.1) := by
  obtain ⟨view, hview, rfl⟩ := h.follow (Mutex.program Tid).machine anyStep (fun s view => view = mutexView s.1) rfl
    fun {u a u'} view hreach _ hR hnext _ => by
      subst hR
      exact ⟨_, mutexView_leads (inv_of_reachable hreach) (wait_of_reachable hreach)
        (Machine.observe_next hnext).1, rfl⟩
  exact hview

/-! ### No lost notification -/

/-- There are items and a consumer sleeps on `seq_`, but every consumer inside `wait` sleeps, on `seq_` or on the
mutex, and no producer is between its addition and the end of its wake. -/
def Stranded (s : State Tid) : Prop :=
  0 < s.mem.items ∧ (∃ t, s.asleep t = some .seq) ∧
    (∀ t, (s.thread t).waiting = true → s.asleep t ≠ none) ∧
    ∀ t, (s.thread t).notifying = false

instance (s : State Tid) : Decidable (Stranded s) := instDecidableAnd

/-- A thread that is awake owns the mutex, or has cleared its flag and has still to wake a waiter, or is a waiter of
the mutex that goes for the flag. -/
def MutexBusy (s : State Tid) : Prop :=
  ∃ u, s.asleep u = none ∧ ((s.thread u).held = true ∨ (s.thread u).cv.mutex.waking = true ∨
    (s.thread u).cv.mutex.registered = true)

theorem Thread.Ok.stage_take {th : Thread} (h : th.Ok) (hpc : th.pc = .take) :
    th.stage = .taking := by
  have hplaced := h.placed
  obtain ⟨⟨mutex, cpc⟩, pc⟩ := th
  obtain rfl : pc = .take := hpc
  cases cpc with
  | idle => rfl
  | waitLoad | waitUnlock | waitFutex | waitLock => cases hplaced.1
  | signalAdd | signalWake | broadcastAdd | broadcastWake =>
      rcases hplaced.2 with ⟨hpc, -⟩ | ⟨hpc, -⟩ <;> cases hpc
  | _ => exact hplaced.elim

theorem notifying_of_announces {th : Thread} (h : th.stage.announces = true) :
    th.notifying = true := by
  obtain ⟨⟨mutex, cpc⟩, pc⟩ := th
  cases cpc <;> cases pc <;> first | rfl | cases h

/-- A thread that accounts for an item is awake in its wait, or takes the item, or notifies. -/
theorem Thread.Ok.covers {th : Thread} (h : th.Ok) (hcovers : th.stage.covers = true) :
    th.waiting = true ∧ th.comparing = false ∨ th.pc = .take ∨ th.notifying = true := by
  have hplaced := h.placed
  obtain ⟨⟨mutex, cpc⟩, pc⟩ := th
  cases cpc with
  | idle =>
      cases pc with
      | loop => exact Or.inl ⟨rfl, rfl⟩
      | take => exact Or.inr (Or.inl rfl)
      | release notify => exact Or.inr (Or.inr rfl)
      | notify notify early => exact Or.inr (Or.inr rfl)
      | _ => cases hcovers
  | waitLock =>
      obtain ⟨rfl, -⟩ := hplaced
      exact Or.inl ⟨rfl, rfl⟩
  | signalAdd | signalWake =>
      refine Or.inr (Or.inr ?_)
      cases pc <;> rfl
  | _ => cases hcovers

/-- A thread that may fall asleep neither owns the mutex nor owes a wake. -/
theorem Thread.Ok.blocked {th : Thread} {c : WaitCall Mem Thread Addr} (h : th.Ok) (hcall : wait th = some c) :
    th.held = false ∧ th.cv.mutex.waking = false := by
  rcases wait_cases hcall with ⟨seq, hpc, -⟩ | ⟨-, -, w, hwait, -⟩
  · obtain ⟨hheld, hidle⟩ := h.comparing (by rw [Thread.comparing, hpc])
    exact ⟨hheld, by rw [Mutex.Thread.waking, hidle]; rfl⟩
  · obtain ⟨current, hpc, -⟩ := Mutex.wait_eq_some hwait
    refine ⟨?_, by rw [Mutex.Thread.waking, hpc]; rfl⟩
    have hplaced := h.placed
    obtain ⟨⟨⟨held, mpc⟩, cpc⟩, pc⟩ := th
    obtain rfl : mpc = .waitFutex current := hpc
    have hacq : (Mutex.Thread.mk held (.waitFutex current)).acquiring → held = false :=
      fun hacq => hacq.elim (fun hidle => Mutex.Pc.noConfusion hidle.1) And.right
    have hrel : ¬ (Mutex.Thread.mk held (.waitFutex current)).releases := by
      rintro (⟨-, hidle | hwake⟩ | hreleasing)
      · cases hidle
      · cases hwake
      · cases hreleasing
    cases cpc with
    | idle =>
        cases pc with
        | enter | produce => exact hacq hplaced
        | idle => exact absurd hplaced hrel
        | notify notify early =>
            cases early with
            | false => exact absurd hplaced hrel
            | true => exact Mutex.Pc.noConfusion hplaced.2
        | _ => exact Mutex.Pc.noConfusion hplaced.2
    | waitLock => exact hacq hplaced.2
    | waitUnlock => exact absurd hplaced.2 hrel
    | waitLoad | waitFutex => exact Mutex.Pc.noConfusion hplaced.2.2
    | requeueAdd | requeueCall => exact hplaced.elim
    | _ => exact Mutex.Pc.noConfusion hplaced.1

variable {s : State Tid × History Tid}

/-- While a thread sleeps on the mutex, the mutex is in use. -/
theorem busy_of_reachable (hcard : Fintype.card Tid < 2 ^ 31) (h : (observed Tid).Reachable fewNotifications s)
    (hsleep : ∃ t, s.1.asleep t = some .mutex) : MutexBusy s.1 := by
  have hinv := inv_of_reachable h
  have hawake : ∀ u, (s.1.thread u).held = true ∨ (s.1.thread u).cv.mutex.waking = true → s.1.asleep u = none := by
    intro u hu
    cases hasleep : s.1.asleep u with
    | none => rfl
    | some a =>
        obtain ⟨w, hwait, -⟩ := wait_of_reachable h u a hasleep
        obtain ⟨hheld, hwaking⟩ := (hinv.ok u).blocked hwait
        rw [hheld, hwaking] at hu
        exact hu.elim Bool.noConfusion Bool.noConfusion
  by_cases hfree : s.1.mem.cv.mutexState &&& Mutex.lockedFlag = 0
  · obtain ⟨t, ht⟩ := hsleep
    rcases (Mutex.wakeup_of_reachable hcard (mutexView_reachable h)).attended hfree ⟨t, onMutex_eq_some.mpr ht⟩ with
      ⟨u, hu⟩ | ⟨u, hu, hasleep⟩
    · exact ⟨u, hawake u (Or.inr hu), Or.inr (Or.inl hu)⟩
    · refine ⟨u, ?_, Or.inr (Or.inr hu)⟩
      rcases asleep_cases (wait_of_reachable h) u with ⟨hcomparing, -⟩ | ⟨-, hseq⟩
      · -- a thread at the compare on `seq_` is in no call of the mutex
        have hidle := ((hinv.ok u).comparing hcomparing).2
        change Mutex.Thread.registered (s.1.thread u).cv.mutex = true at hu
        rw [Mutex.Thread.registered, hidle] at hu
        cases hu
      · change onMutex (s.1.asleep u) = none at hasleep
        cases hword : s.1.asleep u with
        | none => rfl
        | some a =>
            cases a with
            | mutex => rw [hword] at hasleep; cases hasleep
            | seq => exact absurd hword hseq
  · rw [Mutex.locked_iff] at hfree
    obtain ⟨u, hu⟩ := hinv.owner.iff.mp (by omega)
    exact ⟨u, hawake u (Or.inl hu), Or.inl hu⟩

/-- Every predicate wait returns with the mutex, and with an item. In a state with items in which a consumer sleeps on
`seq_`, some consumer is awake in its wait or has still to take its item, or a producer has still to finish its
notification, or a consumer waits for the mutex inside its wait while the mutex is in use. -/
theorem condvar_no_lost_notification (h : (observed Tid).Reachable fewNotifications s) :
    (∀ t, (s.1.thread t).pc = .take → (s.1.thread t).held = true ∧
      (∀ u, (s.1.thread u).held = true → u = t) ∧ 0 < s.1.mem.items) ∧
    (Stranded s.1 → (∃ t, (s.1.thread t).pc = .take) ∨
      (∃ t, (s.1.thread t).waiting = true ∧ s.1.asleep t = some .mutex) ∧
        (Fintype.card Tid < 2 ^ 31 → MutexBusy s.1)) := by
  have hinv := inv_of_reachable h
  refine ⟨fun t hpc => ?_, ?_⟩
  · have hstage := (hinv.ok t).stage_take hpc
    have hheld := (hinv.ok t).taking hstage
    exact ⟨hheld, fun u hu => hinv.owner.unique u t hu hheld, hinv.balanced.full t hstage⟩
  · rintro ⟨hitems, hasleep, hwaiting, hdone⟩
    have hquiet : ∀ u, (s.1.thread u).notifying ≠ true := fun u => by rw [hdone u]; exact Bool.noConfusion
    rcases hinv.balanced.covered hasleep with ⟨u, hu⟩ | hle
    · exact absurd (notifying_of_announces hu) (hquiet u)
    · obtain ⟨u, hu⟩ := count_pos.mp (lt_of_lt_of_le hitems hle)
      rcases (hinv.ok u).covers hu with ⟨hin, hawake⟩ | hpc | hnotifying
      · have hmutex : s.1.asleep u = some .mutex := by
          cases hword : s.1.asleep u with
          | none => exact absurd hword (hwaiting u hin)
          | some a =>
              cases a with
              | mutex => rfl
              | seq => rw [hinv.asleep u hword] at hawake; cases hawake
        exact Or.inr ⟨⟨u, hin, hmutex⟩, fun hcard => busy_of_reachable hcard h ⟨u, hmutex⟩⟩
      · exact Or.inl ⟨u, hpc⟩
      · exact absurd hnotifying (hquiet u)

/-- A consumer finds no item and falls asleep in `wait`. -/
def sleepRun (t : Tid) : List (Act Tid Label) :=
  [.step t .consume] ++ List.replicate 6 (.step t .run) ++ [.sleep t]

/-- Threads `a` and `b` sleep in `wait`; `c` adds an item and signals after its unlock, and `a` is woken. -/
def lateRun (a b c : Tid) : List (Act Tid Label) :=
  sleepRun a ++ sleepRun b ++ [.step c .produce, .step c .run, .step c (.add 1 .signal false)] ++
    List.replicate 5 (.step c .run) ++ [.wake c {a}]

/-- Threads `a` and `b` sleep in `wait`; `c` adds an item and signals before its unlock, and `a` is woken and falls
asleep on the mutex. -/
def earlyRun (a b c : Tid) : List (Act Tid Label) :=
  sleepRun a ++ sleepRun b ++ [.step c .produce, .step c .run, .step c (.add 1 .signal true)] ++
    List.replicate 2 (.step c .run) ++ [.wake c {a}] ++ List.replicate 73 (.step a .run) ++ [.sleep a]

/-- Thread `t` falls asleep in the `lock` with which a producer begins. -/
def blockedRun (t : Tid) : List (Act Tid Label) :=
  [.step t .produce] ++ List.replicate 73 (.step t .run) ++ [.sleep t]

theorem condvar_no_lost_notification_woken : ∃ s : State Runner × History Runner,
    Stranded s.1 ∧
      ((∀ t, (s.1.thread t).pc = .take → (s.1.thread t).held = true ∧
        (∀ u, (s.1.thread u).held = true → u = t) ∧ 0 < s.1.mem.items) ∧
      (Stranded s.1 → (∃ t, (s.1.thread t).pc = .take) ∨
        (∃ t, (s.1.thread t).waiting = true ∧ s.1.asleep t = some .mutex) ∧
          (Fintype.card Runner < 2 ^ 31 → MutexBusy s.1))) :=
  ⟨((observed Runner).run fewNotifications (observed Runner).init (earlyRun .a .b .c)).get (by decide +kernel),
    by decide +kernel, condvar_no_lost_notification (.of_run _ _)⟩

/-- The woken consumer has returned from `wait` and has not taken the item yet, while the other one sleeps. Or it is
asleep inside `wait` on the mutex, which the producer still owns, or of which the producer has cleared the flag and
not yet woken anybody, or for which another producer goes that the unlock has woken. -/
theorem condvar_returned_before_take :
    (∃ s : State (Fin 4) × History (Fin 4), (observed (Fin 4)).Reachable fewNotifications s ∧ Stranded s.1 ∧
      ∃ t, (s.1.thread t).pc = .take) ∧
    (∃ s : State (Fin 4) × History (Fin 4), (observed (Fin 4)).Reachable fewNotifications s ∧ Stranded s.1 ∧
      (∀ t, (s.1.thread t).pc ≠ .take) ∧ ∃ t, (s.1.thread t).held = true) ∧
    (∃ s : State (Fin 4) × History (Fin 4), (observed (Fin 4)).Reachable fewNotifications s ∧ Stranded s.1 ∧
      (∀ t, (s.1.thread t).held = false) ∧ ∃ t, (s.1.thread t).cv.mutex.waking = true) ∧
    ∃ s : State (Fin 4) × History (Fin 4), (observed (Fin 4)).Reachable fewNotifications s ∧ Stranded s.1 ∧
      ∀ t, (s.1.thread t).held = false ∧ (s.1.thread t).cv.mutex.waking = false :=
  ⟨⟨((observed (Fin 4)).run fewNotifications (observed (Fin 4)).init
        (lateRun 0 1 2 ++ List.replicate 2 (.step 0 .run))).get (by decide +kernel),
      .of_run _ _, by decide +kernel, 0, by decide +kernel⟩,
    ⟨((observed (Fin 4)).run fewNotifications (observed (Fin 4)).init (earlyRun 0 1 2)).get (by decide +kernel),
      .of_run _ _, by decide +kernel, by decide +kernel, 2, by decide +kernel⟩,
    ⟨((observed (Fin 4)).run fewNotifications (observed (Fin 4)).init
        (earlyRun 0 1 2 ++ List.replicate 3 (.step 2 .run))).get (by decide +kernel),
      .of_run _ _, by decide +kernel, by decide +kernel, 2, by decide +kernel⟩,
    ⟨((observed (Fin 4)).run fewNotifications (observed (Fin 4)).init
        (earlyRun 0 1 2 ++ blockedRun 3 ++ List.replicate 3 (.step 2 .run) ++ [.wake 2 {3}])).get (by decide +kernel),
      .of_run _ _, by decide +kernel, by decide +kernel⟩⟩

end Psync.ConditionVariable.Client
