import Psync.MutexModel

/-! Mutual exclusion of the mutex and the meaning of its state word: the word is twice the number of
registered waiters plus the number of owners, in every reachable state. -/

namespace Psync.Mutex

open Concurrency MachineWord

/-! ### The word as a number -/

theorem locked_iff (state : U32) : state &&& lockedFlag = 0 ↔ state.toNat % 2 = 0 := by
  rw [eq_zero_iff]
  exact Eq.congr_left (toNat_and_low (k := 1) state (by decide))

theorem toNat_clear (state : U32) : (state &&& ~~~lockedFlag).toNat = state.toNat / 2 * 2 :=
  toNat_and_high (k := 1) state (by decide)

theorem toNat_add_waiter (state : U32) (h : state.toNat + 2 < 2 ^ 32) :
    (state + waiterIncrement).toNat = state.toNat + 2 :=
  BitVec.toNat_add_of_lt h

theorem toNat_acquire (current : U32) (heven : current.toNat % 2 = 0) (hpos : 2 ≤ current.toNat) :
    ((current - waiterIncrement) ||| lockedFlag).toNat = current.toNat - 1 := by
  have hsub : (current - waiterIncrement).toNat = current.toNat - 2 :=
    BitVec.toNat_sub_of_le hpos
  rw [show lockedFlag = 1#32 from rfl, toNat_or_one _ (by decide) (by omega), hsub]
  omega

theorem toNat_eq_one_iff (state : U32) : state = lockedNoWaiters ↔ state.toNat = 1 := by
  rw [BitVec.toNat_eq]
  exact Iff.rfl

@[simp] theorem Thread.registered_idle (held : Bool) :
    (Thread.mk held .idle).registered = false := rfl

@[simp] theorem Thread.registered_unlockWake (held : Bool) :
    (Thread.mk held .unlockWake).registered = false := rfl

/-! ### What a step can do -/

/-- The thread is in `unlock`, before the step that clears the locked flag. -/
def Thread.releasing (th : Thread) : Bool :=
  match th.pc with
  | .unlockLoad | .unlockCas | .unlockReload | .unlockClear => true
  | _ => false

/-- What a thread knows about itself: it releases only what it owns, it owns what `try_lock` has given it, and
its copy of the word had the locked flag clear before the acquiring CAS and set before `futex::wait`. -/
structure Thread.Ok (th : Thread) : Prop where
  releasing : th.releasing = true → th.held = true
  tried : th.pc = .tried true → th.held = true
  waitCas : ∀ current, th.pc = .waitCas current → current.toNat % 2 = 0
  waitFutex : ∀ current, th.pc = .waitFutex current → current.toNat % 2 = 1

/-- The ways in which one step changes the word and the thread that takes it. -/
inductive Effect (state : U32) (th : Thread) : U32 → Thread → Prop
  | keep {th' : Thread} (held : th'.held = th.held) (registered : th'.registered = th.registered)
      (waking : th.waking = false) : Effect state th state th'
  | acquire {pc : Pc} (free : state.toNat = 0) (after : pc = .idle ∨ pc = .tried true)
      (registered : th.registered = false) (waking : th.waking = false) :
      Effect state th lockedNoWaiters ⟨true, pc⟩
  | register {th' : Thread} (held : th'.held = th.held) (out : th.registered = false)
      (registered : th'.registered = true) (waking : th.waking = false) :
      Effect state th (state + waiterIncrement) th'
  | acquireWaiter (free : state.toNat % 2 = 0) (registered : th.registered = true)
      (waking : th.waking = false) :
      Effect state th ((state - waiterIncrement) ||| lockedFlag) ⟨true, .idle⟩
  | release (only : state.toNat = 1) (held : th.held = true) (registered : th.registered = false)
      (waking : th.waking = false) : Effect state th unlocked ⟨false, .idle⟩
  | clear (held : th.held = true) (registered : th.registered = false)
      (waking : th.waking = false) :
      Effect state th (state &&& ~~~lockedFlag) ⟨false, .unlockWake⟩

theorem Thread.afterSpin_plain (held : Bool) (i spinCount backoff : ℕ) :
    (Thread.mk held (afterSpin i spinCount backoff)).registered = false ∧
      (Thread.mk held (afterSpin i spinCount backoff)).releasing = false ∧
      afterSpin i spinCount backoff ≠ .tried true := by
  unfold afterSpin
  split_ifs <;> exact ⟨rfl, rfl, nofun⟩

theorem Thread.Ok.unlocking {th : Thread} {pc : Pc} (hheld : th.held = true)
    (hcas : ∀ current, pc ≠ .waitCas current) (hfutex : ∀ current, pc ≠ .waitFutex current) :
    (th.at pc).Ok where
  releasing _ := hheld
  tried _ := hheld
  waitCas current h := absurd h (hcas current)
  waitFutex current h := absurd h (hfutex current)

theorem Thread.Ok.plain {held : Bool} {pc : Pc} (hrel : (Thread.mk held pc).releasing = false)
    (hreg : (Thread.mk held pc).registered = false) (htried : pc ≠ .tried true) : (Thread.mk held pc).Ok where
  releasing h := by rw [hrel] at h; cases h
  tried h := absurd h htried
  waitCas current h := by cases h; cases hreg
  waitFutex current h := by cases h; cases hreg

theorem effect_of_run {state state' : U32} {th th' : Thread} (hok : th.Ok)
    (h : run state th = some (state', th')) : Effect state th state' th' ∧ th'.Ok := by
  obtain ⟨held, pc⟩ := th
  cases pc with
  | idle => cases h
  | waitFutex current => cases h
  | unlockWake => cases h
  | lockFast =>
      simp only [run] at h
      split_ifs at h with hfree <;> cases h
      · exact ⟨.acquire (congrArg BitVec.toNat hfree) (Or.inl rfl) rfl rfl, .plain rfl rfl nofun⟩
      · exact ⟨.keep rfl rfl rfl, .plain rfl rfl nofun⟩
  | tryLock =>
      have hwon : (Thread.at ⟨true, .idle⟩ (.tried true)).Ok := .unlocking rfl nofun nofun
      simp only [run] at h
      split_ifs at h with hfree <;> cases h
      · exact ⟨.acquire (congrArg BitVec.toNat hfree) (Or.inr rfl) rfl rfl, hwon⟩
      · exact ⟨.keep rfl rfl rfl, .plain rfl rfl nofun⟩
  | tried result =>
      cases h
      exact ⟨.keep rfl rfl rfl, .plain rfl rfl nofun⟩
  | spin i spinCount backoff =>
      simp only [run] at h
      split_ifs at h with hfree <;> cases h
      · exact ⟨.acquire (congrArg BitVec.toNat hfree) (Or.inl rfl) rfl rfl, .plain rfl rfl nofun⟩
      · have hspin := Thread.afterSpin_plain held i spinCount backoff
        exact ⟨.keep rfl hspin.1 rfl, .plain hspin.2.1 hspin.1 hspin.2.2⟩
  | register =>
      cases h
      refine ⟨.register rfl rfl rfl rfl, ⟨fun h => ?_, fun h => ?_, fun _ h => ?_, fun _ h => ?_⟩⟩ <;> cases h
  | waitLoad =>
      simp only [run] at h
      split_ifs at h with hfree <;> cases h
      · refine ⟨.keep rfl rfl rfl, ⟨fun h => ?_, fun h => ?_, fun _ h => ?_, fun _ h => ?_⟩⟩ <;> cases h
        exact (locked_iff state).mp hfree
      · refine ⟨.keep rfl rfl rfl, ⟨fun h => ?_, fun h => ?_, fun _ h => ?_, fun _ h => ?_⟩⟩ <;> cases h
        rw [locked_iff] at hfree
        omega
  | waitCas current =>
      simp only [run] at h
      split_ifs at h with hsame <;> cases h
      · subst hsame
        exact ⟨.acquireWaiter (hok.waitCas state rfl) rfl rfl, .plain rfl rfl nofun⟩
      · refine ⟨.keep rfl rfl rfl, ⟨fun h => ?_, fun h => ?_, fun _ h => ?_, fun _ h => ?_⟩⟩ <;> cases h
  | unlockLoad =>
      have hheld := hok.releasing rfl
      simp only [run] at h
      split_ifs at h <;> cases h
      · exact ⟨.keep rfl rfl rfl, .unlocking hheld nofun nofun⟩
      · exact ⟨.keep rfl rfl rfl, .unlocking hheld nofun nofun⟩
  | unlockCas =>
      have hheld := hok.releasing rfl
      simp only [run] at h
      split_ifs at h with hone <;> cases h
      · exact ⟨.release ((toNat_eq_one_iff state).mp hone) hheld rfl rfl, .plain rfl rfl nofun⟩
      · exact ⟨.keep rfl rfl rfl, .unlocking hheld nofun nofun⟩
  | unlockReload =>
      cases h
      exact ⟨.keep rfl rfl rfl, .unlocking (hok.releasing rfl) nofun nofun⟩
  | unlockClear =>
      cases h
      exact ⟨.clear (hok.releasing rfl) rfl rfl, .plain rfl rfl nofun⟩

theorem effect_of_step {l : Label} {state state' : U32} {th th' : Thread} (hok : th.Ok)
    (h : step l state th = some (state', th')) : Effect state th state' th' ∧ th'.Ok := by
  obtain ⟨held, pc⟩ := th
  cases l with
  | run => exact effect_of_run hok h
  | lock =>
      simp only [step, Option.ite_none_right_eq_some] at h
      obtain ⟨rfl, h⟩ := h
      cases h
      exact ⟨.keep rfl rfl rfl, .plain rfl rfl nofun⟩
  | tryLock =>
      simp only [step, Option.ite_none_right_eq_some] at h
      obtain ⟨rfl, h⟩ := h
      cases h
      exact ⟨.keep rfl rfl rfl, .plain rfl rfl nofun⟩
  | unlock =>
      simp only [step, Option.ite_none_right_eq_some] at h
      obtain ⟨⟨rfl, hheld⟩, h⟩ := h
      cases h
      exact ⟨.keep rfl rfl rfl, .unlocking hheld nofun nofun⟩

/-! ### The kernel changes only where a thread is -/

theorem wait_eq_some {th : Thread} {w : WaitCall U32 Thread Unit} (h : wait th = some w) :
    ∃ current, th.pc = .waitFutex current ∧ w = futex.wait () id current (th.at .waitLoad) := by
  obtain ⟨held, pc⟩ := th
  cases pc <;> cases h
  exact ⟨_, rfl, rfl⟩

theorem wake_eq_some {th : Thread} {w : WakeCall Thread Unit} (h : wake th = some w) :
    th.pc = .unlockWake ∧ w = futex.wake () 1 (th.at .idle) := by
  obtain ⟨held, pc⟩ := th
  cases pc <;> cases h
  exact ⟨rfl, rfl⟩

variable {Tid : Type*}

theorem afterWait_held (th : Thread) : ((program Tid).afterWait th).held = th.held := by
  obtain ⟨held, pc⟩ := th
  cases pc <;> rfl

theorem afterWait_registered (th : Thread) :
    ((program Tid).afterWait th).registered = th.registered := by
  obtain ⟨held, pc⟩ := th
  cases pc <;> rfl

theorem Thread.Ok.afterWait {th : Thread} (h : th.Ok) : ((program Tid).afterWait th).Ok := by
  obtain ⟨held, pc⟩ := th
  cases pc with
  | waitFutex current => refine ⟨fun h => ?_, fun h => ?_, fun _ h => ?_, fun _ h => ?_⟩ <;> cases h
  | _ => exact h

/-! ### The invariant -/

variable {s : Config Tid U32 Thread Unit}

theorem ok_move [DecidableEq Tid] {t : Tid} {m : U32} {th : Thread}
    (h : ∀ u, (s.thread u).Ok) (hth : th.Ok) : ∀ u, ((s.move t m th).thread u).Ok := by
  intro u
  rw [Config.move_thread, Function.update_apply]
  split_ifs
  · exact hth
  · exact h u

variable [Fintype Tid]

/-- The word counts the registered waiters above the bit that counts the owners. -/
structure Inv (s : Config Tid U32 Thread Unit) : Prop where
  ok : ∀ t, (s.thread t).Ok
  word : s.mem.toNat = 2 * count Thread.registered s.thread + count Thread.held s.thread
  one : count Thread.held s.thread ≤ 1

theorem toNat_shift (state : U32) : (state >>> 1).toNat = state.toNat / 2 := by
  rw [BitVec.toNat_ushiftRight, Nat.shiftRight_eq_div_pow, pow_one]

theorem Inv.waiters (h : Inv s) : (s.mem >>> 1).toNat = count Thread.registered s.thread := by
  have := h.word
  have := h.one
  rw [toNat_shift]
  omega

theorem Inv.locked (h : Inv s) : s.mem &&& lockedFlag ≠ 0 ↔ ∃ t, (s.thread t).held = true := by
  have := h.word
  have := h.one
  rw [ne_eq, locked_iff, ← count_pos]
  omega

theorem Inv.two_le (h : Inv s) {t : Tid} (hreg : (s.thread t).registered = true) :
    2 ≤ s.mem.toNat := by
  have := h.word
  have := count_pos_of (f := s.thread) hreg
  omega

theorem Inv.idle (h : Inv s) (hidle : ∀ t, (s.thread t).held = false ∧ (s.thread t).locking = false) :
    s.mem = 0 := by
  have hreg : count Thread.registered s.thread = 0 := by
    refine count_eq_zero.mpr fun t => Bool.eq_false_iff.mpr fun hreg => ?_
    have hlocking := (hidle t).2
    rw [Thread.locking_of_registered hreg] at hlocking
    cases hlocking
  have hheld : count Thread.held s.thread = 0 := count_eq_zero.mpr fun t => (hidle t).1
  rw [eq_zero_iff, h.word, hreg, hheld]

variable [DecidableEq Tid]

theorem Inv.init : Inv (program Tid).machine.init where
  ok _ := .plain rfl rfl nofun
  word := by
    rw [count_eq_zero.mpr (fun _ => rfl), count_eq_zero.mpr (fun _ => rfl)]
    rfl
  one := by
    rw [count_eq_zero.mpr (fun _ => rfl)]
    exact Nat.zero_le _

/-- A step keeps the invariant. -/
theorem Inv.move {t : Tid} {m : U32} {th : Thread} (h : Inv s)
    (hcard : Fintype.card Tid < 2 ^ 31) (heff : Effect s.mem (s.thread t) m th) (hok : th.Ok) :
    Inv (s.move t m th) := by
  have hword := h.word
  have hone := h.one
  have hreg := count_update (p := Thread.registered) (f := s.thread) t th
  have hheld := count_update (p := Thread.held) (f := s.thread) t th
  have hle := count_le_card (p := Thread.registered) (f := Function.update s.thread t th)
  -- an even word has no owner, so the thread that acquires did not own the mutex before
  have hfree : s.mem.toNat % 2 = 0 → (s.thread t).held = false ∧ count Thread.held s.thread = 0 := by
    intro heven
    have hcount : count Thread.held s.thread = 0 := by omega
    exact ⟨count_eq_zero.mp hcount t, hcount⟩
  have key : m.toNat = 2 * count Thread.registered (Function.update s.thread t th) +
      count Thread.held (Function.update s.thread t th) ∧
      count Thread.held (Function.update s.thread t th) ≤ 1 := by
    cases heff with
    | keep held registered =>
        rw [held] at hheld
        rw [registered] at hreg
        omega
    | @acquire pc free after registered =>
        obtain ⟨hout, hzero⟩ := hfree (by omega)
        have hpc : (Thread.mk true pc).registered = false := by rcases after with rfl | rfl <;> rfl
        simp only [registered, hout, hpc, Bool.toNat_false, Bool.toNat_true] at hreg hheld
        rw [show lockedNoWaiters.toNat = 1 from rfl]
        omega
    | register held out registered =>
        simp only [out, registered, held, Bool.toNat_false, Bool.toNat_true] at hreg hheld
        rw [toNat_add_waiter _ (by omega)]
        omega
    | acquireWaiter free registered =>
        obtain ⟨hout, hzero⟩ := hfree free
        simp only [registered, hout, Thread.registered_idle, Bool.toNat_false, Bool.toNat_true]
          at hreg hheld
        rw [toNat_acquire _ free (by omega)]
        omega
    | release only held registered =>
        simp only [held, registered, Thread.registered_idle, Bool.toNat_false, Bool.toNat_true]
          at hreg hheld
        rw [show unlocked.toNat = 0 from rfl]
        omega
    | clear held registered =>
        simp only [held, registered, Thread.registered_unlockWake, Bool.toNat_false,
          Bool.toNat_true] at hreg hheld
        rw [toNat_clear]
        omega
  exact ⟨ok_move h.ok hok, key.1, key.2⟩

theorem Inv.resume (h : Inv s) (woken : Finset Tid) : Inv ((program Tid).resume s woken) where
  ok u := by
    rw [Program.resume_thread]
    split_ifs
    · exact (h.ok u).afterWait
    · exact h.ok u
  word := by
    rw [count_congr (fun u => Program.resume_same _ afterWait_registered s woken u),
      count_congr (fun u => Program.resume_same _ afterWait_held s woken u)]
    exact h.word
  one := by
    rw [count_congr (fun u => Program.resume_same _ afterWait_held s woken u)]
    exact h.one

/-- The thread that has executed `futex::wake` returns from `unlock`. -/
theorem Inv.wake {t : Tid} {th : Thread} (h : Inv s) (hok : th.Ok)
    (hheld : th.held = (s.thread t).held) (hreg : th.registered = (s.thread t).registered) :
    Inv (s.move t s.mem th) where
  ok := ok_move h.ok hok
  word := by
    rw [Config.move_thread, count_update_same hreg, count_update_same hheld]
    exact h.word
  one := by
    rw [Config.move_thread, count_update_same hheld]
    exact h.one

theorem inv_of_reachable (hcard : Fintype.card Tid < 2 ^ 31)
    (h : (program Tid).machine.Reachable anyStep s) : Inv s := by
  refine h.induct Inv.init ?_
  intro s a s' _ ih hnext _
  cases Program.transition_of_next _ hnext with
  | step awake hstep =>
      obtain ⟨heff, hok⟩ := effect_of_step (ih.ok _) hstep
      exact ih.move hcard heff hok
  | sleep awake hwait holds => exact ⟨ih.ok, ih.word, ih.one⟩
  | ret hwait => exact ih.resume _
  | @wake t w woken awake hwake chosen =>
      obtain ⟨hpc, rfl⟩ := wake_eq_some hwake
      refine (ih.resume woken).wake (.plain rfl rfl nofun) ?_ ?_
      · exact (Program.resume_same _ afterWait_held s woken t).symm
      · rw [Program.resume_same _ afterWait_registered s woken t]
        unfold Thread.registered
        rw [hpc]
        rfl
  | requeue awake hrequeue => cases hrequeue
  | refused awake hrequeue => cases hrequeue

/-! ### The meaning of `state_` -/

/-- `state_` describes the threads exactly. -/
structure Accurate (s : Config Tid U32 Thread Unit) : Prop where
  /-- At most one thread owns the mutex. -/
  exclusive : ∀ t u, (s.thread t).held = true → (s.thread u).held = true → t = u
  /-- A thread to which `try_lock` has answered `true` owns it. -/
  tried : ∀ t, (s.thread t).pc = .tried true → (s.thread t).held = true
  /-- Bit 0 is set exactly when a thread owns it. -/
  locked : s.mem &&& lockedFlag ≠ 0 ↔ ∃ t, (s.thread t).held = true
  /-- The bits above count the threads between their registration and their acquisition. -/
  waiters : (s.mem >>> 1).toNat = count Thread.registered s.thread
  /-- The acquiring CAS of a waiter has a waiter to subtract. -/
  noUnderflow : ∀ t current, (s.thread t).pc = .waitCas current → s.mem = current →
    waiterIncrement.toNat ≤ current.toNat
  /-- No step removes or adds another thread's registration. -/
  kept : ∀ t l s', (program Tid).machine.next s (.step t l) = some s' →
    (s'.mem >>> 1).toNat + (s.thread t).registered.toNat =
      (s.mem >>> 1).toNat + (s'.thread t).registered.toNat
  /-- The word is zero when no thread owns the mutex or is inside `lock`. -/
  idle : (∀ t, (s.thread t).held = false ∧ (s.thread t).locking = false) → s.mem = 0

theorem mutex_state_accurate (hcard : Fintype.card Tid < 2 ^ 31)
    (h : (program Tid).machine.Reachable anyStep s) : Accurate s := by
  have hinv := inv_of_reachable hcard h
  refine ⟨fun t u => eq_of_count_le_one hinv.one, fun t => (hinv.ok t).tried, hinv.locked, hinv.waiters, ?_, ?_,
    hinv.idle⟩
  · rintro t current hpc rfl
    exact hinv.two_le (t := t) (by rw [Thread.registered, hpc])
  · intro t l s' hnext
    have hinv' := inv_of_reachable hcard (h.next hnext trivial)
    rw [hinv.waiters, hinv'.waiters]
    cases Program.transition_of_next _ hnext with
    | step awake hstep =>
        rw [Config.move_thread, Function.update_self]
        exact count_update t _

/-- Thread `a` holds the mutex and thread `b` has spun in vain. -/
def contendedRun : List (Act Runner Label) :=
  [.step .a .lock, .step .a .run, .step .b .lock] ++ List.replicate 71 (.step .b .run) ++
    [.step .b .run, .step .b .run, .sleep .b]

theorem mutex_state_accurate_contended : ∃ s : Config Runner U32 Thread Unit,
    s.mem = 3 ∧ s.asleep .b = some () ∧ Accurate s :=
  ⟨((program Runner).machine.run anyStep (program Runner).machine.init contendedRun).get
    (by decide), by decide, by decide, mutex_state_accurate (by decide) (.of_run _ _)⟩

end Psync.Mutex
