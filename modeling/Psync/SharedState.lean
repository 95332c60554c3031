import Psync.SharedModel

/-! Reader/writer exclusion and the three fields of the state word. -/

namespace Psync.SharedMutex

open Concurrency MachineWord

/-! ### The word as a number -/

theorem writerFlag_iff (state : U32) : state &&& writerLocked = 0 ↔ state.toNat % 2 = 0 := by
  rw [eq_zero_iff]
  exact Eq.congr_left (toNat_and_low (k := 1) state (by decide))

theorem toNat_clearWriter (state : U32) :
    (state &&& ~~~writerLocked).toNat = state.toNat / 2 * 2 :=
  toNat_and_high (k := 1) state (by decide)

/-- No writer holds or waits. -/
theorem noWriter_iff (state : U32) :
    state &&& (writerLocked ||| writerWaitingMask) = 0 ↔ state.toNat % 65536 = 0 := by
  rw [eq_zero_iff, show writerLocked ||| writerWaitingMask = BitVec.ofNat 32 (2 ^ 16 - 1) by decide,
    toNat_and_low state (by decide)]
  exact Iff.rfl

theorem toNat_readers (state : U32) : (state &&& readerMask).toNat = state.toNat / 65536 * 65536 := by
  rw [show readerMask = ~~~BitVec.ofNat 32 (2 ^ 16 - 1) by decide,
    toNat_and_high state (by decide)]
  rfl

theorem toNat_waiting (state : U32) :
    (state &&& writerWaitingMask).toNat = state.toNat % 65536 / 2 * 2 := by
  rw [show writerWaitingMask = BitVec.ofNat 32 (2 ^ 16 - 1) &&& ~~~BitVec.ofNat 32 (2 ^ 1 - 1) by
    decide, ← BitVec.and_assoc, toNat_and_high _ (by decide), toNat_and_low state (by decide)]
  rfl

/-- No writer and no reader holds. -/
theorem noHolder_iff (state : U32) :
    state &&& (writerLocked ||| readerMask) = 0 ↔
      state.toNat % 2 = 0 ∧ state.toNat / 65536 = 0 := by
  have hdistrib : state &&& (writerLocked ||| readerMask) =
      (state &&& writerLocked) ||| (state &&& readerMask) := by
    ext i
    simp only [BitVec.getElem_and, BitVec.getElem_or, Bool.and_or_distrib_left]
  rw [hdistrib, BitVec.ofNat_eq_ofNat, BitVec.or_eq_zero_iff]
  refine and_congr (writerFlag_iff state) ?_
  rw [← BitVec.ofNat_eq_ofNat, eq_zero_iff, toNat_readers]
  omega

theorem readerField (state : U32) :
    ((state &&& readerMask) >>> readerShift).toNat = state.toNat / 65536 := by
  rw [BitVec.toNat_ushiftRight, toNat_readers, Nat.shiftRight_eq_div_pow]
  exact Nat.mul_div_cancel _ (by decide)

theorem waitingField (state : U32) :
    ((state &&& writerWaitingMask) >>> 1).toNat = state.toNat % 65536 / 2 := by
  rw [BitVec.toNat_ushiftRight, toNat_waiting, Nat.shiftRight_eq_div_pow]
  exact Nat.mul_div_cancel _ (by decide)

theorem lastReader_iff (prev : U32) :
    lastReader prev = true ↔ prev.toNat / 65536 = 1 ∧ prev.toNat % 65536 / 2 ≠ 0 := by
  have hcount : ((prev &&& readerMask) >>> readerShift) - 1 = 0 ↔ prev.toNat / 65536 = 1 := by
    rw [BitVec.sub_eq_iff_eq_add, BitVec.toNat_eq, readerField]
    exact Iff.rfl
  rw [lastReader, decide_eq_true_eq, hcount, ne_eq, eq_zero_iff, toNat_waiting]
  omega

theorem toNat_addWriter (state : U32) (h : state.toNat + 2 < 2 ^ 32) :
    (state + writerWaitingInc).toNat = state.toNat + 2 :=
  BitVec.toNat_add_of_lt h

theorem toNat_addReader (state : U32) (h : state.toNat + 65536 < 2 ^ 32) :
    (state + readerIncrement).toNat = state.toNat + 65536 :=
  BitVec.toNat_add_of_lt h

theorem toNat_subReader (state : U32) (h : 65536 ≤ state.toNat) :
    (state - readerIncrement).toNat = state.toNat - 65536 :=
  BitVec.toNat_sub_of_le h

theorem toNat_acquire (current : U32) (heven : current.toNat % 2 = 0) (hpos : 2 ≤ current.toNat) :
    ((current - writerWaitingInc) ||| writerLocked).toNat = current.toNat - 1 := by
  have hsub : (current - writerWaitingInc).toNat = current.toNat - 2 :=
    BitVec.toNat_sub_of_le hpos
  rw [show writerLocked = 1#32 from rfl, toNat_or_one _ (by decide) (by omega), hsub]
  omega

/-! ### What a step can do -/

/-- What a thread knows about itself: it holds what a `try_lock` has given it, it releases only what it holds,
its copy of the word allowed the acquisition before a CAS, and forbade it before `futex::wait`. -/
structure Thread.Ok (th : Thread) : Prop where
  tried : th.pc = .tried true → th.held = true
  triedShared : th.pc = .triedShared true → 0 < th.shared
  unlockClear : th.pc = .unlockClear → th.held = true
  unlockSharedSub : th.pc = .unlockSharedSub → 0 < th.shared
  waitCas : ∀ current spinCount backoff, th.pc = .waitCas current spinCount backoff →
    current.toNat % 2 = 0 ∧ current.toNat / 65536 = 0
  waitFutex : ∀ current, th.pc = .waitFutex current →
    ¬ (current.toNat % 2 = 0 ∧ current.toNat / 65536 = 0)
  sharedCas : ∀ trying current, th.pc = .sharedCas trying current → current.toNat % 65536 = 0
  sharedWaitCas : ∀ current spinCount backoff, th.pc = .sharedWaitCas current spinCount backoff →
    current.toNat % 65536 = 0
  sharedWaitFutex : ∀ current, th.pc = .sharedWaitFutex current → current.toNat % 65536 ≠ 0

/-- The ways in which one step changes the word and the thread that takes it. -/
inductive Effect (state : U32) (th : Thread) : U32 → Thread → Prop
  | keep {th' : Thread} (held : th'.held = th.held) (shared : th'.shared = th.shared)
      (registered : th'.registered = th.registered) (waking : th.waking = false) :
      Effect state th state th'
  | acquire {pc : Pc} (free : state.toNat = 0) (after : pc = .idle ∨ pc = .tried true)
      (registered : th.registered = false) (waking : th.waking = false) :
      Effect state th writerLocked (th.own pc)
  | register {th' : Thread} (held : th'.held = th.held) (shared : th'.shared = th.shared)
      (out : th.registered = false) (registered : th'.registered = true)
      (waking : th.waking = false) : Effect state th (state + writerWaitingInc) th'
  | acquireWaiter (free : state.toNat % 2 = 0 ∧ state.toNat / 65536 = 0)
      (registered : th.registered = true) (waking : th.waking = false) :
      Effect state th ((state - writerWaitingInc) ||| writerLocked) (th.own .idle)
  | unlock {th' : Thread} (held : th.held = true) (held' : th'.held = false)
      (shared : th'.shared = th.shared) (registered : th.registered = false)
      (registered' : th'.registered = false) (waking : th.waking = false)
      (waking' : th'.waking = true) : Effect state th (state &&& ~~~writerLocked) th'
  | share {pc : Pc} (free : state.toNat % 65536 = 0) (after : pc = .idle ∨ pc = .triedShared true)
      (registered : th.registered = false) (waking : th.waking = false) :
      Effect state th (state + readerIncrement) (th.share pc)
  | unshare {th' : Thread} (held : th'.held = th.held) (shared : th'.shared + 1 = th.shared)
      (registered : th.registered = false) (registered' : th'.registered = false)
      (waking : th.waking = false) (waking' : th'.waking = lastReader state) :
      Effect state th (state - readerIncrement) th'

/-- A position at which the thread relies on nothing. -/
theorem Thread.Ok.plain {held : Bool} {shared : ℕ} {pc : Pc}
    (h : match pc with
      | .tried true | .triedShared true | .unlockClear | .unlockSharedSub | .waitCas .. | .waitFutex _ | .sharedCas ..
      | .sharedWaitCas .. | .sharedWaitFutex _ => False
      | _ => True) : (Thread.mk held shared pc).Ok := by
  constructor <;> intros <;> simp_all

theorem sharedGranted_cases (trying : Bool) :
    sharedGranted trying = .idle ∨ sharedGranted trying = .triedShared true := by
  cases trying with
  | false => exact Or.inl rfl
  | true => exact Or.inr rfl

theorem sharedTest_registered (th : Thread) (trying : Bool) (current : U32) :
    (th.at (sharedTest trying current)).registered = false := by
  unfold sharedTest
  split_ifs <;> rfl

theorem Thread.Ok.sharedTest (held : Bool) (shared : ℕ) (trying : Bool) (current : U32) :
    (Thread.mk held shared (sharedTest trying current)).Ok := by
  unfold SharedMutex.sharedTest
  split_ifs with hblocked
  · exact .plain trivial
  · exact .plain trivial
  · rw [ne_eq, not_not, noWriter_iff] at hblocked
    constructor <;> intros <;> simp_all

theorem effect_of_run {state state' : U32} {th th' : Thread} (hok : th.Ok)
    (h : run state th = some (state', th')) : Effect state th state' th' ∧ th'.Ok := by
  obtain ⟨held, shared, pc⟩ := th
  cases pc with
  | idle => cases h
  | waitFutex current => cases h
  | unlockWake => cases h
  | sharedWaitFutex current => cases h
  | unlockSharedWake => cases h
  | lockFast =>
      simp only [run] at h
      split_ifs at h with hfree <;> cases h
      · exact ⟨.acquire (congrArg BitVec.toNat hfree) (Or.inl rfl) rfl rfl, .plain trivial⟩
      · exact ⟨.keep rfl rfl rfl rfl, .plain trivial⟩
  | tryLock =>
      simp only [run] at h
      split_ifs at h with hfree <;> cases h
      · refine ⟨.acquire (congrArg BitVec.toNat hfree) (Or.inr rfl) rfl rfl, ?_⟩
        constructor <;> intros <;> simp_all [Thread.own]
      · exact ⟨.keep rfl rfl rfl rfl, .plain trivial⟩
  | tried result | triedShared result =>
      cases h
      exact ⟨.keep rfl rfl rfl rfl, .plain trivial⟩
  | register =>
      cases h
      exact ⟨.register rfl rfl rfl rfl rfl, .plain trivial⟩
  | waitLoad spinCount backoff =>
      simp only [run] at h
      split_ifs at h with hfree hspin <;> cases h
      · rw [noHolder_iff] at hfree
        exact ⟨.keep rfl rfl rfl rfl, by constructor <;> intros <;> simp_all [Thread.at]⟩
      · exact ⟨.keep rfl rfl rfl rfl, .plain trivial⟩
      · rw [noHolder_iff] at hfree
        exact ⟨.keep rfl rfl rfl rfl, by constructor <;> intros <;> simp_all [Thread.at]⟩
  | waitCas current spinCount backoff =>
      simp only [run] at h
      split_ifs at h with hsame <;> cases h
      · subst hsame
        exact ⟨.acquireWaiter (hok.waitCas state spinCount backoff rfl) rfl rfl, .plain trivial⟩
      · exact ⟨.keep rfl rfl rfl rfl, .plain trivial⟩
  | unlockClear =>
      cases h
      exact ⟨.unlock (hok.unlockClear rfl) rfl rfl rfl rfl rfl rfl, .plain trivial⟩
  | sharedLoad trying =>
      cases h
      exact ⟨.keep rfl rfl (sharedTest_registered _ _ _) rfl, .sharedTest _ _ _ _⟩
  | sharedCas trying current =>
      simp only [run] at h
      split_ifs at h with hsame <;> rw [Option.some.injEq, Prod.mk.injEq] at h <;>
        obtain ⟨rfl, rfl⟩ := h
      · subst hsame
        refine ⟨.share (hok.sharedCas trying state rfl) (sharedGranted_cases trying) rfl rfl, ?_⟩
        rcases sharedGranted_cases trying with hpc | hpc <;> rw [hpc]
        · exact .plain trivial
        · constructor <;> intros <;> simp_all [Thread.share]
      · exact ⟨.keep rfl rfl (sharedTest_registered _ _ _) rfl, .sharedTest _ _ _ _⟩
  | sharedWaitLoad spinCount backoff =>
      simp only [run] at h
      split_ifs at h with hfree hspin <;> cases h
      · rw [noWriter_iff] at hfree
        exact ⟨.keep rfl rfl rfl rfl, by constructor <;> intros <;> simp_all [Thread.at]⟩
      · exact ⟨.keep rfl rfl rfl rfl, .plain trivial⟩
      · rw [noWriter_iff] at hfree
        exact ⟨.keep rfl rfl rfl rfl, by constructor <;> intros <;> simp_all [Thread.at]⟩
  | sharedWaitCas current spinCount backoff =>
      simp only [run] at h
      split_ifs at h with hsame <;> rw [Option.some.injEq, Prod.mk.injEq] at h <;>
        obtain ⟨rfl, rfl⟩ := h
      · subst hsame
        exact ⟨.share (hok.sharedWaitCas state spinCount backoff rfl) (Or.inl rfl) rfl rfl, .plain trivial⟩
      · exact ⟨.keep rfl rfl rfl rfl, .plain trivial⟩
  | unlockSharedSub =>
      have hpos := hok.unlockSharedSub rfl
      cases h
      refine ⟨.unshare rfl (Nat.sub_add_cancel hpos) rfl ?_ rfl ?_, ?_⟩
      · cases lastReader state <;> rfl
      · cases lastReader state <;> rfl
      · cases lastReader state <;> exact .plain trivial

theorem effect_of_step {l : Label} {state state' : U32} {th th' : Thread} (hok : th.Ok)
    (h : step l state th = some (state', th')) : Effect state th state' th' ∧ th'.Ok := by
  obtain ⟨held, shared, pc⟩ := th
  cases l with
  | run => exact effect_of_run hok h
  | lock | tryLock | lockShared | tryLockShared =>
      simp only [step, Option.ite_none_right_eq_some] at h
      obtain ⟨rfl, h⟩ := h
      cases h
      exact ⟨.keep rfl rfl rfl rfl, .plain trivial⟩
  | unlock =>
      simp only [step, Option.ite_none_right_eq_some] at h
      obtain ⟨⟨rfl, hheld⟩, h⟩ := h
      cases h
      exact ⟨.keep rfl rfl rfl rfl, by constructor <;> intros <;> simp_all [Thread.at]⟩
  | unlockShared =>
      simp only [step, Option.ite_none_right_eq_some] at h
      obtain ⟨⟨rfl, hshared⟩, h⟩ := h
      cases h
      exact ⟨.keep rfl rfl rfl rfl, by constructor <;> intros <;> simp_all [Thread.at]⟩

/-! ### The kernel changes only where a thread is -/

theorem wait_eq_some {th : Thread} {w : WaitCall U32 Thread Unit} (h : wait th = some w) :
    (∃ current, th.pc = .waitFutex current ∧
      w = futex.wait () id current (th.at (.waitLoad 0 spinInitial))) ∨
    ∃ current, th.pc = .sharedWaitFutex current ∧
      w = futex.wait () id current (th.at (.sharedWaitLoad 0 spinInitial)) := by
  obtain ⟨held, shared, pc⟩ := th
  cases pc <;> cases h
  · exact Or.inl ⟨_, rfl, rfl⟩
  · exact Or.inr ⟨_, rfl, rfl⟩

theorem wake_eq_some {th : Thread} {w : WakeCall Thread Unit} (h : wake th = some w) :
    th.waking = true ∧ th.registered = false ∧ w = futex.wakeAll () (th.at .idle) := by
  obtain ⟨held, shared, pc⟩ := th
  cases pc <;> cases h <;> exact ⟨rfl, rfl, rfl⟩

variable {Tid : Type*}

theorem afterWait_held (th : Thread) : ((program Tid).afterWait th).held = th.held := by
  obtain ⟨held, shared, pc⟩ := th
  cases pc <;> rfl

theorem afterWait_shared (th : Thread) : ((program Tid).afterWait th).shared = th.shared := by
  obtain ⟨held, shared, pc⟩ := th
  cases pc <;> rfl

theorem afterWait_registered (th : Thread) :
    ((program Tid).afterWait th).registered = th.registered := by
  obtain ⟨held, shared, pc⟩ := th
  cases pc <;> rfl

theorem afterWait_waking (th : Thread) : ((program Tid).afterWait th).waking = th.waking := by
  obtain ⟨held, shared, pc⟩ := th
  cases pc <;> rfl

theorem Thread.Ok.afterWait {th : Thread} (h : th.Ok) : ((program Tid).afterWait th).Ok := by
  obtain ⟨held, shared, pc⟩ := th
  cases pc with
  | waitFutex current => exact .plain trivial
  | sharedWaitFutex current => exact .plain trivial
  | _ => exact h

/-! ### The invariant -/

variable {s : Config Tid U32 Thread Unit}

theorem ok_move [DecidableEq Tid] {t : Tid} {m : U32} {th : Thread}
    (h : ∀ u, (s.thread u).Ok) (hth : th.Ok) : ∀ u, ((s.move t m th).thread u).Ok := by
  intro u
  rw [Config.move_thread, Function.update_apply]
  split_ifs
  · exact hth
  · exact h u

variable [Fintype Tid]

/-- The three fields of the word, below the limits; a writer excludes every reader. -/
structure Inv (s : Config Tid U32 Thread Unit) : Prop where
  ok : ∀ t, (s.thread t).Ok
  word : s.mem.toNat = 65536 * tally Thread.shared s.thread +
    2 * count Thread.registered s.thread + count Thread.held s.thread
  one : count Thread.held s.thread ≤ 1
  excludes : count Thread.held s.thread = 0 ∨ tally Thread.shared s.thread = 0
  readers : tally Thread.shared s.thread ≤ 65535
  waiting : count Thread.registered s.thread ≤ 32767

theorem Inv.two_le (h : Inv s) {t : Tid} (hreg : (s.thread t).registered = true) :
    2 ≤ s.mem.toNat := by
  have := h.word
  have := count_pos_of (f := s.thread) hreg
  omega

/-- The writer flag counts the owners. -/
theorem Inv.mod_two (h : Inv s) : s.mem.toNat % 2 = count Thread.held s.thread := by
  have := h.word
  have := h.one
  omega

theorem Inv.mod_low (h : Inv s) : s.mem.toNat % 65536 =
    2 * count Thread.registered s.thread + count Thread.held s.thread := by
  have := h.word
  have := h.one
  have := h.waiting
  omega

theorem Inv.div_high (h : Inv s) : s.mem.toNat / 65536 = tally Thread.shared s.thread := by
  have := h.word
  have := h.one
  have := h.waiting
  omega

theorem Inv.exclusive (h : Inv s) {t : Tid} (ht : (s.thread t).held = true) :
    (∀ u, (s.thread u).held = true → u = t) ∧ ∀ u, (s.thread u).shared = 0 := by
  refine ⟨fun u hu => eq_of_count_le_one h.one hu ht, ?_⟩
  have hpos := count_pos_of (f := s.thread) ht
  have := h.excludes
  exact tally_eq_zero.mp (by omega)

variable [DecidableEq Tid]

theorem Inv.init : Inv (program Tid).machine.init := by
  have hheld : count Thread.held (program Tid).machine.init.thread = 0 :=
    count_eq_zero.mpr fun _ => rfl
  have hreg : count Thread.registered (program Tid).machine.init.thread = 0 :=
    count_eq_zero.mpr fun _ => rfl
  have hshared : tally Thread.shared (program Tid).machine.init.thread = 0 :=
    tally_eq_zero.mpr fun _ => rfl
  refine ⟨fun _ => .plain trivial, ?_, ?_, Or.inl hheld, ?_, ?_⟩ <;>
    simp only [hheld, hreg, hshared, Nat.zero_le]
  rfl

/-- A step within the limits keeps the invariant. -/
theorem Inv.move {t : Tid} {m : U32} {th : Thread} (h : Inv s)
    (hreaders : tally Thread.shared (Function.update s.thread t th) ≤ 65535)
    (hwaiting : count Thread.registered (Function.update s.thread t th) ≤ 32767)
    (heff : Effect s.mem (s.thread t) m th) (hok : th.Ok) : Inv (s.move t m th) := by
  have hword := h.word
  have hone := h.one
  have hexcl := h.excludes
  have hmod := h.mod_two
  have hlow := h.mod_low
  have hhigh := h.div_high
  have hreg := count_update (p := Thread.registered) (f := s.thread) t th
  have hheld := count_update (p := Thread.held) (f := s.thread) t th
  have hshared := tally_update (w := Thread.shared) (f := s.thread) t th
  have hmine := le_tally (w := Thread.shared) (f := s.thread) t
  have hfree : s.mem.toNat % 2 = 0 → (s.thread t).held = false := fun heven =>
    count_eq_zero.mp (show count Thread.held s.thread = 0 by omega) t
  have key : m.toNat = 65536 * tally Thread.shared (Function.update s.thread t th) +
      2 * count Thread.registered (Function.update s.thread t th) +
      count Thread.held (Function.update s.thread t th) ∧
      count Thread.held (Function.update s.thread t th) ≤ 1 ∧
      (count Thread.held (Function.update s.thread t th) = 0 ∨
        tally Thread.shared (Function.update s.thread t th) = 0) := by
    cases heff with
    | keep held shared registered =>
        rw [held] at hheld
        rw [shared] at hshared
        rw [registered] at hreg
        omega
    | @acquire pc free after registered =>
        have hout := hfree (by omega)
        have hpc : ((s.thread t).own pc).registered = false := by rcases after with rfl | rfl <;> rfl
        simp only [registered, hout, hpc, Thread.own_held, Thread.own_shared, Bool.toNat_false,
          Bool.toNat_true] at hreg hheld hshared
        rw [show writerLocked.toNat = 1 from rfl]
        omega
    | register held shared out registered =>
        simp only [out, registered, held, shared, Bool.toNat_false, Bool.toNat_true]
          at hreg hheld hshared
        rw [toNat_addWriter _ (by omega)]
        omega
    | acquireWaiter free registered =>
        have hout := hfree free.1
        have hpos := h.two_le registered
        have hpc : ((s.thread t).own .idle).registered = false := rfl
        simp only [registered, hout, hpc, Thread.own_held, Thread.own_shared, Bool.toNat_false,
          Bool.toNat_true] at hreg hheld hshared
        rw [toNat_acquire _ free.1 hpos]
        omega
    | unlock held held' shared registered registered' =>
        simp only [held, held', shared, registered, registered', Bool.toNat_false,
          Bool.toNat_true] at hreg hheld hshared
        rw [toNat_clearWriter]
        omega
    | @share pc free after registered =>
        have hpc : ((s.thread t).share pc).registered = false := by rcases after with rfl | rfl <;> rfl
        simp only [registered, hpc, Thread.share_held, Thread.share_shared, Bool.toNat_false]
          at hreg hheld hshared
        rw [toNat_addReader _ (by omega)]
        omega
    | unshare held shared registered registered' =>
        simp only [held, registered, registered', Bool.toNat_false] at hreg hheld
        rw [toNat_subReader _ (by omega)]
        omega
  exact ⟨ok_move h.ok hok, key.1, key.2.1, key.2.2, hreaders, hwaiting⟩

theorem Inv.resume (h : Inv s) (woken : Finset Tid) : Inv ((program Tid).resume s woken) := by
  have hheld : count Thread.held ((program Tid).resume s woken).thread = count Thread.held s.thread :=
    count_congr fun u => Program.resume_same _ afterWait_held s woken u
  have hreg : count Thread.registered ((program Tid).resume s woken).thread =
      count Thread.registered s.thread :=
    count_congr fun u => Program.resume_same _ afterWait_registered s woken u
  have hshared : tally Thread.shared ((program Tid).resume s woken).thread =
      tally Thread.shared s.thread :=
    tally_congr fun u => Program.resume_same _ afterWait_shared s woken u
  refine ⟨fun u => ?_, ?_, ?_, ?_, ?_, ?_⟩ <;> try rw [hheld]
  · rw [Program.resume_thread]
    split_ifs
    · exact (h.ok u).afterWait
    · exact h.ok u
  · rw [hreg, hshared]
    exact h.word
  · exact h.one
  · rw [hshared]
    exact h.excludes
  · rw [hshared]
    exact h.readers
  · rw [hreg]
    exact h.waiting

/-- The thread that has executed `wake_all` returns from its release. -/
theorem Inv.wake {t : Tid} {th : Thread} (h : Inv s) (hok : th.Ok)
    (hheld : th.held = (s.thread t).held) (hshared : th.shared = (s.thread t).shared)
    (hreg : th.registered = (s.thread t).registered) : Inv (s.move t s.mem th) := by
  refine ⟨ok_move h.ok hok, ?_, ?_, ?_, ?_, ?_⟩ <;>
    simp only [Config.move_thread, Config.move_mem, count_update_same hreg,
      count_update_same hheld, tally_update_same hshared]
  · exact h.word
  · exact h.one
  · exact h.excludes
  · exact h.readers
  · exact h.waiting

theorem inv_of_reachable (h : (program Tid).machine.Reachable withinLimits s) : Inv s := by
  refine h.induct Inv.init ?_
  intro s a s' _ ih hnext hlimits
  cases Program.transition_of_next _ hnext with
  | step awake hstep =>
      obtain ⟨heff, hok⟩ := effect_of_step (ih.ok _) hstep
      exact ih.move hlimits.1 hlimits.2 heff hok
  | sleep awake hwait holds =>
      exact ⟨ih.ok, ih.word, ih.one, ih.excludes, ih.readers, ih.waiting⟩
  | ret hwait => exact ih.resume _
  | @wake t w woken awake hwake chosen =>
      obtain ⟨-, hreg, rfl⟩ := wake_eq_some hwake
      refine (ih.resume woken).wake (.plain trivial) ?_ ?_ ?_
      · exact (Program.resume_same _ afterWait_held s woken t).symm
      · exact (Program.resume_same _ afterWait_shared s woken t).symm
      · rw [Program.resume_same _ afterWait_registered s woken t, hreg]
        rfl
  | requeue awake hrequeue => cases hrequeue
  | refused awake hrequeue => cases hrequeue

/-! ### Exclusion, preference and the meaning of `state_` -/

/-- A step grants shared access only when the word shows no writer at all. -/
theorem Effect.shared_le {state state' : U32} {th th' : Thread} (h : Effect state th state' th')
    (hgrant : th.shared < th'.shared) : state.toNat % 65536 = 0 := by
  cases h with
  | share free => exact free
  | acquire | acquireWaiter => exact absurd hgrant (lt_irrefl _)
  | keep held shared | register held shared | unlock held held' shared | unshare held shared => omega

/-- `state_` describes the threads exactly, and writers come first. -/
structure Accurate (s : Config Tid U32 Thread Unit) : Prop where
  /-- A writer that holds excludes every other writer and every reader. -/
  exclusive : ∀ t, (s.thread t).held = true →
    (∀ u, (s.thread u).held = true → u = t) ∧ ∀ u, (s.thread u).shared = 0
  /-- A thread to which `try_lock` has answered `true` holds exclusively. -/
  tried : ∀ t, (s.thread t).pc = .tried true → (s.thread t).held = true
  /-- A thread to which `try_lock_shared` has answered `true` has a shared hold. -/
  triedShared : ∀ t, (s.thread t).pc = .triedShared true → 0 < (s.thread t).shared
  /-- Bit 0 is set exactly when a writer holds. -/
  writer : s.mem &&& writerLocked ≠ 0 ↔ ∃ t, (s.thread t).held = true
  /-- Bits 1 to 15 count the writers between their registration and their acquisition. -/
  waiting : ((s.mem &&& writerWaitingMask) >>> 1).toNat = count Thread.registered s.thread
  /-- Bits 16 to 31 count the readers that hold. -/
  readers : ((s.mem &&& readerMask) >>> readerShift).toNat = tally Thread.shared s.thread
  /-- A step that grants shared access is taken while no writer holds or is registered. -/
  preference : ∀ t l s', (program Tid).machine.next s (.step t l) = some s' →
    (s.thread t).shared < (s'.thread t).shared →
    ∀ u, (s.thread u).held = false ∧ (s.thread u).registered = false

theorem shared_state_accurate (h : (program Tid).machine.Reachable withinLimits s) : Accurate s := by
  have hinv := inv_of_reachable h
  refine ⟨fun t => hinv.exclusive, fun t => (hinv.ok t).tried, fun t => (hinv.ok t).triedShared, ?_, ?_, ?_, ?_⟩
  · have := hinv.mod_two
    rw [ne_eq, writerFlag_iff, ← count_pos]
    omega
  · have := hinv.mod_low
    have := hinv.one
    rw [waitingField]
    omega
  · rw [readerField, hinv.div_high]
  · intro t l s' hnext hgrant u
    cases Program.transition_of_next _ hnext with
    | step awake hstep =>
        rw [Config.move_thread, Function.update_self] at hgrant
        have hlow := (effect_of_step (hinv.ok t) hstep).1.shared_le hgrant
        rw [hinv.mod_low] at hlow
        exact ⟨count_eq_zero.mp (by omega) u, count_eq_zero.mp (by omega) u⟩

/-- Thread `a` reads and thread `b` has registered as a writer. -/
def preferredRun : List (Act Runner Label) :=
  [.step .a .lockShared, .step .a .run, .step .a .run, .step .b .lock, .step .b .run, .step .b .run]

/-- A reader that arrives now waits for the writer, although a reader holds. -/
theorem shared_state_accurate_preferred : ∃ s : Config Runner U32 Thread Unit,
    s.mem = 0x00010002 ∧ Accurate s :=
  ⟨((program Runner).machine.run withinLimits (program Runner).machine.init preferredRun).get
    (by decide), by decide, shared_state_accurate (.of_run _ _)⟩

end Psync.SharedMutex
