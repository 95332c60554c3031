import Psync.TaggedModel
import Psync.ParkingState
import Psync.WordFields

/-! The tagged word and the parking lot agree: the locked flag guards ownership, a parked thread
implies the waiters bit, and `unlock` clears that bit only once nobody waits any more. -/

namespace Psync.TaggedLockPtr

open Concurrency ParkingLot MachineWord

set_option linter.unusedSectionVars false

/-! ### The two flags -/

def locked (word : U64) : Prop := word &&& lockedBit ≠ 0
def waiting (word : U64) : Prop := word &&& waitersBit ≠ 0

theorem locked_iff {word : U64} : locked word ↔ word.getLsbD 0 = true :=
  and_twoPow_ne_zero (i := 0) word (by decide)

theorem waiting_iff {word : U64} : waiting word ↔ word.getLsbD 1 = true :=
  and_twoPow_ne_zero (i := 1) word (by decide)

theorem locked_lock (word : U64) : locked (word ||| lockedBit) := by
  rw [locked_iff, BitVec.getLsbD_or, show lockedBit.getLsbD 0 = true by decide, Bool.or_true]

theorem waiting_lock (word : U64) : waiting (word ||| lockedBit) ↔ waiting word := by
  rw [waiting_iff, waiting_iff, BitVec.getLsbD_or, show lockedBit.getLsbD 1 = false by decide,
    Bool.or_false]

theorem not_locked_unlock (word : U64) : ¬ locked (word &&& ~~~lockedBit) := by
  rw [locked_iff, BitVec.getLsbD_and, show (~~~lockedBit).getLsbD 0 = false by decide, Bool.and_false]
  exact Bool.false_ne_true

theorem waiting_unlock (word : U64) : waiting (word &&& ~~~lockedBit) ↔ waiting word := by
  rw [waiting_iff, waiting_iff, BitVec.getLsbD_and, show (~~~lockedBit).getLsbD 1 = true by decide,
    Bool.and_true]

theorem waiting_set (word : U64) : waiting (word ||| waitersBit) := by
  rw [waiting_iff, BitVec.getLsbD_or, show waitersBit.getLsbD 1 = true by decide, Bool.or_true]

theorem locked_set (word : U64) : locked (word ||| waitersBit) ↔ locked word := by
  rw [locked_iff, locked_iff, BitVec.getLsbD_or, show waitersBit.getLsbD 0 = false by decide,
    Bool.or_false]

theorem locked_clearWaiters (res : UnparkResult) (word : U64) :
    locked (clearWaiters res word) ↔ locked word := by
  rw [clearWaiters]
  split_ifs
  · rw [locked_iff, locked_iff, BitVec.getLsbD_and,
      show (~~~waitersBit).getLsbD 0 = true by decide, Bool.and_true]
  · exact Iff.rfl

/-- A pointer has neither flag. -/
theorem Pointer.flags (ptr : Pointer) : ¬ locked ptr.value ∧ ¬ waiting ptr.value := by
  have hbit : ∀ i, (ptr.value &&& flagMask).getLsbD i = false := fun i => by
    rw [ptr.aligned]
    exact BitVec.getLsbD_zero
  have h0 := hbit 0
  have h1 := hbit 1
  rw [BitVec.getLsbD_and, show flagMask.getLsbD 0 = true by decide, Bool.and_true] at h0
  rw [BitVec.getLsbD_and, show flagMask.getLsbD 1 = true by decide, Bool.and_true] at h1
  rw [locked_iff, waiting_iff, h0, h1]
  exact ⟨Bool.false_ne_true, Bool.false_ne_true⟩

/-! ### What a step can do -/

variable {Tid : Type*}

/-- The thread is not in the parking lot. -/
def Pc.plain : Pc Tid → Bool
  | .park _ | .unpark _ => false
  | _ => true

/-- The thread is in `lock_contended`, outside the parking lot. -/
def Pc.spinning : Pc Tid → Bool
  | .spinLoad _ | .spinCas .. | .parkLoad | .parkCas _ => true
  | _ => false

def Pc.releasing : Pc Tid → Bool
  | .unlockLoad | .unlockCasWaiters _ | .unlockCas _ => true
  | _ => false

/-- The word an acquiring CAS expects. -/
def Pc.acquires : Pc Tid → Option U64
  | .lockCas current | .tryCas current | .spinCas _ current | .parkCas current => some current
  | _ => none

/-- `try_lock` has returned `true`. -/
def Pc.won : Pc Tid → Bool
  | .tried result => result
  | _ => false

def Pc.role (this : U64) : Pc Tid → Role Tid
  | .park pc => pc.role this
  | .unpark pc => pc.role this
  | _ => .out

/-- What a thread knows about itself. -/
structure Thread.Ok (th : Thread Tid) : Prop where
  releasing : th.pc.releasing = true → th.held = true
  acquires : ∀ current, th.pc.acquires = some current → ¬ locked current
  unlockCas : ∀ current, th.pc = .unlockCas current → ¬ waiting current
  won : th.pc.won = true → th.held = true

variable [DecidableEq Tid]

/-- The ways in which one step changes the memory and the thread that takes it. -/
inductive Effect (this : U64) (t : Tid) (m : Mem Tid) (th : Thread Tid) : Mem Tid → Thread Tid → Prop
  | plain {word : U64} {pc : Pc Tid} (hlocked : locked word ↔ locked m.taggedPtr)
      (hwaiting : waiting word ↔ waiting m.taggedPtr) (before : th.pc.plain = true)
      (after : pc.plain = true ∨ pc = .park .lockBucket)
      (spinning : th.pc.spinning = true → pc.spinning = true ∨ pc = .park .lockBucket) :
      Effect this t m th ⟨word, m.lot⟩ (th.at pc)
  | acquire {pc : Pc Tid} (free : ¬ locked m.taggedPtr) (before : th.pc.plain = true)
      (after : pc = .idle ∨ pc = .tried true) :
      Effect this t m th ⟨m.taggedPtr ||| lockedBit, m.lot⟩ ⟨true, pc⟩
  | release (held : th.held = true) (before : th.pc.plain = true)
      (quiet : ¬ waiting m.taggedPtr) :
      Effect this t m th ⟨m.taggedPtr &&& ~~~lockedBit, m.lot⟩ ⟨false, .idle⟩
  | releaseWaiters (held : th.held = true) (before : th.pc.plain = true) :
      Effect this t m th ⟨m.taggedPtr &&& ~~~lockedBit, m.lot⟩ ⟨false, .unpark .lockBucket⟩
  | park {pc : ParkPc Tid Validate} {word : U64} {lot : Lot Tid} {flow : Flow (ParkPc Tid Validate) Bool}
      (hpc : th.pc = .park pc) (h : Parks .load validate this t m.taggedPtr m.lot pc word lot flow) :
      Effect this t m th ⟨word, lot⟩ (th.at (afterPark flow))
  | unpark {pc : UnparkPc Tid} {word : U64} {lot : Lot Tid} {flow : Flow (UnparkPc Tid) UnparkResult}
      (hpc : th.pc = .unpark pc) (h : Unparks clearWaiters this m.taggedPtr m.lot pc word lot flow) :
      Effect this t m th ⟨word, lot⟩ (th.at (afterUnpark flow))

variable {this : U64} {t : Tid} {m m' : Mem Tid} {th th' : Thread Tid}

theorem Thread.Ok.quiet {held : Bool} {pc : Pc Tid} (hrel : pc.releasing = false)
    (hacq : pc.acquires = none) (hwon : pc.won = true → held = true) : (Thread.mk held pc).Ok where
  releasing h := by rw [hrel] at h; cases h
  acquires current h := by rw [hacq] at h; cases h
  unlockCas current h := by cases h; cases hrel
  won := hwon

theorem Thread.Ok.acquiring {held : Bool} {pc : Pc Tid} {current : U64} (hrel : pc.releasing = false)
    (hacq : pc.acquires = some current) (free : ¬ locked current) : (Thread.mk held pc).Ok where
  releasing h := by rw [hrel] at h; cases h
  acquires _ h := by rw [hacq] at h; cases h; exact free
  unlockCas current h := by cases h; cases hrel
  won h := by
    cases pc with
    | tried result => cases hacq
    | _ => cases h

theorem Thread.Ok.unlocking {pc : Pc Tid} (hacq : pc.acquires = none)
    (hcas : ∀ current, pc = .unlockCas current → ¬ waiting current) : (Thread.mk true pc).Ok where
  releasing _ := rfl
  acquires _ h := by rw [hacq] at h; cases h
  unlockCas := hcas
  won _ := rfl

/-- A step between positions outside the parking lot that leaves the word. -/
theorem Effect.stay {pc : Pc Tid} (before : th.pc.plain = true)
    (after : pc.plain = true ∨ pc = .park .lockBucket)
    (spinning : th.pc.spinning = true → pc.spinning = true ∨ pc = .park .lockBucket) :
    Effect this t m th m (th.at pc) :=
  .plain (Iff.refl (locked m.taggedPtr)) (Iff.refl (waiting m.taggedPtr)) before after spinning

theorem afterSpin_spinning {Tid : Type*} (i : ℕ) : (afterSpin i : Pc Tid).plain = true ∧
    (afterSpin i : Pc Tid).spinning = true ∧ (afterSpin i : Pc Tid).releasing = false ∧
    (afterSpin i : Pc Tid).acquires = none ∧ (afterSpin i : Pc Tid).won = false := by
  rw [afterSpin]
  split_ifs <;> exact ⟨rfl, rfl, rfl, rfl, rfl⟩

/-- An acquiring CAS that fails at a plain position. -/
theorem effect_of_casLock {current : U64} {won lost : Pc Tid} (hok : th.Ok)
    (hcur : th.pc.acquires = some current) (before : th.pc.plain = true)
    (hwon : won = .idle ∨ won = .tried true)
    (after : lost.plain = true) (spinning : th.pc.spinning = true → lost.spinning = true)
    (hrel : lost.releasing = false) (hacq : lost.acquires = none) (hlost : lost.won = false)
    (h : some (casLock m th current won lost) = some (m', th')) :
    Effect this t m th m' th' ∧ th'.Ok := by
  rw [casLock, cas] at h
  split_ifs at h with heq <;> cases h
  · subst heq
    refine ⟨.acquire (hok.acquires _ hcur) before hwon, ?_⟩
    rcases hwon with rfl | rfl
    · exact .quiet rfl rfl nofun
    · exact .quiet rfl rfl fun _ => rfl
  · exact ⟨.stay before (Or.inl after) fun h => Or.inl (spinning h),
      .quiet hrel hacq fun h => (by rw [hlost] at h; cases h)⟩

theorem effect_of_run (hok : th.Ok) (h : run this t m th = some (m', th')) :
    Effect this t m th m' th' ∧ th'.Ok := by
  obtain ⟨held, pc⟩ := th
  cases pc with
  | idle => cases h
  | lockLoad =>
      simp only [run, Option.some.injEq, Prod.mk.injEq] at h
      obtain ⟨rfl, rfl⟩ := h
      split_ifs with hlocked
      · exact ⟨.stay rfl (Or.inl rfl) nofun, .quiet rfl rfl nofun⟩
      · exact ⟨.stay rfl (Or.inl rfl) nofun, .acquiring rfl rfl hlocked⟩
  | lockCas current =>
      exact effect_of_casLock hok rfl rfl (Or.inl rfl) rfl nofun rfl rfl rfl h
  | tryLoad =>
      simp only [run, Option.some.injEq, Prod.mk.injEq] at h
      obtain ⟨rfl, rfl⟩ := h
      split_ifs with hlocked
      · exact ⟨.stay rfl (Or.inl rfl) nofun, .quiet rfl rfl nofun⟩
      · exact ⟨.stay rfl (Or.inl rfl) nofun, .acquiring rfl rfl hlocked⟩
  | tryCas current =>
      exact effect_of_casLock hok rfl rfl (Or.inr rfl) rfl nofun rfl rfl rfl h
  | spinLoad i =>
      simp only [run, Option.some.injEq, Prod.mk.injEq] at h
      obtain ⟨rfl, rfl⟩ := h
      split_ifs with hfree
      · exact ⟨.stay rfl (Or.inl rfl) fun _ => Or.inl rfl, .acquiring rfl rfl fun hl => hl hfree⟩
      · obtain ⟨hplain, hspin, hrel, hacq, hlost⟩ := afterSpin_spinning i
        exact ⟨.stay rfl (Or.inl hplain) fun _ => Or.inl hspin, .quiet hrel hacq fun h => (by rw [hlost] at h; cases h)⟩
  | spinCas i current =>
      obtain ⟨hplain, hspin, hrel, hacq, hlost⟩ := afterSpin_spinning i
      exact effect_of_casLock hok rfl rfl (Or.inl rfl) hplain (fun _ => hspin) hrel hacq hlost h
  | parkLoad =>
      simp only [run, Option.some.injEq, Prod.mk.injEq] at h
      obtain ⟨rfl, rfl⟩ := h
      split_ifs with hfree
      · exact ⟨.stay rfl (Or.inl rfl) fun _ => Or.inl rfl, .acquiring rfl rfl fun hl => hl hfree⟩
      · exact ⟨.stay rfl (Or.inr rfl) fun _ => Or.inr rfl, .quiet rfl rfl nofun⟩
  | parkCas current =>
      exact effect_of_casLock hok rfl rfl (Or.inl rfl) rfl (fun _ => rfl) rfl rfl rfl h
  | park pc =>
      simp only [run, Option.map_eq_some_iff] at h
      obtain ⟨⟨word, lot, flow⟩, hpark, heq⟩ := h
      cases heq
      refine ⟨.park rfl (.step hpark), ?_⟩
      cases flow <;> exact .quiet rfl rfl nofun
  | unlockLoad =>
      obtain rfl : held = true := hok.releasing rfl
      simp only [run, Option.some.injEq, Prod.mk.injEq] at h
      obtain ⟨rfl, rfl⟩ := h
      split_ifs with hw
      · exact ⟨.stay rfl (Or.inl rfl) nofun, .unlocking rfl nofun⟩
      · refine ⟨.stay rfl (Or.inl rfl) nofun, .unlocking rfl fun current hcur => ?_⟩
        cases hcur
        exact hw
  | unlockCasWaiters current =>
      obtain rfl : held = true := hok.releasing rfl
      simp only [run, cas] at h
      split_ifs at h with heq <;> cases h
      · subst heq
        exact ⟨.releaseWaiters rfl rfl, .quiet rfl rfl nofun⟩
      · exact ⟨.stay rfl (Or.inl rfl) nofun, .unlocking rfl nofun⟩
  | unlockCas current =>
      obtain rfl : held = true := hok.releasing rfl
      simp only [run, cas] at h
      split_ifs at h with heq <;> cases h
      · subst heq
        exact ⟨.release rfl rfl (hok.unlockCas _ rfl), .quiet rfl rfl nofun⟩
      · exact ⟨.stay rfl (Or.inl rfl) nofun, .unlocking rfl nofun⟩
  | unpark pc =>
      simp only [run, Option.map_eq_some_iff] at h
      obtain ⟨⟨word, lot, flow⟩, hunpark, heq⟩ := h
      cases heq
      refine ⟨.unpark rfl (.step hunpark), ?_⟩
      cases flow <;> exact .quiet rfl rfl nofun
  | tried | get | got | exchanged =>
      cases h
      exact ⟨.stay rfl (Or.inl rfl) nofun, .quiet rfl rfl nofun⟩
  | compareExchange expected desired =>
      simp only [run, compareExchange, Option.some.injEq, Prod.mk.injEq] at h
      obtain ⟨rfl, rfl⟩ := h
      split_ifs with heq
      · refine ⟨.plain ?_ ?_ rfl (Or.inl rfl) nofun, .quiet rfl rfl nofun⟩
        · rw [heq]
          exact iff_of_false desired.flags.1 expected.flags.1
        · rw [heq]
          exact iff_of_false desired.flags.2 expected.flags.2
      · exact ⟨.stay rfl (Or.inl rfl) nofun, .quiet rfl rfl nofun⟩

theorem effect_of_step {l : Label} (hok : th.Ok) (h : step this t l m th = some (m', th')) :
    Effect this t m th m' th' ∧ th'.Ok := by
  obtain ⟨held, pc⟩ := th
  have begin_call : ∀ {p : Pc Tid}, p.plain = true → p.releasing = false → p.acquires = none → p.won = false →
      (if pc = .idle then some (m, (Thread.mk held pc).at p) else none) = some (m', th') →
      Effect this t m ⟨held, pc⟩ m' th' ∧ th'.Ok := by
    intro p hplain hrel hacq hlost h
    split_ifs at h with hidle
    cases h
    subst hidle
    exact ⟨.stay rfl (Or.inl hplain) nofun, .quiet hrel hacq fun h => (by rw [hlost] at h; cases h)⟩
  cases l with
  | lock => exact begin_call rfl rfl rfl rfl h
  | tryLock => exact begin_call rfl rfl rfl rfl h
  | get => exact begin_call rfl rfl rfl rfl h
  | compareExchange expected desired => exact begin_call rfl rfl rfl rfl h
  | unlock =>
      simp only [step] at h
      split_ifs at h with hidle
      obtain ⟨hpc, hheld⟩ := hidle
      cases h
      cases hpc
      cases hheld
      exact ⟨.stay rfl (Or.inl rfl) nofun, .unlocking rfl nofun⟩
  | run => exact effect_of_run hok h

theorem wait_eq_some {w : WaitCall (Mem Tid) (Thread Tid) Tid} (h : wait th = some w) :
    th.pc = .park (.wait w.addr) ∧ w.after = th.at (.park .load) ∧
      ∀ m : Mem Tid, w.holds m = true → m.lot.wakeFlag w.addr = 0 := by
  obtain ⟨held, pc⟩ := th
  cases pc with
  | park pc =>
      cases pc with
      | wait node =>
          cases h
          exact ⟨rfl, rfl, fun m hm => beq_iff_eq.mp hm⟩
      | _ => cases h
  | _ => cases h

theorem wake_eq_some {w : WakeCall (Thread Tid) Tid} (h : wake th = some w) :
    ∃ result, th.pc = .unpark (.wake w.addr result) ∧ w.count = some 1 ∧ w.after = th.at .idle := by
  obtain ⟨held, pc⟩ := th
  cases pc with
  | unpark pc =>
      cases pc with
      | wake target result =>
          cases h
          exact ⟨result, rfl, rfl, rfl⟩
      | _ => cases h
  | _ => cases h

/-- A return from the kernel in `park`. -/
theorem effect_of_wait {w : WaitCall (Mem Tid) (Thread Tid) Tid} (h : wait th = some w) :
    Effect this t m th m w.after ∧ w.after.Ok := by
  obtain ⟨hpc, hafter, -⟩ := wait_eq_some h
  rw [hafter]
  exact ⟨.park hpc (.ret _), .quiet rfl rfl nofun⟩

/-- The wake of `unpark_one`. -/
theorem effect_of_wake {w : WakeCall (Thread Tid) Tid} (h : wake th = some w) :
    Effect this t m th m w.after ∧ w.after.Ok := by
  obtain ⟨result, hpc, -, hafter⟩ := wake_eq_some h
  rw [hafter]
  exact ⟨.unpark hpc (.wake _ result), .quiet rfl rfl nofun⟩

theorem role_plain {pc : Pc Tid} (h : pc.plain = true) : pc.role this = .out := by
  cases pc <;> first | rfl | cases h

theorem afterPark_role (flow : Flow (ParkPc Tid Validate) Bool) :
    (afterPark flow : Pc Tid).role this = flow.parkRole this := by
  cases flow <;> rfl

theorem afterUnpark_role (flow : Flow (UnparkPc Tid) UnparkResult) :
    (afterUnpark flow).role this = flow.unparkRole this := by
  cases flow <;> rfl

/-- Every step of the lock is a step of the parking lot. -/
theorem Effect.move (h : Effect this t m th m' th') :
    Move t m.lot (th.pc.role this) m'.lot (th'.pc.role this) := by
  cases h with
  | plain hlocked hwaiting before after spinning =>
      rw [role_plain before, show (th.at _).pc.role this = .out from ?_]
      · exact .keep _
      · rcases after with after | rfl
        · exact role_plain after
        · rfl
  | acquire free before after =>
      rw [role_plain before]
      rcases after with rfl | rfl <;> exact .keep _
  | release held before quiet =>
      rw [role_plain before]
      exact .keep _
  | releaseWaiters held before =>
      rw [role_plain before]
      exact .keep _
  | park hpc h =>
      rw [hpc, Thread.at, afterPark_role]
      exact h.move
  | unpark hpc h =>
      rw [hpc, Thread.at, afterUnpark_role]
      exact h.move

/-! ### The two callbacks -/

theorem park_word {word word' : U64} {lot lot' : Lot Tid} {pc : ParkPc Tid Validate}
    {flow : Flow (ParkPc Tid Validate) Bool} (h : Parks .load validate this t word lot pc word' lot' flow) :
    word' = word ∨ pc = .validate .setWaiters ∧ word' = word ||| waitersBit := by
  cases h with
  | ret node => exact Or.inl rfl
  | step h =>
      cases pc with
      | lockBucket =>
          simp only [park] at h
          split at h <;> cases h <;> exact Or.inl rfl
      | validate v =>
          cases v with
          | load =>
              simp only [park, validate] at h
              split at h <;> rename_i heq <;> cases h <;>
                exact Or.inl (congrArg Prod.fst heq).symm
          | setWaiters =>
              cases h
              exact Or.inr ⟨rfl, rfl⟩
      | wait node => cases h
      | _ =>
          cases h
          exact Or.inl rfl

/-- A thread that is about to link its node has seen or set the waiters bit. -/
theorem park_enqueue {word word' : U64} {lot lot' : Lot Tid} {pc : ParkPc Tid Validate}
    (h : Parks .load validate this t word lot pc word' lot' (.at .enqueue)) :
    waiting word' ∧ (locked word ∨ pc = .validate .setWaiters) := by
  cases h with
  | step h =>
      cases pc with
      | lockBucket =>
          simp only [park] at h
          split at h <;> cases h
      | validate v =>
          cases v with
          | load =>
              simp only [park, validate] at h
              by_cases hfree : word &&& lockedBit = 0
              · rw [if_pos hfree] at h
                cases h
              · by_cases hnone : word &&& waitersBit = 0
                · rw [if_neg hfree, if_pos hnone] at h
                  cases h
                · rw [if_neg hfree, if_neg hnone] at h
                  cases h
                  exact ⟨hnone, Or.inl hfree⟩
          | setWaiters =>
              cases h
              exact ⟨waiting_set word, Or.inr rfl⟩
      | load =>
          simp only [park, Option.some.injEq, Prod.mk.injEq] at h
          obtain ⟨-, -, h⟩ := h
          split_ifs at h
          cases h
      | abort | enqueue | unlockBucket | wait => cases h

theorem unpark_word {word word' : U64} {lot lot' : Lot Tid} {pc : UnparkPc Tid}
    {flow : Flow (UnparkPc Tid) UnparkResult} (h : Unparks clearWaiters this word lot pc word' lot' flow) :
    word' = word ∨ ∃ target res, pc = .callback target res ∧ word' = clearWaiters res word := by
  cases h with
  | wake target res => exact Or.inl rfl
  | step h =>
      cases pc with
      | lockBucket =>
          simp only [unparkOne] at h
          split at h <;> cases h <;> exact Or.inl rfl
      | callback target res =>
          cases target <;> cases h <;> exact Or.inr ⟨_, _, rfl, rfl⟩
      | unlockBucket target res => cases target <;> cases h <;> exact Or.inl rfl
      | wake target res => cases h
      | _ =>
          cases h
          exact Or.inl rfl

/-- The callback runs with the result of the two scans. -/
theorem unpark_callback {word word' : U64} {lot lot' : Lot Tid} {pc : UnparkPc Tid} {target : Option Tid}
    {res : UnparkResult} (h : Unparks clearWaiters this word lot pc word' lot' (.at (.callback target res)))
    (hres : res ≠ .hasMoreWaiters) (u : Tid) : ¬ lot'.Waits this u := by
  cases h with
  | step h =>
      cases pc with
      | lockBucket =>
          simp only [unparkOne] at h
          split at h <;> cases h
      | dequeue =>
          cases h
          rw [Lot.Waits, Lot.bucket, setQueue_queue]
          exact unparkResult_eq_hasMore hres u
      | callback target res => cases target <;> cases h
      | unlockBucket target res => cases target <;> cases h
      | setFlag target res => cases h
      | wake target res => cases h

/-- Only the callback of `unlock` clears the waiters bit. -/
theorem Effect.waiting (h : Effect this t m th m' th') (hw : waiting m.taggedPtr) :
    waiting m'.taggedPtr ∨ ∃ target res, th.pc = .unpark (.callback target res) ∧
      res ≠ .hasMoreWaiters := by
  cases h with
  | plain hlocked hwaiting before after spinning => exact Or.inl (hwaiting.mpr hw)
  | acquire free before after => exact Or.inl ((waiting_lock _).mpr hw)
  | release held before quiet => exact absurd hw quiet
  | releaseWaiters held before => exact Or.inl ((waiting_unlock _).mpr hw)
  | park hpc h =>
      rcases park_word h with rfl | ⟨-, rfl⟩
      · exact Or.inl hw
      · exact Or.inl (waiting_set _)
  | unpark hpc h =>
      rcases unpark_word h with rfl | ⟨target, res, rfl, rfl⟩
      · exact Or.inl hw
      · by_cases hres : res = .hasMoreWaiters
        · rw [clearWaiters, if_neg (not_not.mpr hres)]
          exact Or.inl hw
        · exact Or.inr ⟨target, res, hpc, hres⟩

theorem Effect.enqueue (h : Effect this t m th m' th') (hpc : th'.pc = .park .enqueue) :
    TaggedLockPtr.waiting m'.taggedPtr ∧ (locked m.taggedPtr ∨ th.pc = .park (.validate .setWaiters)) := by
  cases h with
  | plain hlocked hwaiting before after spinning =>
      cases hpc
      rcases after with after | after <;> cases after
  | acquire free before after => rcases after with rfl | rfl <;> cases hpc
  | release held before quiet => cases hpc
  | releaseWaiters held before => cases hpc
  | @park pc word lot flow hpark h =>
      cases flow with
      | ret b => cases hpc
      | «at» pc' =>
          cases hpc
          obtain ⟨hw, hl⟩ := park_enqueue h
          refine ⟨hw, hl.imp_right ?_⟩
          rintro rfl
          exact hpark
  | @unpark pc word lot flow hpark h => cases flow <;> cases hpc

theorem Effect.callback {target : Option Tid} {res : UnparkResult} (h : Effect this t m th m' th')
    (hpc : th'.pc = .unpark (.callback target res)) (hres : res ≠ .hasMoreWaiters) (u : Tid) :
    ¬ m'.lot.Waits this u := by
  cases h with
  | plain hlocked hwaiting before after spinning =>
      cases hpc
      rcases after with after | after <;> cases after
  | acquire free before after => rcases after with rfl | rfl <;> cases hpc
  | release held before quiet => cases hpc
  | releaseWaiters held before => cases hpc
  | @park pc word lot flow hpark h => cases flow <;> cases hpc
  | @unpark pc word lot flow hpark h =>
      cases flow with
      | ret result => cases hpc
      | «at» pc' =>
          cases hpc
          exact unpark_callback h hres u

/-- Only `park` links a node. -/
theorem Effect.waits {u : Tid} (h : Effect this t m th m' th') (hw : m'.lot.Waits this u) :
    m.lot.Waits this u ∨ u = t ∧ th.pc = .park .enqueue := by
  cases h with
  | plain hlocked hwaiting before after spinning => exact Or.inl hw
  | acquire free before after => exact Or.inl hw
  | release held before quiet => exact Or.inl hw
  | releaseWaiters held before => exact Or.inl hw
  | unpark hpc h => exact Or.inl (h.waits hw)
  | park hpc h =>
      refine (h.waits hw).imp_right ?_
      rintro ⟨rfl, -, rfl⟩
      exact ⟨rfl, hpc⟩

theorem Effect.guards {f : Tid → Thread Tid} (h : Effect this t m (f t) m' th')
    (hg : Guards (locked m.taggedPtr) (fun th => th.held = true) f) :
    Guards (locked m'.taggedPtr) (fun th => th.held = true) (Function.update f t th') := by
  cases h with
  | plain hlocked hwaiting before after spinning => exact hg.same hlocked Iff.rfl
  | acquire free before after => exact hg.enter free (locked_lock _) rfl
  | release held before quiet => exact hg.leave held (not_locked_unlock _) nofun
  | releaseWaiters held before => exact hg.leave held (not_locked_unlock _) nofun
  | park hpc h =>
      refine hg.same ?_ Iff.rfl
      rcases park_word h with rfl | ⟨-, rfl⟩
      · exact Iff.rfl
      · exact locked_set _
  | unpark hpc h =>
      refine hg.same ?_ Iff.rfl
      rcases unpark_word h with rfl | ⟨target, res, -, rfl⟩
      · exact Iff.rfl
      · exact locked_clearWaiters res _

/-! ### The invariant -/

structure Inv (this : U64) (s : State Tid) : Prop where
  owner : Guards (locked s.mem.taggedPtr) (fun th => th.held = true) s.thread
  ok : ∀ t, (s.thread t).Ok
  lot : ParkingLot.Inv s.mem.lot fun t => (s.thread t).pc.role this
  /-- A thread that is linked, or about to be, is announced by the waiters bit. -/
  announced : ∀ t, s.mem.lot.Waits this t ∨ (s.thread t).pc = .park .enqueue →
    waiting s.mem.taggedPtr
  /-- The callback clears the bit only when nobody waits. -/
  truthful : ∀ t target res, (s.thread t).pc = .unpark (.callback target res) →
    res ≠ .hasMoreWaiters → ∀ u, ¬ s.mem.lot.Waits this u

variable {s : State Tid}

theorem Inv.init [Fintype Tid] {ptr : Pointer} : Inv this (program Tid this ptr).machine.init where
  owner := ⟨iff_of_false ptr.flags.1 nofun, nofun⟩
  ok _ := .quiet rfl rfl nofun
  lot := ParkingLot.Inv.init
  announced _ h := by rcases h with h | h <;> cases h
  truthful _ _ _ h := nomatch h

/-- Two threads with the bucket lock are one. -/
theorem Inv.inside (h : Inv this s) {t u : Tid} {b : U64}
    (ht : ((s.thread t).pc.role this).inside = some b)
    (hu : ((s.thread u).pc.role this).inside = some b) : t = u :=
  (h.lot.guard b).unique t u ht hu

theorem Inv.move (h : Inv this s) (hok : th'.Ok)
    (heff : Effect this t s.mem (s.thread t) m' th') : Inv this (s.move t m' th') := by
  have hrole := roles_move (fun th : Thread Tid => th.pc.role this) s t m' th'
  refine ⟨heff.guards h.owner, fun u => ?_, ?_, fun u hu => ?_, fun u target res hu hres x hx => ?_⟩
  · rw [Config.move_thread, Function.update_apply]
    split_ifs
    · exact hok
    · exact h.ok u
  · rw [hrole]
    exact h.lot.move heff.move
  · have hbefore : s.mem.lot.Waits this u ∨ (s.thread u).pc = .park .enqueue →
        waiting m'.taggedPtr := by
      intro hu
      rcases heff.waiting (h.announced u hu) with hw | ⟨target, res, hpc, hres⟩
      · exact hw
      · rcases hu with hu | hu
        · exact absurd hu (h.truthful t target res hpc hres u)
        · -- the bucket lock keeps the linking thread out of the callback
          have hut : u = t := h.inside (b := hashAddress this) (by rw [hu]; rfl) (by rw [hpc]; rfl)
          rw [hut, hpc] at hu
          cases hu
    rcases hu with hu | hu
    · rcases heff.waits hu with hw | ⟨rfl, hpc⟩
      · exact hbefore (Or.inl hw)
      · exact hbefore (Or.inr hpc)
    · rw [Config.move_thread, Function.update_apply] at hu
      split_ifs at hu
      · exact (heff.enqueue hu).1
      · exact hbefore (Or.inr hu)
  · rw [Config.move_thread, Function.update_apply] at hu
    split_ifs at hu with hut
    · exact heff.callback hu hres x hx
    · rcases heff.waits hx with hw | ⟨rfl, hpc⟩
      · exact h.truthful u target res hu hres x hw
      · exact hut (h.inside (b := hashAddress this) (by rw [hu]; rfl) (by rw [hpc]; rfl))

theorem Inv.wake (h : Inv this s) {asleep : Tid → Option Tid} : Inv this { s with asleep := asleep } :=
  ⟨h.owner, h.ok, h.lot, h.announced, h.truthful⟩

theorem Inv.next [Fintype Tid] {ptr : Pointer} {s' : State Tid} {a : Act Tid Label} (h : Inv this s)
    (hnext : (program Tid this ptr).machine.next s a = some s') : Inv this s' := by
  refine (program Tid this ptr).next_induct (fun _ h => h.wake) (fun h hwait => ?_) (fun h hwake => ?_)
    (fun _ => rfl) h hnext fun _ hstep => ?_
  · obtain ⟨heff, hok⟩ := effect_of_wait hwait
    exact h.move hok heff
  · obtain ⟨heff, hok⟩ := effect_of_wake hwake
    exact h.move hok heff
  · obtain ⟨heff, hok⟩ := effect_of_step (h.ok _) hstep
    exact h.move hok heff

theorem inv_of_reachable [Fintype Tid] {ptr : Pointer}
    {ok : StepCond (State Tid) (Act Tid Label)} (h : (program Tid this ptr).machine.Reachable ok s) : Inv this s :=
  h.induct Inv.init fun _ ih hnext _ => ih.next hnext

end Psync.TaggedLockPtr
