import Psync.TaggedState

/-! The pointer, the user's bit and the two lock bits share the tagged word. The steps of the lock
and both callbacks in the parking lot write the two lock bits only, and a CAS on the pointer expects
a word without them. -/

namespace Psync.TaggedLockPtr

open Concurrency ParkingLot

set_option linter.unusedSectionVars false

/-- The pointer of a default-constructed lock. -/
def Pointer.null : Pointer := ⟨0, by decide⟩

/-- The words agree outside the two lock bits. -/
def SameUser (word word' : U64) : Prop :=
  word' &&& ~~~(lockedBit ||| waitersBit) = word &&& ~~~(lockedBit ||| waitersBit)

section Words

variable {word word' : U64}

theorem SameUser.refl : SameUser word word := rfl

theorem SameUser.pointer (h : SameUser word word') : word' &&& pointerMask = word &&& pointerMask := by
  have hmask : ~~~(lockedBit ||| waitersBit) &&& pointerMask = pointerMask := by decide
  rw [← hmask, ← BitVec.and_assoc, ← BitVec.and_assoc, h]

theorem SameUser.marked (h : SameUser word word') : word' &&& markedBit = word &&& markedBit := by
  have hmask : ~~~(lockedBit ||| waitersBit) &&& markedBit = markedBit := by decide
  rw [← hmask, ← BitVec.and_assoc, ← BitVec.and_assoc, h]

theorem sameUser_or {bit : U64} (hbit : bit &&& ~~~(lockedBit ||| waitersBit) = 0) :
    SameUser word (word ||| bit) := by
  have hdistrib : (word ||| bit) &&& ~~~(lockedBit ||| waitersBit) =
      word &&& ~~~(lockedBit ||| waitersBit) ||| bit &&& ~~~(lockedBit ||| waitersBit) := by
    ext i
    simp only [BitVec.getElem_and, BitVec.getElem_or]
    exact Bool.and_or_distrib_right _ _ _
  rw [SameUser, hdistrib, hbit]
  exact BitVec.or_zero

theorem sameUser_and {mask : U64}
    (hmask : mask &&& ~~~(lockedBit ||| waitersBit) = ~~~(lockedBit ||| waitersBit)) :
    SameUser word (word &&& mask) := by
  rw [SameUser, BitVec.and_assoc, hmask]

theorem sameUser_lock : SameUser word (word ||| lockedBit) := sameUser_or (by decide)

theorem sameUser_unlock : SameUser word (word &&& ~~~lockedBit) := sameUser_and (by decide)

theorem sameUser_setWaiters : SameUser word (word ||| waitersBit) := sameUser_or (by decide)

theorem sameUser_clearWaiters (res : UnparkResult) : SameUser word (clearWaiters res word) := by
  rw [clearWaiters]
  split_ifs
  · exact sameUser_and (by decide)
  · exact .refl

/-- A pointer has no mark. -/
theorem Pointer.marked (ptr : Pointer) : ptr.value &&& markedBit = 0 := by
  have hmask : flagMask &&& markedBit = markedBit := by decide
  rw [← hmask, ← BitVec.and_assoc, ptr.aligned]
  decide

end Words

/-! ### Steps on the word -/

variable {Tid : Type*} [DecidableEq Tid] {this : U64} {t : Tid} {m m' : Mem Tid} {th th' : Thread Tid}

theorem sameUser_cas {current new : U64} {won lost : Thread Tid} (hnew : SameUser current new) :
    SameUser m.taggedPtr (cas m current new won lost).1.taggedPtr := by
  rw [cas]
  split_ifs with heq
  · rw [heq]
    exact hnew
  · exact .refl

/-- A step writes the lock bits only, or it is a CAS on the pointer that succeeds. -/
theorem user_of_run (h : run this t m th = some (m', th')) : SameUser m.taggedPtr m'.taggedPtr ∨
    ∃ expected desired, th.pc = .compareExchange expected desired ∧
      m.taggedPtr = expected.value ∧ m'.taggedPtr = desired.value := by
  obtain ⟨held, pc⟩ := th
  cases pc with
  | idle => cases h
  | lockCas current | tryCas current | spinCas i current | parkCas current =>
      obtain rfl := (congrArg Prod.fst (Option.some.inj h)).symm
      exact Or.inl (sameUser_cas sameUser_lock)
  | unlockCasWaiters current | unlockCas current =>
      obtain rfl := (congrArg Prod.fst (Option.some.inj h)).symm
      exact Or.inl (sameUser_cas sameUser_unlock)
  | park pc =>
      simp only [run, Option.map_eq_some_iff] at h
      obtain ⟨⟨word, lot, flow⟩, hpark, heq⟩ := h
      cases heq
      rcases park_word (.step hpark) with rfl | ⟨-, rfl⟩
      · exact Or.inl .refl
      · exact Or.inl sameUser_setWaiters
  | unpark pc =>
      simp only [run, Option.map_eq_some_iff] at h
      obtain ⟨⟨word, lot, flow⟩, hunpark, heq⟩ := h
      cases heq
      rcases unpark_word (.step hunpark) with rfl | ⟨target, res, -, rfl⟩
      · exact Or.inl .refl
      · exact Or.inl (sameUser_clearWaiters res)
  | compareExchange expected desired =>
      simp only [run, compareExchange, Option.some.injEq, Prod.mk.injEq] at h
      obtain ⟨rfl, -⟩ := h
      split_ifs with heq
      · exact Or.inr ⟨expected, desired, rfl, heq, rfl⟩
      · exact Or.inl .refl
  | _ =>
      cases h
      exact Or.inl .refl

theorem user_of_step {l : Label} (h : step this t l m th = some (m', th')) :
    SameUser m.taggedPtr m'.taggedPtr ∨ l = .run ∧
      ∃ expected desired, th.pc = .compareExchange expected desired ∧
        m.taggedPtr = expected.value ∧ m'.taggedPtr = desired.value := by
  cases l with
  | run => exact (user_of_run h).imp_right fun hcas => ⟨rfl, hcas⟩
  | _ =>
      simp only [step] at h
      split_ifs at h
      cases h
      exact Or.inl .refl

variable {s : State Tid}

/-- A step of thread `t` at which its `compare_exchange` succeeds. -/
def Exchanges (s : State Tid) (a : Act Tid Label) (s' : State Tid) : Prop :=
  ∃ t expected desired, a = .step t .run ∧ (s.thread t).pc = .compareExchange expected desired ∧
    s.mem.taggedPtr = expected.value ∧ s'.mem.taggedPtr = desired.value

theorem exchanges_of_next [Fintype Tid] {ptr : Pointer} {a : Act Tid Label} {s' : State Tid}
    (h : (program Tid this ptr).machine.next s a = some s') :
    SameUser s.mem.taggedPtr s'.mem.taggedPtr ∨ Exchanges s a s' := by
  cases Program.transition_of_next _ h with
  | @step t l m th awake hstep =>
      rcases user_of_step hstep with hsame | ⟨rfl, expected, desired, hpc, hold, hnew⟩
      · exact Or.inl hsame
      · exact Or.inr ⟨t, expected, desired, rfl, hpc, hold, hnew⟩
  | sleep awake hwait holds => exact Or.inl .refl
  | ret hwait => exact Or.inl .refl
  | wake awake hwake chosen => exact Or.inl .refl
  | requeue awake hrequeue => cases hrequeue
  | refused awake hrequeue => cases hrequeue

theorem marked_of_reachable [Fintype Tid] {ptr : Pointer}
    {ok : StepCond (State Tid) (Act Tid Label)}
    (h : (program Tid this ptr).machine.Reachable ok s) :
    s.mem.taggedPtr &&& markedBit = ptr.value &&& markedBit := by
  refine h.induct (I := fun s => s.mem.taggedPtr &&& markedBit = ptr.value &&& markedBit) rfl ?_
  intro s a s' _ ih hnext _
  rcases exchanges_of_next hnext with hsame | ⟨t, expected, desired, -, -, -, hnew⟩
  · rw [hsame.marked, ih]
  · rw [hnew, desired.marked, ptr.marked]

/-- A CAS on the pointer cannot succeed while a thread owns the lock. -/
theorem Inv.not_held (hinv : Inv this s) {expected : Pointer}
    (hword : s.mem.taggedPtr = expected.value) (u : Tid) : (s.thread u).held = false := by
  cases hheld : (s.thread u).held with
  | false => rfl
  | true =>
      have hlocked : locked s.mem.taggedPtr := hinv.owner.iff.mpr ⟨u, hheld⟩
      rw [hword] at hlocked
      exact absurd hlocked expected.flags.1

/-- One word tells the truth about three things: `LOCKED_BIT` is set exactly while a thread owns the
lock, and then only one does; the pointer changes only in a CAS that finds the lock free; and a
thread in the queue is announced by `WAITERS_BIT`, also while the bucket lock is held. A thread whose
`try_lock` has returned `true` owns the lock. -/
theorem tagged_lock_state [Fintype Tid] {ptr : Pointer}
    (h : (program Tid this ptr).machine.Reachable anyStep s) :
    Guards (s.mem.taggedPtr &&& lockedBit ≠ 0) (fun th => th.held = true) s.thread ∧
      (∀ a s', (program Tid this ptr).machine.next s a = some s' →
        (s'.mem.taggedPtr &&& pointerMask ≠ s.mem.taggedPtr &&& pointerMask → Exchanges s a s') ∧
        (Exchanges s a s' → ∀ u, (s.thread u).held = false)) ∧
      s.mem.taggedPtr &&& markedBit = ptr.value &&& markedBit ∧
      (∀ t, s.mem.lot.Waits this t → s.mem.taggedPtr &&& waitersBit ≠ 0) ∧
      ∀ t, (s.thread t).pc = .tried true → (s.thread t).held = true := by
  have hinv := inv_of_reachable h
  refine ⟨hinv.owner, fun a s' hnext => ⟨fun hne => ?_, ?_⟩, marked_of_reachable h, fun t ht => ?_,
    fun t ht => (hinv.ok t).won (by rw [ht]; rfl)⟩
  · rcases exchanges_of_next hnext with hsame | hcas
    · exact absurd hsame.pointer hne
    · exact hcas
  · rintro ⟨t, expected, desired, -, -, hword, -⟩ u
    exact hinv.not_held hword u
  · exact hinv.announced t (Or.inl ht)

/-- Thread `b` parks on the lock that thread `a` owns. -/
def queuedRun : List (Act Runner Label) :=
  [.step .a .lock, .step .a .run, .step .a .run, .step .b .lock] ++ List.replicate 17 (.step .b .run)

theorem tagged_lock_state_queued : ∃ s : State Runner,
    s.mem.lot.Waits 0x1000 .b ∧ (s.thread .a).held = true ∧ s.mem.taggedPtr &&& waitersBit ≠ 0 :=
  let M := (program Runner 0x1000 .null).machine
  have hwaits : ((M.run anyStep M.init queuedRun).get (by decide)).mem.lot.Waits 0x1000 .b := by
    unfold Lot.Waits
    decide
  ⟨(M.run anyStep M.init queuedRun).get (by decide), hwaits, by decide,
    (tagged_lock_state (.of_run _ _)).2.2.2.1 .b hwaits⟩

end Psync.TaggedLockPtr
