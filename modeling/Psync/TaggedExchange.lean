import Psync.TaggedPointer

/-! The operations `exchange` and `compare_exchange` on the pointer of a tagged word. Both write the whole
word: they are operations on the pointer bits alone only where the flags are clear. -/

namespace Psync.TaggedLockPtr

open Concurrency ParkingLot

set_option linter.unusedSectionVars false

/-- The effect of an exchange on the pointer bits alone. -/
structure ExchangesPointer (newPtr : Pointer) (word : U64) (r : U64 × U64) : Prop where
  result : r.2 = word &&& pointerMask
  pointer : r.1 &&& pointerMask = newPtr.value
  flags : r.1 &&& flagMask = word &&& flagMask

/-- The effect of a compare-exchange on the pointer bits alone. -/
structure ComparesPointer (expected desired : Pointer) (word : U64) (r : U64 × Bool) : Prop where
  result : r.2 = true ↔ word &&& pointerMask = expected.value
  pointer : r.1 &&& pointerMask = if r.2 = true then desired.value else word &&& pointerMask
  flags : r.1 &&& flagMask = word &&& flagMask

/-! ### Words -/

variable {word : U64} {ptr expected desired : Pointer}

/-- A word is its pointer bits and its flags. -/
theorem pointer_or_flags (word : U64) : (word &&& pointerMask) ||| (word &&& flagMask) = word := by
  have hall : pointerMask ||| flagMask = BitVec.allOnes 64 := by decide
  rw [← BitVec.and_or_distrib_left, hall, BitVec.and_allOnes]

theorem Pointer.value_and_pointerMask (ptr : Pointer) : ptr.value &&& pointerMask = ptr.value := by
  have h := pointer_or_flags ptr.value
  rw [ptr.aligned] at h
  exact BitVec.or_zero.symm.trans h

theorem eq_pointer_iff : word = ptr.value ↔ word &&& pointerMask = ptr.value ∧ word &&& flagMask = 0 := by
  constructor
  · rintro rfl
    exact ⟨ptr.value_and_pointerMask, ptr.aligned⟩
  · rintro ⟨hpointer, hflags⟩
    rw [← pointer_or_flags word, hpointer, hflags]
    exact BitVec.or_zero

/-- `exchange` is an operation on the pointer bits exactly if no flag is set. -/
theorem exchange_iff : ExchangesPointer ptr word (exchange ptr word) ↔ word &&& flagMask = 0 := by
  constructor
  · intro h
    have hflags := h.flags
    rwa [exchange, ptr.aligned, eq_comm] at hflags
  · intro hflags
    exact ⟨rfl, ptr.value_and_pointerMask, by rw [exchange, ptr.aligned, hflags]⟩

/-- `compare_exchange` is one exactly if no flag is set or the pointer is another one anyway. -/
theorem compareExchange_iff :
    ComparesPointer expected desired word (compareExchange expected desired word) ↔
      word &&& flagMask = 0 ∨ word &&& pointerMask ≠ expected.value := by
  by_cases hword : word = expected.value
  · rw [compareExchange, if_pos hword]
    obtain ⟨hpointer, hflags⟩ := eq_pointer_iff.mp hword
    refine iff_of_true ⟨iff_of_true rfl hpointer, ?_, ?_⟩ (Or.inl hflags)
    · exact desired.value_and_pointerMask
    · rw [desired.aligned, hflags]
  · rw [compareExchange, if_neg hword]
    constructor
    · intro h
      exact Or.inr fun hpointer => Bool.false_ne_true (h.result.mpr hpointer)
    · intro h
      have hne : word &&& pointerMask ≠ expected.value :=
        h.elim (fun hflags hpointer => hword (eq_pointer_iff.mpr ⟨hpointer, hflags⟩)) id
      exact ⟨iff_of_false Bool.false_ne_true hne, rfl, rfl⟩

/-! ### Runs with `exchange` -/

variable {Tid : Type*} [DecidableEq Tid] [Fintype Tid] {this : U64}

inductive UpdateAct (Tid : Type*)
  /-- A step of the lock, of `get` or of `compare_exchange`. -/
  | call (a : Act Tid Label)
  /-- The whole call of `exchange`, which is one atomic step. -/
  | exchange (t : Tid) (newPtr : Pointer)

def setWord (s : State Tid) (word : U64) : State Tid :=
  { s with mem := { s.mem with taggedPtr := word } }

/-- All interleavings of the calls, those of `exchange` included. -/
def updates (Tid : Type*) [DecidableEq Tid] [Fintype Tid] (this : U64) (ptr : Pointer) :
    Machine (State Tid) (UpdateAct Tid) where
  init := (program Tid this ptr).machine.init
  next s
    | .call a => (program Tid this ptr).machine.next s a
    | .exchange t newPtr => if (s.thread t).pc = .idle then
        some (setWord s (exchange newPtr s.mem.taggedPtr).1) else none

/-- `exchange` finds neither of the two lock bits. -/
def exchangesFree : StepCond (State Tid) (UpdateAct Tid) :=
  fun s a _ => match a with
    | .exchange _ _ => s.mem.taggedPtr &&& (lockedBit ||| waitersBit) = 0
    | .call _ => True

instance (s : State Tid) (a : UpdateAct Tid) (s' : State Tid) : Decidable (exchangesFree s a s') :=
  match a with
  | .exchange _ _ => inferInstanceAs (Decidable (_ = _))
  | .call _ => .isTrue trivial

variable {s s' : State Tid}

/-- The invariant of the lock depends on the two lock bits of the word only. -/
theorem Inv.setWord (hinv : Inv this s) (hlocked : locked word ↔ locked s.mem.taggedPtr)
    (hwaiting : waiting s.mem.taggedPtr → waiting word) : Inv this (setWord s word) where
  owner := hinv.owner.congr hlocked fun _ => Iff.rfl
  ok := hinv.ok
  lot := hinv.lot
  announced t ht := hwaiting (hinv.announced t ht)
  truthful := hinv.truthful

theorem free_iff : word &&& (lockedBit ||| waitersBit) = 0 ↔ ¬ locked word ∧ ¬ waiting word := by
  rw [BitVec.and_or_distrib_left, locked, waiting, not_not, not_not]
  exact BitVec.or_eq_zero_iff

theorem inv_of_updates (h : (updates Tid this ptr).Reachable exchangesFree s) : Inv this s := by
  refine h.induct (I := Inv this) Inv.init fun {s a s'} _ ih hnext hok => ?_
  cases a with
  | call a => exact ih.next hnext
  | exchange t newPtr =>
      change (if (s.thread t).pc = .idle then
        some (TaggedLockPtr.setWord s (exchange newPtr s.mem.taggedPtr).1) else none) = some s' at hnext
      rw [Option.ite_none_right_eq_some, Option.some.injEq] at hnext
      obtain ⟨-, rfl⟩ := hnext
      obtain ⟨hlocked, hwaiting⟩ := free_iff.mp hok
      exact ih.setWord (iff_of_false newPtr.flags.1 hlocked) fun hw => absurd hw hwaiting

/-- `exchange` and `compare_exchange` are operations on the pointer bits alone exactly on the words
described, and in every run in which `exchange` finds the lock bits clear the lock stays with its owner
and the waiters stay announced. -/
theorem pointer_updates_atomic (this : U64) (ptr : Pointer) :
    (∀ word newPtr, ExchangesPointer newPtr word (exchange newPtr word) ↔ word &&& flagMask = 0) ∧
    (∀ word expected desired,
      ComparesPointer expected desired word (compareExchange expected desired word) ↔
        word &&& flagMask = 0 ∨ word &&& pointerMask ≠ expected.value) ∧
    ∀ s, (updates Tid this ptr).Reachable exchangesFree s →
      Guards (s.mem.taggedPtr &&& lockedBit ≠ 0) (fun th => th.held = true) s.thread ∧
        ∀ t, s.mem.lot.Waits this t → s.mem.taggedPtr &&& waitersBit ≠ 0 := by
  refine ⟨fun _ _ => exchange_iff, fun _ _ _ => compareExchange_iff, fun s h => ?_⟩
  have hinv := inv_of_updates h
  exact ⟨hinv.owner, fun t ht => hinv.announced t (Or.inl ht)⟩

def Pointer.sample : Pointer := ⟨0x2000, by decide⟩

/-- Thread `b` swaps the pointer and thread `a` takes the lock. -/
def swapped : List (UpdateAct Runner) :=
  [.exchange .b .sample, .call (.step .a .lock), .call (.step .a .run), .call (.step .a .run)]

theorem pointer_updates_atomic_swapped : ∃ s : State Runner,
    s.mem.taggedPtr = 0x2001 ∧
      Guards (s.mem.taggedPtr &&& lockedBit ≠ 0) (fun th => th.held = true) s.thread :=
  let M := updates Runner 0x1000 .null
  ⟨(M.run exchangesFree M.init swapped).get (by decide), by decide,
    ((pointer_updates_atomic 0x1000 .null).2.2 _ (.of_run swapped _)).1⟩

/-- Thread `b` swaps the pointer of a lock that thread `a` owns, and takes the lock as well. -/
def stolen : List (UpdateAct Runner) :=
  [.call (.step .a .lock), .call (.step .a .run), .call (.step .a .run), .exchange .b .sample,
    .call (.step .b .lock), .call (.step .b .run), .call (.step .b .run)]

theorem exchange_drops_lock :
    ¬ ExchangesPointer .sample lockedBit (exchange .sample lockedBit) ∧
    ¬ ComparesPointer .null .sample lockedBit (compareExchange .null .sample lockedBit) ∧
    ∃ s : State Runner,
      (updates Runner 0x1000 .null).Reachable anyStep s ∧
        (s.thread .a).held = true ∧ (s.thread .b).held = true := by
  refine ⟨?_, ?_, ?_⟩
  · rw [exchange_iff]
    decide
  · rw [compareExchange_iff]
    decide
  · let M := updates Runner 0x1000 .null
    exact ⟨(M.run anyStep M.init stolen).get (by decide), .of_run _ _, by decide, by decide⟩

end Psync.TaggedLockPtr
