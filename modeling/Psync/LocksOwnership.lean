import Psync.LocksModel

/-! Every hold is accounted for. A member function of a wrapper changes what the wrapper owns by exactly
the hold that it takes or gives up; moves and swaps exchange what two wrappers own. -/

namespace Psync.Locks

open Concurrency

set_option linter.unusedSectionVars false

variable {Obj Mx : Type*}

/-! ### One wrapper -/

/-- Who owns a hold has a mutex. -/
def Sound (w : Option (Lock Mx)) : Prop := ∀ l, w = some l → l.owns = true → l.mutex ≠ none

theorem sound_none : Sound (none : Option (Lock Mx)) := fun l h => by cases h

theorem sound_some {m : Mx} {owns : Bool} : Sound (some ⟨some m, owns⟩) := by
  rintro l h -
  cases h
  simp

theorem sound_free {p : Option Mx} : Sound (some ⟨p, false⟩) := by
  intro l h howns
  cases h
  cases howns

variable [DecidableEq Mx]

namespace Call

/-- The holds of `m` that a call takes, and those that it gives up. -/
def taken (m : Mx) (c : Option (Call Mx)) : ℕ := if c = some (.lock m) then 1 else 0

def given (m : Mx) (c : Option (Call Mx)) : ℕ := if c = some (.unlock m) then 1 else 0

end Call

/-- What a wrapper owns before and after a member function with the call `c`. -/
def Balanced (w w' : Option (Lock Mx)) (c : Option (Call Mx)) : Prop :=
  ∀ m, (ownsHold m w').toNat + Call.given m c = (ownsHold m w).toNat + Call.taken m c

variable {l : Lock Mx} {m : Mx} {w w' : Option (Lock Mx)} {c : Option (Call Mx)} {ok : Bool}

/-- A call that gives up a hold gives up one that the wrapper owns. -/
theorem Balanced.owned (h : Balanced w w' (some (.unlock m))) : ownsHold m w = true := by
  have hm := h m
  cases hown : ownsHold m w with
  | true => rfl
  | false =>
      rw [hown] at hm
      simp [Call.given, Call.taken] at hm

theorem ownsHold_locked (x : Mx) : ownsHold x (some ⟨some m, true⟩) = decide (m = x) := by
  simp [ownsHold, Lock.holds]

theorem ownsHold_free (x : Mx) (p : Option Mx) : ownsHold x (some ⟨p, false⟩) = false := by
  simp [ownsHold, Lock.holds]

theorem balanced_take (hw : ∀ x, ownsHold x w = false) : Balanced w (some ⟨some m, true⟩) (some (.lock m)) := by
  intro x
  rw [ownsHold_locked, hw]
  by_cases hx : m = x <;> simp [Call.given, Call.taken, hx]

theorem balanced_none (h : ∀ x, ownsHold x w' = ownsHold x w) : Balanced w w' none := by
  intro x
  rw [h]
  simp [Call.given, Call.taken]

theorem balanced_give (hw : ∀ x, ownsHold x w' = false) :
    Balanced (some ⟨some m, true⟩) w' (some (.unlock m)) := by
  intro x
  rw [ownsHold_locked, hw]
  by_cases hx : m = x <;> simp [Call.given, Call.taken, hx]

namespace Lock

theorem tryToLock_balanced (hw : ∀ x, ownsHold x w = false) :
    Balanced w (some (tryToLock m ok).1) (tryToLock m ok).2 := by
  cases ok with
  | true => exact balanced_take hw
  | false => exact balanced_none fun x => (ownsHold_free ..).trans (hw x).symm

theorem destroy_balanced (hw' : ∀ x, ownsHold x w' = false) : Balanced (some l) w' l.destroy := by
  obtain ⟨mutex, owns⟩ := l
  cases mutex with
  | none =>
      refine balanced_none fun x => (hw' x).trans ?_
      simp [ownsHold, Lock.holds]
  | some m =>
      cases owns with
      | true => exact balanced_give hw'
      | false => exact balanced_none fun x => (hw' x).trans (ownsHold_free ..).symm

theorem lock_balanced : Balanced (some l) (some l.lock.1) l.lock.2 := by
  obtain ⟨mutex, owns⟩ := l
  cases mutex with
  | none => exact balanced_none fun _ => rfl
  | some m =>
      cases owns with
      | true => exact balanced_none fun _ => rfl
      | false => exact balanced_take fun _ => ownsHold_free ..

theorem tryLock_balanced : Balanced (some l) (some (l.tryLock ok).1) (l.tryLock ok).2.1 := by
  obtain ⟨mutex, owns⟩ := l
  cases mutex with
  | none => exact balanced_none fun _ => rfl
  | some m =>
      cases owns with
      | true => exact balanced_none fun _ => rfl
      | false => exact tryToLock_balanced fun _ => ownsHold_free ..

theorem unlock_balanced : Balanced (some l) (some l.unlock.1) l.unlock.2 := by
  obtain ⟨mutex, owns⟩ := l
  cases mutex with
  | none => exact balanced_none fun _ => rfl
  | some m =>
      cases owns with
      | true => exact balanced_give fun _ => ownsHold_free ..
      | false => exact balanced_none fun _ => rfl

theorem lock_sound (h : Sound (some l)) : Sound (some l.lock.1) := by
  obtain ⟨mutex, owns⟩ := l
  cases mutex with
  | none => exact h
  | some m => cases owns <;> exact sound_some

theorem tryLock_sound (h : Sound (some l)) : Sound (some (l.tryLock ok).1) := by
  obtain ⟨mutex, owns⟩ := l
  cases mutex with
  | none => exact h
  | some m => cases owns <;> exact sound_some

theorem unlock_sound (h : Sound (some l)) : Sound (some l.unlock.1) := by
  obtain ⟨mutex, owns⟩ := l
  cases mutex with
  | none => exact h
  | some m => cases owns <;> exact sound_some

end Lock

/-! ### All wrappers -/

variable [DecidableEq Obj] [Fintype Obj] {admits : Admits} {s s' : State Obj Mx} {k : Kind} {o other : Obj}

/-- The number of live wrappers of a class that own a hold of `m`. -/
def owners (s : State Obj Mx) (k : Kind) (m : Mx) : ℕ := count (ownsHold m) (s.lock k)

structure Inv (s : State Obj Mx) : Prop where
  holds : ∀ k m, s.holds k m = owners s k m + s.released k m
  sound : ∀ k o, Sound (s.lock k o)

theorem adjust_apply (f : Kind → Mx → ℕ) (j : Kind) (x : Mx) (n : ℕ) :
    adjust f k m n j x = if j = k ∧ m = x then n else f j x := by
  simp only [adjust, eq_comm]

theorem owners_setLock (w : Option (Lock Mx)) (j : Kind) (x : Mx) :
    owners (s.setLock k o w) j x + (if j = k then (ownsHold x (s.lock k o)).toNat else 0) =
      owners s j x + if j = k then (ownsHold x w).toNat else 0 := by
  rw [owners, owners]
  by_cases hjk : j = k
  · simp only [State.setLock, hjk, if_true]
    exact count_update o w
  · simp only [State.setLock, if_neg hjk]

theorem setLock_self : (s.setLock k o w).lock k o = w := by
  simp only [State.setLock, if_true]
  exact Function.update_self ..

theorem setLock_of_ne (hne : other ≠ o) : (s.setLock k o w).lock k other = s.lock k other := by
  simp only [State.setLock, if_true]
  exact Function.update_of_ne hne ..

theorem setLock_setLock : (s.setLock k o w).setLock k o w' = s.setLock k o w' := by
  simp only [State.setLock]
  congr 1
  funext j
  split_ifs
  · exact Function.update_idem ..
  · rfl

theorem sound_setLock (h : ∀ k o, Sound (s.lock k o)) (hw : Sound w) (j : Kind) (x : Obj) :
    Sound ((s.setLock k o w).lock j x) := by
  simp only [State.setLock]
  split_ifs with hjk
  · rw [Function.update_apply]
    split_ifs
    · exact hw
    · exact h j x
  · exact h j x

/-- What a call does to the holds. -/
theorem call_spec (h : s.call k admits c = some s') (hown : ∀ m, c = some (.unlock m) → 0 < s.holds k m) :
    s'.lock = s.lock ∧ s'.released = s.released ∧
      ∀ j x, s'.holds j x + (if j = k then Call.given x c else 0) =
        s.holds j x + if j = k then Call.taken x c else 0 := by
  cases c with
  | none =>
      cases h
      simp [Call.given, Call.taken]
  | some c =>
      cases c with
      | lock m =>
          simp only [State.call, Option.ite_none_right_eq_some, Option.some.injEq] at h
          obtain ⟨-, rfl⟩ := h
          refine ⟨rfl, rfl, fun j x => ?_⟩
          simp only [adjust_apply, Call.given, Call.taken, Option.some.injEq, Call.lock.injEq, reduceCtorEq]
          by_cases hj : j = k <;> by_cases hx : m = x <;> simp [hj, hx]
      | unlock m =>
          cases h
          have hpos := hown m rfl
          refine ⟨rfl, rfl, fun j x => ?_⟩
          simp only [adjust_apply, Call.given, Call.taken, Option.some.injEq, Call.unlock.injEq, reduceCtorEq]
          by_cases hj : j = k <;> by_cases hx : m = x <;> simp [hj, hx]
          subst hx
          omega

theorem handOut_spec (s : State Obj Mx) (k : Kind) (l : Lock Mx) :
    (s.handOut k l.release.2 l.owns).lock = s.lock ∧ (s.handOut k l.release.2 l.owns).holds = s.holds ∧
      ∀ j x, (s.handOut k l.release.2 l.owns).released j x =
        s.released j x + if j = k then (ownsHold x (some l)).toNat else 0 := by
  obtain ⟨mutex, owns⟩ := l
  cases mutex with
  | none => exact ⟨rfl, rfl, fun j x => by simp [State.handOut, Lock.release, ownsHold, Lock.holds]⟩
  | some m =>
      cases owns with
      | false => exact ⟨rfl, rfl, fun j x => by simp [State.handOut, ownsHold_free]; rfl⟩
      | true =>
          refine ⟨rfl, rfl, fun j x => ?_⟩
          simp only [State.handOut, Lock.release, if_true, adjust_apply, ownsHold_locked]
          by_cases hj : j = k <;> by_cases hx : m = x <;> simp [hj, hx]

namespace Inv

/-- The wrapper owns a hold that is counted. -/
theorem holds_pos (hinv : Inv s) (h : ownsHold m (s.lock k o) = true) : 0 < s.holds k m := by
  rw [hinv.holds]
  exact Nat.add_pos_left (count_pos_of h) _

/-- What a wrapper owns changes by the hold that its call takes or gives up. -/
theorem exchange (hinv : Inv s) (hw : s.lock k o = w) (hbal : Balanced w w' c) (hsound : Sound w')
    (h : s.call k admits c = some s') :
    Inv (s'.setLock k o w') ∧ ∀ m, c = some (.unlock m) → ownsHold m (s.lock k o) = true := by
  have hown : ∀ m, c = some (.unlock m) → ownsHold m (s.lock k o) = true := by
    rintro m rfl
    rw [hw]
    exact hbal.owned
  obtain ⟨hlock, hreleased, hholds⟩ := call_spec h fun m hm => hinv.holds_pos (hown m hm)
  refine ⟨⟨fun j x => ?_, sound_setLock (by rw [hlock]; exact hinv.sound) hsound⟩, hown⟩
  have howners := owners_setLock (s := s') (k := k) (o := o) w' j x
  have hsame : owners s' j x = owners s j x := by rw [owners, hlock, owners]
  have hcall := hholds j x
  have hx := hbal x
  have := hinv.holds j x
  rw [hlock, hw, hsame] at howners
  change s'.holds j x = _ + s'.released j x
  rw [hreleased]
  split_ifs at howners hcall <;> omega

theorem construct (hinv : Inv s) {r : Lock Mx × Option (Call Mx)} (hbal : Balanced none (some r.1) r.2)
    (hsound : Sound (some r.1)) (h : s.construct k admits o r = some (s', c)) :
    Inv s' ∧ ∀ m, c = some (.unlock m) → ownsHold m (s.lock k o) = true := by
  rw [State.construct] at h
  split at h
  · rename_i hnone
    simp only [Option.map_eq_some_iff, Prod.mk.injEq] at h
    obtain ⟨s₁, hcall, rfl, rfl⟩ := h
    exact hinv.exchange hnone hbal hsound hcall
  · cases h

theorem member (hinv : Inv s) {f : Lock Mx → Lock Mx × Option (Call Mx)}
    (hbal : ∀ l, Balanced (some l) (some (f l).1) (f l).2)
    (hsound : ∀ l, Sound (some l) → Sound (some (f l).1)) (h : s.member k admits o f = some (s', c)) :
    Inv s' ∧ ∀ m, c = some (.unlock m) → ownsHold m (s.lock k o) = true := by
  rw [State.member] at h
  split at h
  · rename_i l hl
    simp only [Option.map_eq_some_iff, Prod.mk.injEq] at h
    obtain ⟨s₁, hcall, rfl, rfl⟩ := h
    exact hinv.exchange hl (hbal l) (hsound l (hl ▸ hinv.sound k o)) hcall
  · cases h

/-- The contents of a wrapper move to a place where there is no hold. -/
theorem transfer (hinv : Inv s) (hempty : ∀ x, ownsHold x (s.lock k o) = false)
    (hother : s.lock k other = some l) (hne : o ≠ other) :
    Inv ((s.setLock k o (some l)).setLock k other (some .default)) := by
  have hl : Sound (some l) := by
    rw [← hother]
    exact hinv.sound k other
  refine ⟨fun j x => ?_, sound_setLock (sound_setLock hinv.sound hl) sound_free⟩
  have hfirst := owners_setLock (s := s) (k := k) (o := o) (some l) j x
  have hsecond := owners_setLock (s := s.setLock k o (some l)) (k := k) (o := other) (some .default) j x
  have hsame : (s.setLock k o (some l)).lock k other = some l := by
    rw [setLock_of_ne hne.symm, hother]
  rw [hempty x] at hfirst
  rw [hsame, show ownsHold x (some Lock.default) = false from ownsHold_free ..] at hsecond
  have := hinv.holds j x
  change s.holds j x = _ + s.released j x
  simp only [Bool.toNat_false] at hfirst hsecond
  split_ifs at hfirst hsecond <;> omega

theorem swap (hinv : Inv s) {l' : Lock Mx} (hl : s.lock k o = some l) (hl' : s.lock k other = some l') :
    Inv ((s.setLock k o (some l')).setLock k other (some l)) := by
  have hsound : Sound (some l) := by
    rw [← hl]
    exact hinv.sound k o
  have hsound' : Sound (some l') := by
    rw [← hl']
    exact hinv.sound k other
  refine ⟨fun j x => ?_, sound_setLock (sound_setLock hinv.sound hsound') hsound⟩
  have hfirst := owners_setLock (s := s) (k := k) (o := o) (some l') j x
  have hsecond := owners_setLock (s := s.setLock k o (some l')) (k := k) (o := other) (some l) j x
  have hsame : (s.setLock k o (some l')).lock k other = some l' := by
    by_cases hne : other = o
    · rw [hne, setLock_self]
    · rw [setLock_of_ne hne, hl']
  rw [hl] at hfirst
  rw [hsame] at hsecond
  have := hinv.holds j x
  change s.holds j x = _ + s.released j x
  omega

theorem adopt (hinv : Inv s) (hnone : s.lock k o = none) (hpos : 0 < s.released k m) :
    Inv ((s.handIn k m).setLock k o (some (.adoptLock m))) := by
  refine ⟨fun j x => ?_, sound_setLock hinv.sound sound_some⟩
  have howners := owners_setLock (s := s.handIn k m) (k := k) (o := o) (some (.adoptLock m)) j x
  rw [show (s.handIn k m).lock k o = none from hnone,
    show ownsHold x (some (Lock.adoptLock m)) = decide (m = x) from ownsHold_locked x] at howners
  have hsame : owners (s.handIn k m) j x = owners s j x := rfl
  have := hinv.holds j x
  change s.holds j x = _ + adjust s.released k m (s.released k m - 1) j x
  rw [adjust_apply]
  by_cases hj : j = k
  · subst hj
    by_cases hx : m = x
    · subst hx
      simp [ownsHold] at howners ⊢
      omega
    · simp [ownsHold, hx] at howners ⊢
      omega
  · simp [hj] at howners ⊢
    omega

theorem release (hinv : Inv s) (hl : s.lock k o = some l) :
    Inv ((s.handOut k l.release.2 l.owns).setLock k o (some l.release.1)) := by
  obtain ⟨hlock, hholds, hreleased⟩ := handOut_spec s k l
  refine ⟨fun j x => ?_, sound_setLock (by rw [hlock]; exact hinv.sound) sound_free⟩
  have howners := owners_setLock (s := s.handOut k l.release.2 l.owns) (k := k) (o := o)
    (some l.release.1) j x
  rw [hlock, hl, show ownsHold x (some l.release.1) = false from ownsHold_free ..] at howners
  have hsame : owners (s.handOut k l.release.2 l.owns) j x = owners s j x := by rw [owners, hlock, owners]
  have := hinv.holds j x
  change (s.handOut k l.release.2 l.owns).holds j x =
    _ + (s.handOut k l.release.2 l.owns).released j x
  rw [hreleased, hholds]
  simp only [Bool.toNat_false] at howners
  split_ifs at howners ⊢ <;> omega

/-- One operation, by the wrappers that it works on. -/
theorem step (hinv : Inv s) {op : Op Obj Mx} (h : step admits k s op = some (s', c)) :
    Inv s' ∧ ∀ m, c = some (.unlock m) → ownsHold m (s.lock k op.this) = true := by
  have hquiet : ∀ {w : Option (Lock Mx)} m, (none : Option (Call Mx)) = some (.unlock m) →
      ownsHold m w = true := by
    intro w m hm
    cases hm
  cases op with
  | default o => exact hinv.construct (balanced_none fun _ => ownsHold_free ..) sound_free h
  | locked o m => exact hinv.construct (balanced_take fun _ => rfl) sound_some h
  | deferLock o m => exact hinv.construct (balanced_none fun _ => ownsHold_free ..) sound_some h
  | tryToLock o m ok => exact hinv.construct (Lock.tryToLock_balanced fun _ => rfl) sound_some h
  | lock o => exact hinv.member (fun _ => Lock.lock_balanced) (fun _ => Lock.lock_sound) h
  | tryLock o ok => exact hinv.member (fun _ => Lock.tryLock_balanced) (fun _ => Lock.tryLock_sound) h
  | unlock o => exact hinv.member (fun _ => Lock.unlock_balanced) (fun _ => Lock.unlock_sound) h
  | adoptLock o m =>
      simp only [Locks.step, State.construct, Option.ite_none_right_eq_some] at h
      obtain ⟨hpos, h⟩ := h
      split at h
      · rename_i hnone
        cases h
        exact ⟨hinv.adopt hnone hpos, hquiet⟩
      · cases h
  | moveConstruct o other =>
      simp only [Locks.step] at h
      split at h
      · rename_i l hnone hl
        cases h
        have hne : o ≠ other := by
          rintro rfl
          rw [hnone] at hl
          cases hl
        exact ⟨hinv.transfer (fun x => by rw [hnone]; rfl) hl hne, hquiet⟩
      · cases h
  | destroy o =>
      simp only [Locks.step] at h
      split at h
      · rename_i l hl
        simp only [Option.map_eq_some_iff, Prod.mk.injEq] at h
        obtain ⟨s₁, hcall, rfl, rfl⟩ := h
        exact hinv.exchange hl (Lock.destroy_balanced fun _ => rfl) sound_none hcall
      · cases h
  | moveAssign o other =>
      simp only [Locks.step] at h
      split at h
      · rename_i l l' hl hl'
        split at h
        · cases h
          exact ⟨hinv, hquiet⟩
        · rename_i hne
          simp only [Option.map_eq_some_iff, Prod.mk.injEq] at h
          obtain ⟨s₁, hcall, rfl, rfl⟩ := h
          -- the target gives up its hold and is empty when the contents of the other one move in
          obtain ⟨hfirst, hown⟩ := hinv.exchange hl (Lock.destroy_balanced fun _ => ownsHold_free _ none)
            sound_free hcall
          have hlock := (call_spec hcall fun m hm => hinv.holds_pos (hown m hm)).1
          have hother : (s₁.setLock k o (some .default)).lock k other = some l' := by
            rw [setLock_of_ne (Ne.symm hne), hlock, hl']
          have hmove := hfirst.transfer (fun x => by rw [setLock_self]; exact ownsHold_free ..) hother hne
          rw [setLock_setLock] at hmove
          exact ⟨hmove, hown⟩
      · cases h
  | release o =>
      simp only [Locks.step] at h
      split at h
      · rename_i l hl
        cases h
        exact ⟨hinv.release hl, hquiet⟩
      · cases h
  | swap o other =>
      simp only [Locks.step] at h
      split at h
      · rename_i l l' hl hl'
        cases h
        exact ⟨hinv.swap hl hl', hquiet⟩
      · cases h

end Inv

theorem inv_of_reachable (h : (machine Obj Mx admits).Reachable anyStep s) : Inv s := by
  refine h.induct (I := Inv) ⟨fun k m => ?_, fun k o => sound_none⟩ fun {s a s'} _ hinv hnext _ => ?_
  · change 0 = count (ownsHold m) (fun _ : Obj => none) + 0
    rw [count_eq_zero.mpr fun _ => rfl]
  · change (step admits a.1 s a.2).map Prod.fst = some s' at hnext
    obtain ⟨⟨s₁, c⟩, hstep, rfl⟩ := Option.map_eq_some_iff.mp hnext
    exact (hinv.step hstep).1

/-- Ownership is tracked exactly: the holds of a mutex are those of the live wrappers that own one and
those that the client has taken out of wrappers; a wrapper that owns a hold has a mutex; and an operation
gives up a hold only if its wrapper owns it, and then the mutex has one. -/
theorem ownership_tracked (h : (machine Obj Mx admits).Reachable anyStep s) :
    (∀ k m, s.holds k m = owners s k m + s.released k m) ∧
    (∀ k o l, s.lock k o = some l → l.owns = true → l.mutex ≠ none) ∧
    ∀ k op s' m, step admits k s op = some (s', some (.unlock m)) →
      s.lock k op.this = some ⟨some m, true⟩ ∧ 0 < s.holds k m := by
  have hinv := inv_of_reachable h
  refine ⟨hinv.holds, hinv.sound, fun k op s' m hstep => ?_⟩
  have hown := (hinv.step hstep).2 m rfl
  refine ⟨?_, hinv.holds_pos hown⟩
  obtain ⟨⟨mutex, owns⟩, hl, hholds⟩ := (Option.any_eq_true ..).mp hown
  rw [Lock.holds, Bool.and_eq_true, decide_eq_true_eq] at hholds
  obtain ⟨rfl, rfl⟩ := hholds
  exact hl

/-- A hold moves from `a` to `b`, is taken out of `b`, adopted by `a` after its destruction, and moves onto
`c`, which gives up its own hold of another mutex; meanwhile `b` owns a hold of a third one. -/
def chain : List (Kind × Op Runner ℕ) :=
  [(.uniqueLock, .locked .a 0), (.uniqueLock, .moveConstruct .b .a), (.uniqueLock, .release .b),
    (.uniqueLock, .destroy .a), (.uniqueLock, .adoptLock .a 0), (.uniqueLock, .tryToLock .c 1 true),
    (.uniqueLock, .moveAssign .c .a), (.uniqueLock, .destroy .b), (.uniqueLock, .locked .b 2),
    (.uniqueLock, .swap .b .c), (.uniqueLock, .release .c)]

theorem ownership_tracked_chain : ∃ s : State Runner ℕ,
    s.holds .uniqueLock 0 = 1 ∧ s.holds .uniqueLock 1 = 0 ∧ s.released .uniqueLock 2 = 1 ∧
    ∀ k m, s.holds k m = owners s k m + s.released k m :=
  let M := machine Runner ℕ exclusion
  ⟨(M.run anyStep M.init chain).get (by decide), by decide, by decide, by decide,
    (ownership_tracked (.of_run chain _)).1⟩

end Psync.Locks
