import Psync.MicrolockModel
import Psync.ParkingState

/-! Mutual exclusion and wakeups of the one-byte locks. A thread that parks has seen the lock taken
under the bucket lock, so the owner's store comes later, and so does its `unpark_one`. A free lock
with a linked thread is therefore attended: an `unpark_one` on it is on its way, or a thread in `lock`
is going to try again. If that thread sleeps, its flag is set, and an `unpark_one` has still to wake it. -/

namespace Psync.MicroLock

open Concurrency ParkingLot

set_option linter.unusedSectionVars false

variable {Tid : Type*}

/-! ### What a step can do -/

/-- The thread is not in the parking lot. -/
def Pc.plain : Pc Tid → Bool
  | .park .. | .unpark .. => false
  | _ => true

/-- The lock that the thread owns at this position. -/
def Pc.owns : Pc Tid → Option U64
  | .unlockStore this | .tried this true => some this
  | _ => none

def Pc.role : Pc Tid → Role Tid
  | .park this pc => pc.role this
  | .unpark this pc => pc.role this
  | _ => .out

theorem afterSpin_plain (Tid : Type*) (this : U64) (i : ℕ) : ((afterSpin this i : Pc Tid).plain = true ∨
    ∃ this', (afterSpin this i : Pc Tid) = .park this' .lockBucket) ∧
      (afterSpin this i : Pc Tid).owns = none := by
  rw [afterSpin]
  split_ifs
  · exact ⟨Or.inl rfl, rfl⟩
  · exact ⟨Or.inr ⟨this, rfl⟩, rfl⟩

variable [DecidableEq Tid]

/-- The ways in which one step changes the memory and the thread that takes it. -/
inductive Effect (t : Tid) (m : Mem Tid) (th : Thread Tid) : Mem Tid → Thread Tid → Prop
  | stay {pc : Pc Tid} (before : th.pc.plain = true)
      (after : pc.plain = true ∨ ∃ this, pc = .park this .lockBucket)
      (own : ∀ this, pc.owns = some this → th.held this = true)
      (seeks : ∀ this flag, m.state this = unlocked → th.pc.seeks flag = some this →
        pc.seeks flag = some this) :
      Effect t m th m (th.at pc)
  | acquire {this : U64} {pc : Pc Tid} (free : m.state this = unlocked) (before : th.pc.plain = true)
      (after : pc = .idle ∨ pc = .tried this true)
      (only : ∀ a flag, th.pc.seeks flag = some a → a = this) :
      Effect t m th (m.setState this locked) ⟨Function.update th.held this true, pc⟩
  | release {this : U64} (hpc : th.pc = .unlockStore this) :
      Effect t m th (m.setState this unlocked)
        ⟨Function.update th.held this false, .unpark this .lockBucket⟩
  | park {this : U64} {pc : ParkPc Tid Unit} {lot : Lot Tid} {flow : ParkingLot.Flow (ParkPc Tid Unit) Bool}
      (hpc : th.pc = .park this pc)
      (h : Parks () (validate this) this t m.state m.lot pc m.state lot flow) :
      Effect t m th ⟨m.state, lot⟩ (th.at (afterPark this flow))
  | unpark {this : U64} {pc : UnparkPc Tid} {lot : Lot Tid} {flow : ParkingLot.Flow (UnparkPc Tid) UnparkResult}
      (hpc : th.pc = .unpark this pc)
      (h : Unparks (fun _ state => state) this m.state m.lot pc m.state lot flow) :
      Effect t m th ⟨m.state, lot⟩ (th.at (afterUnpark this flow))

variable {t : Tid} {this : U64} {m m' : Mem Tid} {th th' : Thread Tid} {lot : Lot Tid}

theorem effect_of_cas {won lost : Pc Tid} (before : th.pc.plain = true)
    (hwon : won = .idle ∨ won = .tried this true)
    (after : lost.plain = true ∨ ∃ this, lost = .park this .lockBucket)
    (own : lost.owns = none)
    (seeks : ∀ this' flag, th.pc.seeks flag = some this' → this' = this)
    (h : some (cas this m th won lost) = some (m', th')) : Effect t m th m' th' := by
  rw [cas] at h
  split_ifs at h with hfree <;> cases h
  · exact .acquire hfree before hwon seeks
  · refine .stay before after (fun this' hpc => ?_) fun this' flag hfree' hseeks => ?_
    · rw [own] at hpc
      cases hpc
    · rw [seeks this' flag hseeks] at hfree'
      exact absurd hfree' hfree

/-- Neither callback writes the byte. -/
theorem park_state {pc : ParkPc Tid Unit} {r : (U64 → U8) × Lot Tid × ParkingLot.Flow (ParkPc Tid Unit) Bool}
    (h : park () (validate this) this t m.state m.lot pc = some r) : r.1 = m.state := by
  cases pc with
  | lockBucket =>
      simp only [ParkingLot.park] at h
      split at h <;> cases h <;> rfl
  | validate v =>
      simp only [ParkingLot.park, validate] at h
      split at h <;> rename_i heq <;> cases h <;> exact (congrArg Prod.fst heq).symm
  | wait node => cases h
  | _ =>
      cases h
      rfl

theorem unpark_state {pc : UnparkPc Tid} {state : U64 → U8}
    {r : (U64 → U8) × Lot Tid × ParkingLot.Flow (UnparkPc Tid) UnparkResult}
    (h : unparkOne (fun _ state => state) this state lot pc = some r) : r.1 = state := by
  cases pc with
  | lockBucket =>
      simp only [unparkOne] at h
      split at h <;> cases h <;> rfl
  | callback target result => cases target <;> cases h <;> rfl
  | unlockBucket target result => cases target <;> cases h <;> rfl
  | wake target result => cases h
  | _ =>
      cases h
      rfl

theorem effect_of_run (h : run t m th = some (m', th')) : Effect t m th m' th' := by
  obtain ⟨held, pc⟩ := th
  have hseeks : ∀ {a b : U64}, some a = some b → b = a := fun h => (Option.some.inj h).symm
  cases pc with
  | idle => cases h
  | lockCas this => exact effect_of_cas rfl (Or.inl rfl) (Or.inl rfl) rfl (fun _ _ => hseeks) h
  | tryCas this => exact effect_of_cas rfl (Or.inr rfl) (Or.inl rfl) rfl nofun h
  | tried this result =>
      cases h
      exact .stay rfl (Or.inl rfl) nofun nofun
  | spinCas this i =>
      have hspin := afterSpin_plain Tid this i
      exact effect_of_cas rfl (Or.inl rfl) hspin.1 hspin.2 (fun _ _ => hseeks) h
  | retryCas this => exact effect_of_cas rfl (Or.inl rfl) (Or.inl rfl) rfl (fun _ _ => hseeks) h
  | unlockStore this =>
      cases h
      exact .release rfl
  | park this pc =>
      simp only [run, Option.map_eq_some_iff] at h
      obtain ⟨⟨state, lot, flow⟩, hpark, heq⟩ := h
      obtain rfl : state = m.state := park_state hpark
      cases heq
      exact .park rfl (.step hpark)
  | unpark this pc =>
      simp only [run, Option.map_eq_some_iff] at h
      obtain ⟨⟨state, lot, flow⟩, hunpark, heq⟩ := h
      obtain rfl : state = m.state := unpark_state hunpark
      cases heq
      exact .unpark rfl (.step hunpark)

theorem effect_of_step {l : Label} (h : step t l m th = some (m', th')) : Effect t m th m' th' := by
  have begin_call : ∀ {pc : Pc Tid}, pc.plain = true → pc.owns = none →
      (if th.pc = .idle then some (m, th.at pc) else none) = some (m', th') →
      Effect t m th m' th' := by
    intro pc hplain howns h
    split_ifs at h with hidle
    cases h
    refine .stay (by rw [hidle]; rfl) (Or.inl hplain) (fun this hpc => ?_) fun this flag _ hseeks => ?_
    · rw [howns] at hpc
      cases hpc
    · rw [hidle] at hseeks
      cases hseeks
  cases l with
  | lock this => exact begin_call rfl rfl h
  | tryLock this => exact begin_call rfl rfl h
  | unlock this =>
      simp only [step] at h
      split_ifs at h with hidle
      cases h
      refine .stay (by rw [hidle.1]; rfl) (Or.inl rfl) (fun this' hpc => ?_) ?_
      · cases hpc
        exact hidle.2
      · intro this flag _ hseeks
        rw [hidle.1] at hseeks
        cases hseeks
  | run => exact effect_of_run h

theorem wait_eq_some {w : WaitCall (Mem Tid) (Thread Tid) Tid} (h : wait th = some w) :
    ∃ this, th.pc = .park this (.wait w.addr) ∧ w.after = th.at (.park this .load) ∧
      ∀ m : Mem Tid, w.holds m = true → m.lot.wakeFlag w.addr = 0 := by
  obtain ⟨held, pc⟩ := th
  cases pc with
  | park this pc =>
      cases pc with
      | wait node =>
          cases h
          exact ⟨this, rfl, rfl, fun m hm => beq_iff_eq.mp hm⟩
      | _ => cases h
  | _ => cases h

theorem wake_eq_some {w : WakeCall (Thread Tid) Tid} (h : wake th = some w) :
    ∃ this result, th.pc = .unpark this (.wake w.addr result) ∧ w.count = some 1 ∧ w.after = th.at .idle := by
  obtain ⟨held, pc⟩ := th
  cases pc with
  | unpark this pc =>
      cases pc with
      | wake target result =>
          cases h
          exact ⟨this, result, rfl, rfl, rfl⟩
      | _ => cases h
  | _ => cases h

/-- A return from the kernel in `park`. -/
theorem effect_of_wait {w : WaitCall (Mem Tid) (Thread Tid) Tid} (h : wait th = some w) :
    Effect t m th m w.after := by
  obtain ⟨this, hpc, hafter, -⟩ := wait_eq_some h
  rw [hafter]
  exact .park hpc (.ret _)

/-- The wake of `unpark_one`. -/
theorem effect_of_wake {w : WakeCall (Thread Tid) Tid} (h : wake th = some w) : Effect t m th m w.after := by
  obtain ⟨this, result, hpc, -, hafter⟩ := wake_eq_some h
  rw [hafter]
  exact .unpark hpc (.wake _ result)

theorem role_plain {pc : Pc Tid} (h : pc.plain = true) : pc.role = .out := by
  cases pc <;> first | rfl | cases h

theorem afterPark_role (flow : ParkingLot.Flow (ParkPc Tid Unit) Bool) :
    (afterPark this flow : Pc Tid).role = flow.parkRole this := by
  cases flow <;> rfl

theorem afterUnpark_role (flow : ParkingLot.Flow (UnparkPc Tid) UnparkResult) :
    (afterUnpark this flow).role = flow.unparkRole this := by
  cases flow <;> rfl

/-- Every step is a step of the parking lot. -/
theorem Effect.move (h : Effect t m th m' th') : Move t m.lot th.pc.role m'.lot th'.pc.role := by
  cases h with
  | @stay pc before after own seeks =>
      have hpc : pc.role = .out := by
        rcases after with after | ⟨this, rfl⟩
        · exact role_plain after
        · rfl
      rw [role_plain before, Thread.at, hpc]
      exact .keep _
  | acquire free before after only =>
      rw [role_plain before]
      rcases after with rfl | rfl <;> exact .keep _
  | release hpc =>
      rw [hpc]
      exact .keep _
  | park hpc h =>
      rw [hpc, Thread.at, afterPark_role]
      exact h.move
  | unpark hpc h =>
      rw [hpc, Thread.at, afterUnpark_role]
      exact h.move

/-! ### Mutual exclusion -/

@[simp] theorem setState_self (v : U8) : (m.setState this v).state this = v := Function.update_self ..

theorem setState_of_ne {a : U64} (v : U8) (hne : a ≠ this) :
    (m.setState this v).state a = m.state a := Function.update_of_ne hne ..

theorem Effect.guards {f : Tid → Thread Tid} (h : Effect t m (f t) m' th')
    (hown : ∀ a, (f t).pc.owns = some a → (f t).held a = true) (a : U64)
    (hg : Guards (m.state a ≠ unlocked) (fun th => th.held a = true) f) :
    Guards (m'.state a ≠ unlocked) (fun th => th.held a = true) (Function.update f t th') := by
  cases h with
  | stay before after own seeks => exact hg.same Iff.rfl Iff.rfl
  | @acquire this pc free before =>
      by_cases ha : a = this
      · subst ha
        refine hg.enter (fun hn => hn free) ?_ (Function.update_self ..)
        rw [setState_self]
        decide
      · refine hg.same ?_ ?_
        · rw [setState_of_ne _ ha]
        · simp only [Function.update_of_ne ha]
  | @release this hpc =>
      by_cases ha : a = this
      · subst ha
        refine hg.leave (hown a (by rw [hpc]; rfl)) ?_ ?_
        · rw [setState_self]
          exact fun hn => hn rfl
        · simp only [Function.update_self]
          exact Bool.false_ne_true
      · refine hg.same ?_ ?_
        · rw [setState_of_ne _ ha]
        · simp only [Function.update_of_ne ha]
  | park hpc h => exact hg.same Iff.rfl Iff.rfl
  | unpark hpc h => exact hg.same Iff.rfl Iff.rfl

theorem Effect.owns (h : Effect t m th m' th') (hpc : th'.pc.owns = some this) : th'.held this = true := by
  cases h with
  | stay before after own seeks => exact own this hpc
  | acquire free before after only =>
      rcases after with rfl | rfl
      · cases hpc
      · cases hpc
        exact Function.update_self ..
  | release hold => cases hpc
  | @park a pc lot flow hold h => cases flow <;> cases hpc
  | @unpark a pc lot flow hold h => cases flow <;> cases hpc

structure Inv (s : State Tid) : Prop where
  owner : ∀ a, Guards (s.mem.state a ≠ unlocked) (fun th => th.held a = true) s.thread
  owns : ∀ t a, (s.thread t).pc.owns = some a → (s.thread t).held a = true
  lot : ParkingLot.Inv s.mem.lot fun t => (s.thread t).pc.role

variable {s : State Tid}

theorem Inv.init [Fintype Tid] : Inv (program Tid).machine.init where
  owner _ := ⟨iff_of_false (fun h => h rfl) nofun, nofun⟩
  owns _ _ h := nomatch h
  lot := ParkingLot.Inv.init

theorem Inv.move (h : Inv s) (heff : Effect t s.mem (s.thread t) m' th') :
    Inv (s.move t m' th') := by
  refine ⟨fun a => heff.guards (h.owns t) a (h.owner a), fun u a hu => ?_, ?_⟩
  · rw [Config.move_thread, Function.update_apply] at hu ⊢
    split_ifs at hu ⊢
    · exact heff.owns hu
    · exact h.owns u a hu
  · rw [roles_move (fun th : Thread Tid => th.pc.role) s t m' th']
    exact h.lot.move heff.move

theorem Inv.wake (h : Inv s) {asleep : Tid → Option Tid} : Inv { s with asleep := asleep } :=
  ⟨h.owner, h.owns, h.lot⟩

theorem inv_of_reachable [Fintype Tid] (h : (program Tid).machine.Reachable anyStep s) : Inv s := by
  refine h.induct Inv.init fun _ ih hnext _ => ?_
  exact (program Tid).next_induct (fun _ h => h.wake) (fun h hwait => h.move (effect_of_wait hwait))
    (fun h hwake => h.move (effect_of_wake hwake)) (fun _ => rfl) ih hnext
    fun _ hstep => ih.move (effect_of_step hstep)

/-- A thread that has to wake another one goes on to the wake. -/
theorem waking_of_step {l : Label} {w : U64 × Tid} (h : step t l m th = some (m', th'))
    (hw : th.pc.role.waking = some w) : th'.pc.role.waking = some w := by
  obtain ⟨held, pc⟩ := th
  cases pc with
  | unpark this pc =>
      cases l with
      | run =>
          simp only [step, run, Option.map_eq_some_iff] at h
          obtain ⟨⟨state, lot, flow⟩, hunpark, heq⟩ := h
          cases heq
          rw [Thread.at, afterUnpark_role]
          exact waking_of_unparkOne hunpark hw
      | lock | tryLock => cases h
      | unlock this' =>
          have hbusy : ¬ ((Pc.unpark this pc : Pc Tid) = .idle ∧ held this' = true) := fun h => (by cases h.1)
          simp only [step, if_neg hbusy] at h
          cases h
  | park this pc => cases pc <;> cases hw
  | _ => cases hw

theorem Effect.wait {node : Tid} (h : Effect t m th m' th') (hpc : th'.pc = .park this (.wait node)) : node = t := by
  cases h with
  | @stay pc before after own seeks =>
      obtain rfl : pc = .park this (.wait node) := hpc
      rcases after with after | ⟨a, after⟩ <;> cases after
  | acquire free before after only => rcases after with rfl | rfl <;> cases hpc
  | release hold => cases hpc
  | @park a pc lot flow hold h =>
      cases flow with
      | ret b => cases hpc
      | «at» pc' =>
          cases hpc
          exact h.wait
  | @unpark a pc lot flow hold h => cases flow <;> cases hpc

/-- The threads are clients of the parking lot. -/
theorem client [Fintype Tid] : Client (program Tid) Mem.lot (fun th => th.pc.role) (Inv : State Tid → Prop) where
  start := rfl
  inv h := h.lot
  step := by
    intro s t l m th hinv hstep
    have heff := effect_of_step hstep
    refine ⟨heff.move, fun w => waking_of_step hstep, fun w hw => ?_⟩
    obtain ⟨this, hpc, -, -⟩ := wait_eq_some hw
    exact heff.wait hpc
  wait := by
    intro th w hw
    obtain ⟨this, hpc, hafter, hflag⟩ := wait_eq_some hw
    refine ⟨⟨this, by rw [hpc]; rfl⟩, by rw [hafter, hpc]; rfl, by rw [hafter]; rfl, hflag⟩
  wake := by
    intro th w hw
    obtain ⟨this, result, hpc, hcount, hafter⟩ := wake_eq_some hw
    exact ⟨⟨this, by rw [hpc]; rfl⟩, hcount, by rw [hafter]; rfl, by rw [hafter]; rfl⟩
  requeue _ := rfl

/-! ### Wakeups -/

/-- The thread is in `unpark_one` on this lock, before it has set the flag of the thread it wakes. -/
def Pc.wakes : Pc Tid → Option U64
  | .unpark this pc => if pc.notifies then some this else none
  | _ => none

theorem unpark_of_wakes {pc : Pc Tid} (h : pc.wakes = some this) :
    ∃ upc, pc = .unpark this upc ∧ upc.notifies = true := by
  cases pc with
  | unpark a pc =>
      simp only [Pc.wakes, Option.ite_none_right_eq_some, Option.some.injEq] at h
      obtain ⟨hpc, rfl⟩ := h
      exact ⟨pc, rfl, hpc⟩
  | _ => cases h

theorem seeks_park {pc : ParkPc Tid Unit} {flag : U32} {a : U64} :
    (Pc.park this pc : Pc Tid).seeks flag = some a ↔ pc.tries flag = true ∧ this = a := by
  simp only [Pc.seeks, Option.ite_none_right_eq_some, Option.some.injEq]

def Attends (s : State Tid) (this : U64) (t : Tid) : Prop :=
  (s.thread t).pc.seeks (s.mem.lot.wakeFlag t) = some this ∨ (s.thread t).pc.wakes = some this

/-- The node is linked, or its thread is about to link it. -/
def Waiting (s : State Tid) (this : U64) (t : Tid) : Prop :=
  s.mem.lot.Waits this t ∨ (s.thread t).pc = .park this .enqueue

/-- A free lock with a waiting thread is attended. -/
def Wakeup (s : State Tid) : Prop :=
  ∀ this, s.mem.state this = unlocked → (∃ t, Waiting s this t) → ∃ u, Attends s this u

theorem Effect.released (h : Effect t m th m' th') (htaken : m.state this ≠ unlocked)
    (hfree : m'.state this = unlocked) : th'.pc = .unpark this .lockBucket := by
  cases h with
  | stay before after own seeks => exact absurd hfree htaken
  | @acquire a pc free before after only =>
      by_cases ha : this = a
      · rw [ha] at htaken
        exact absurd free htaken
      · rw [setState_of_ne _ ha] at hfree
        exact absurd hfree htaken
  | @release a hpc =>
      by_cases ha : this = a
      · rw [ha]
      · rw [setState_of_ne _ ha] at hfree
        exact absurd hfree htaken
  | park hpc h => exact absurd hfree htaken
  | unpark hpc h => exact absurd hfree htaken

/-- A thread that is about to link its node has seen the lock taken. -/
theorem park_enqueue {state : U64 → U8} {word : U64 → U8} {pc : ParkPc Tid Unit} {lot lot' : Lot Tid}
    (h : Parks () (validate this) this t state lot pc word lot' (.at .enqueue)) : state this ≠ unlocked := by
  cases h with
  | step h =>
      cases pc with
      | lockBucket =>
          simp only [ParkingLot.park] at h
          split at h <;> cases h
      | validate v =>
          simp only [ParkingLot.park, validate] at h
          by_cases hlocked : state this = locked
          · rw [hlocked]
            decide
          · rw [decide_eq_false hlocked] at h
            cases h
      | load =>
          simp only [ParkingLot.park, Option.some.injEq, Prod.mk.injEq] at h
          obtain ⟨-, -, h⟩ := h
          split_ifs at h
          cases h
      | abort | enqueue | unlockBucket | wait => cases h

theorem Effect.enqueue (h : Effect t m th m' th') (hpc : th'.pc = .park this .enqueue) :
    m.state this ≠ unlocked := by
  cases h with
  | @stay pc before after own seeks =>
      obtain rfl : pc = .park this .enqueue := hpc
      rcases after with after | ⟨a, after⟩ <;> cases after
  | acquire free before after only => rcases after with rfl | rfl <;> cases hpc
  | release hold => cases hpc
  | @park a pc lot flow hold h =>
      cases flow with
      | ret b => cases hpc
      | «at» pc' =>
          cases hpc
          exact park_enqueue h
  | @unpark a pc lot flow hold h => cases flow <;> cases hpc

/-- Only `park` links a node. -/
theorem Effect.waits {u : Tid} (h : Effect t m th m' th') (hw : m'.lot.Waits this u) :
    m.lot.Waits this u ∨ u = t ∧ th.pc = .park this .enqueue := by
  cases h with
  | stay before after own seeks => exact Or.inl hw
  | acquire free before after only => exact Or.inl hw
  | release hpc => exact Or.inl hw
  | unpark hpc h => exact Or.inl (h.waits hw)
  | park hpc h =>
      refine (h.waits hw).imp_right ?_
      rintro ⟨rfl, rfl, rfl⟩
      exact ⟨rfl, hpc⟩

/-- What becomes of a thread that attends to a free lock when it takes a step. -/
theorem Effect.attends (h : Effect t m th m' th') (hfree : m.state this = unlocked)
    (hfree' : m'.state this = unlocked)
    (hatt : th.pc.seeks (m.lot.wakeFlag t) = some this ∨ th.pc.wakes = some this) :
    (th'.pc.seeks (m'.lot.wakeFlag t) = some this ∨ th'.pc.wakes = some this) ∨
      (th.pc = .unpark this .dequeue ∧ ∀ u, ¬ m'.lot.Waits this u) ∨
      ∃ target res, th.pc = .unpark this (.setFlag target res) ∧ m'.lot.wakeFlag target ≠ 0 := by
  have hplain : th.pc.plain = true → th.pc.wakes ≠ some this := by
    intro hplain hw
    obtain ⟨upc, hpc, -⟩ := unpark_of_wakes hw
    rw [hpc] at hplain
    cases hplain
  cases h with
  | stay before after own seeks =>
      rcases hatt with hatt | hatt
      · exact Or.inl (Or.inl (seeks _ _ hfree hatt))
      · exact absurd hatt (hplain before)
  | acquire free before after only =>
      rcases hatt with hatt | hatt
      · rw [only _ _ hatt, setState_self] at hfree'
        exact absurd hfree' (by decide)
      · exact absurd hatt (hplain before)
  | release hpc =>
      rw [hpc] at hatt
      rcases hatt with hatt | hatt <;> cases hatt
  | @park a pc lot flow hpc h =>
      rw [hpc, seeks_park] at hatt
      rcases hatt with ⟨htries, rfl⟩ | hatt
      · rcases h.tries htries with hon | rfl
        · refine Or.inl (Or.inl ?_)
          cases flow with
          | ret b => rfl
          | «at» pc' => exact seeks_park.mpr ⟨hon pc' rfl, rfl⟩
        · exact absurd hfree (park_enqueue h)
      · cases hatt
  | @unpark a pc lot flow hpc h =>
      rcases hatt with hatt | hatt
      · rw [hpc] at hatt
        cases hatt
      · obtain ⟨upc, heq, hnotifies⟩ := unpark_of_wakes hatt
        cases hpc.symm.trans heq
        rcases h.notifies hnotifies with ⟨pc', rfl, hpc'⟩ | ⟨rfl, hnone⟩ | ⟨target, res, rfl, hflag⟩
        · exact Or.inl (Or.inr (if_pos hpc'))
        · exact Or.inr (Or.inl ⟨hpc, hnone⟩)
        · exact Or.inr (Or.inr ⟨target, res, hpc, hflag⟩)

theorem seeks_mono {pc : Pc Tid} {flag flag' : U32} (hflag : flag ≠ 0 → flag' ≠ 0)
    (h : pc.seeks flag = some this) : pc.seeks flag' = some this := by
  cases pc with
  | park a pc =>
      rw [seeks_park] at h ⊢
      exact ⟨tries_mono hflag h.1, h.2⟩
  | _ => exact h

/-- A thread whose node has been flagged seeks the lock. -/
theorem seeks_of_queued {pc : Pc Tid} {flag : U32} (hq : pc.role.queued = some this)
    (hflag : flag ≠ 0) : pc.seeks flag = some this := by
  cases pc with
  | park a pc =>
      refine seeks_park.mpr ⟨tries_of_queued hq hflag, ?_⟩
      cases pc with
      | unlockBucket | load | wait => exact Option.some.inj hq
      | _ => cases hq
  | unpark a pc => cases pc <;> cases hq
  | _ => cases hq

theorem Wakeup.move (h : Wakeup s) (hinv : Inv s) (heff : Effect t s.mem (s.thread t) m' th') :
    Wakeup (s.move t m' th') := by
  intro this hfree' ⟨x, hx⟩
  have hself : (s.move t m' th').thread t = th' := by rw [Config.move_thread, Function.update_self]
  have hother : ∀ u, u ≠ t → (s.move t m' th').thread u = s.thread u := fun u hne => by
    rw [Config.move_thread, Function.update_of_ne hne]
  by_cases hfree : s.mem.state this = unlocked
  · have hne : th'.pc ≠ .park this .enqueue := fun hpc => heff.enqueue hpc hfree
    have hbefore : Waiting s this x := by
      rcases hx with hw | hpc
      · exact (heff.waits hw).imp_right fun hxt => by rw [hxt.1]; exact hxt.2
      · by_cases hxt : x = t
        · rw [hxt, hself] at hpc
          exact absurd hpc hne
        · rw [hother x hxt] at hpc
          exact Or.inr hpc
    obtain ⟨u, hu⟩ := h this hfree ⟨x, hbefore⟩
    by_cases hut : u = t
    · subst hut
      rcases heff.attends hfree hfree' hu with hatt | ⟨hpc, hnone⟩ | ⟨target, res, hpc, hflag⟩
      · exact ⟨u, by rwa [Attends, hself]⟩
      · -- `unpark_one` has found nobody, and nobody can be linking under the bucket lock
        rcases hx with hw | hlink
        · exact absurd hw (hnone x)
        · have hxu : x ≠ u := by
            rintro rfl
            rw [hself] at hlink
            exact hne hlink
          rw [hother x hxu] at hlink
          have hlinking : (s.thread x).pc.role.inside = some (hashAddress this) := by
            rw [hlink]
            rfl
          have hdequeuing : (s.thread u).pc.role.inside = some (hashAddress this) := by
            rw [hpc]
            rfl
          exact absurd ((hinv.lot.guard (hashAddress this)).unique _ _ hlinking hdequeuing) hxu
      · obtain ⟨-, hq, -, -⟩ := hinv.lot.unlinked u this target (by rw [hpc]; rfl)
        have htu : target ≠ u := by
          rintro rfl
          rw [hpc] at hq
          cases hq
        refine ⟨target, Or.inl ?_⟩
        rw [hother target htu]
        exact seeks_of_queued hq hflag
    · refine ⟨u, ?_⟩
      rw [Attends, hother u hut]
      exact hu.imp_left fun hs => seeks_mono (heff.move.flag hut) hs
  · -- the step has released the lock, and enters `unpark_one`
    refine ⟨t, Or.inr ?_⟩
    rw [hself, heff.released hfree hfree']
    rfl

theorem wakeup_of_reachable [Fintype Tid] (h : (program Tid).machine.Reachable anyStep s) :
    Wakeup s := by
  refine (h.induct (I := fun s => Inv s ∧ Wakeup s) ⟨.init, ?_⟩ fun _ ih hnext _ => ?_).2
  · rintro this - ⟨t, ht | ht⟩ <;> cases ht
  · have hmove : ∀ {s : State Tid} {t m th}, Inv s ∧ Wakeup s → Effect t s.mem (s.thread t) m th →
        Inv (s.move t m th) ∧ Wakeup (s.move t m th) :=
      fun h heff => ⟨h.1.move heff, h.2.move h.1 heff⟩
    exact (program Tid).next_induct (fun _ h => ⟨h.1.wake, h.2⟩) (fun h hwait => hmove h (effect_of_wait hwait))
      (fun h hwake => hmove h (effect_of_wake hwake)) (fun _ => rfl) ih hnext
      fun _ hstep => hmove ih (effect_of_step hstep)

/-- A thread that has to flag or to wake another one is in `unpark_one` on the lock of that thread. -/
theorem unpark_of_role {pc : Pc Tid} {w : U64 × Tid}
    (h : pc.role.target = some w ∨ pc.role.waking = some w) : ∃ upc, pc = .unpark w.1 upc := by
  cases pc with
  | unpark a pc =>
      refine ⟨pc, congrArg (Pc.unpark · pc) ?_⟩
      cases pc with
      | callback target res =>
          rcases h with h | h
          · obtain ⟨n, -, rfl⟩ := Option.map_eq_some_iff.mp h
            rfl
          · cases h
      | unlockBucket target res =>
          rcases h with h | h
          · cases h
          · obtain ⟨n, -, rfl⟩ := Option.map_eq_some_iff.mp h
            rfl
      | setFlag target res =>
          rcases h with h | h
          · cases h
            rfl
          · cases h
      | wake target res =>
          rcases h with h | h
          · cases h
          · cases h
            rfl
      | lockBucket | dequeue => rcases h with h | h <;> cases h
  | park a pc => cases pc <;> rcases h with h | h <;> cases h
  | _ => rcases h with h | h <;> cases h

/-- A thread that sleeps for a lock is linked, or an `unpark_one` on the lock is about to flag it or to wake
it. -/
theorem asleep_attended (hinv : Inv s)
    (hsleeps : Sleeps s.mem.lot (fun t => (s.thread t).pc.role) s.asleep) (ht : Asleep s this t) :
    s.mem.lot.Waits this t ∨ ∃ u pc, (s.thread u).pc = .unpark this pc := by
  obtain ⟨hsleep, pc, hpc⟩ := ht
  obtain ⟨key, hrole⟩ := hsleeps.parked t hsleep
  have hq : (s.thread t).pc.role.queued = some this := by
    have hsome : (s.thread t).pc.role.queued = some key := by rw [hrole]
    rw [hpc] at hsome ⊢
    cases pc with
    | unlockBucket | load | wait => rfl
    | _ => cases hsome
  by_cases hflag : s.mem.lot.wakeFlag t = 0
  · refine (hinv.lot.parked this t hq hflag).imp_right ?_
    rintro ⟨u, hu⟩
    exact ⟨u, unpark_of_role (Or.inl hu)⟩
  · obtain ⟨u, hu⟩ := hsleeps.woken t this hsleep hq hflag
    exact Or.inr ⟨u, unpark_of_role (Or.inr hu)⟩

/-- A thread that sleeps for a lock though its flag is set. -/
theorem seeks_asleep {pc : Pc Tid} {flag : U32} {key : U64} (hrole : pc.role = { queued := some key })
    (hseeks : pc.seeks flag = some this) : pc.role.queued = some this ∧ flag ≠ 0 := by
  cases pc with
  | park a pc =>
      obtain ⟨htries, rfl⟩ := seeks_park.mp hseeks
      cases pc with
      | load | wait => exact ⟨rfl, of_decide_eq_true htries⟩
      | _ => cases hrole
  | unpark a pc => cases hseeks
  | _ => cases hrole

/-- A thread owns a lock alone. While a lock is free and a thread is queued or asleep for it, some
thread is in `unpark_one` on the lock, or some thread is awake in `lock` on it and going to try again. -/
theorem microlock_no_lost_wakeup [Fintype Tid] (h : (program Tid).machine.Reachable anyStep s)
    (this : U64) :
    (∀ t u, (s.thread t).held this = true → (s.thread u).held this = true → t = u) ∧
      (∀ t, (s.thread t).pc = .tried this true → (s.thread t).held this = true) ∧
      (s.mem.state this = unlocked → (∃ t, s.mem.lot.Waits this t ∨ Asleep s this t) →
        (∃ u pc, (s.thread u).pc = .unpark this pc) ∨
          ∃ u, s.asleep u = none ∧ (s.thread u).pc.seeks (s.mem.lot.wakeFlag u) = some this) := by
  have hinv := inv_of_reachable h
  have hsleeps := (client.sleeps_of_reachable inv_of_reachable h).2
  refine ⟨(hinv.owner this).unique, fun t hpc => hinv.owns t this (by rw [hpc]; rfl), fun hfree ⟨t, ht⟩ => ?_⟩
  have hlinked : s.mem.lot.Waits this t → (∃ u pc, (s.thread u).pc = .unpark this pc) ∨
      ∃ u, s.asleep u = none ∧ (s.thread u).pc.seeks (s.mem.lot.wakeFlag u) = some this := by
    intro hw
    obtain ⟨u, hu | hu⟩ := wakeup_of_reachable h this hfree ⟨t, Or.inl hw⟩
    · by_cases hsleep : s.asleep u = none
      · exact Or.inr ⟨u, hsleep, hu⟩
      · -- it sleeps though its flag is set: its `unpark_one` has not ended
        obtain ⟨key, hrole⟩ := hsleeps.parked u hsleep
        obtain ⟨hq, hflag⟩ := seeks_asleep hrole hu
        obtain ⟨v, hv⟩ := hsleeps.woken u this hsleep hq hflag
        exact Or.inl ⟨v, unpark_of_role (Or.inr hv)⟩
    · obtain ⟨upc, hpc, -⟩ := unpark_of_wakes hu
      exact Or.inl ⟨u, upc, hpc⟩
  rcases ht with hw | hsleep
  · exact hlinked hw
  · exact (asleep_attended hinv hsleeps hsleep).elim hlinked Or.inl

/-- Two locks whose addresses share a bucket. Thread `b` falls asleep for the first, which `a` then frees, and
`a` sets the flag of `b`; `c` owns the second. -/
def sharedBucketRun : List (Act Runner Label) :=
  [.step .c (.lock 0x1200), .step .c .run, .step .a (.lock 0x1000), .step .a .run,
    .step .b (.lock 0x1000)] ++ List.replicate (spinInitial + 6) (.step .b .run) ++
  [.sleep .b, .step .a (.unlock 0x1000)] ++ List.replicate 6 (.step .a .run)

theorem microlock_no_lost_wakeup_sharedBucket :
    hashAddress 0x1000 = hashAddress 0x1200 ∧
    ∃ s : State Runner, s.asleep .b = some .b ∧ s.mem.lot.wakeFlag .b = 1 ∧ Asleep s 0x1000 .b ∧
      ((∃ u pc, (s.thread u).pc = .unpark 0x1000 pc) ∨
        ∃ u, s.asleep u = none ∧ (s.thread u).pc.seeks (s.mem.lot.wakeFlag u) = some 0x1000) :=
  let M := (program Runner).machine
  let s := (M.run anyStep M.init sharedBucketRun).get (by decide)
  have h : M.Reachable anyStep s := .of_run _ _
  have hasleep : Asleep s 0x1000 .b := ⟨by decide, _, (by decide : (s.thread .b).pc = .park 0x1000 (.wait .b))⟩
  ⟨by decide, s, by decide, by decide, hasleep,
    (microlock_no_lost_wakeup h 0x1000).2.2 (by decide) ⟨.b, Or.inr hasleep⟩⟩

end Psync.MicroLock
