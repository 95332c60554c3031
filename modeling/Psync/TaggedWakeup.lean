import Psync.TaggedState

/-! Wakeups of the tagged lock. The unlock path without waiters never takes the bucket lock, so it
can run between the load and the `fetch_or` of the validation, and the thread that parks then is
woken by nobody. In the runs in which that `fetch_or` always finds the lock owned, a free lock with
a linked thread is always attended: an `unpark_one` is on its way, or a thread is awake in
`lock_contended`. -/

namespace Psync.TaggedLockPtr

open Concurrency ParkingLot

set_option linter.unusedSectionVars false

variable {Tid : Type*}

/-- The thread is in `lock_contended`, and will test the locked flag again unless it sleeps in the kernel. -/
def Pc.seeking (wakeFlag : U32) : Pc Tid → Bool
  | .spinLoad _ | .spinCas .. | .parkLoad | .parkCas _ => true
  | .park pc => pc.tries wakeFlag
  | _ => false

/-- The thread is in `unpark_one`, before it has set the flag of the thread it wakes. -/
def Pc.waking : Pc Tid → Bool
  | .unpark pc => pc.notifies
  | _ => false

def Attends (s : State Tid) (t : Tid) : Prop :=
  (s.thread t).pc.seeking (s.mem.lot.wakeFlag t) = true ∨ (s.thread t).pc.waking = true

/-- A free lock with a thread that is linked, or about to be, is attended. -/
def Wakeup (this : U64) (s : State Tid) : Prop :=
  ¬ locked s.mem.taggedPtr → (∃ t, s.mem.lot.Waits this t ∨ (s.thread t).pc = .park .enqueue) →
    ∃ u, Attends s u

theorem seeking_of_spinning {pc : Pc Tid} {flag : U32} (h : pc.spinning = true) :
    pc.seeking flag = true := by
  cases pc <;> first | rfl | cases h

theorem spinning_of_plain {pc : Pc Tid} {flag : U32} (h : pc.plain = true)
    (hatt : pc.seeking flag = true ∨ pc.waking = true) : pc.spinning = true := by
  cases pc with
  | park pc => cases h
  | unpark pc => cases h
  | _ => first | rfl | (rcases hatt with hatt | hatt <;> cases hatt)

variable [DecidableEq Tid] {this : U64} {t : Tid} {m m' : Mem Tid} {th th' : Thread Tid}

/-- What becomes of a thread that attends to a free lock when it takes a step. -/
theorem Effect.attends (h : Effect this t m th m' th') (hout : th.held = false)
    (hfree' : ¬ locked m'.taggedPtr) (hne : th'.pc ≠ .park .enqueue)
    (hatt : th.pc.seeking (m.lot.wakeFlag t) = true ∨ th.pc.waking = true) :
    (th'.pc.seeking (m'.lot.wakeFlag t) = true ∨ th'.pc.waking = true) ∨
      (th.pc = .unpark .dequeue ∧ ∀ u, ¬ m'.lot.Waits this u) ∨
      ∃ target res, th.pc = .unpark (.setFlag target res) ∧ m'.lot.wakeFlag target ≠ 0 := by
  cases h with
  | @plain word pc hlocked hwaiting before after spinning =>
      refine Or.inl (Or.inl ?_)
      rcases spinning (spinning_of_plain before hatt) with hspin | hpc
      · exact seeking_of_spinning hspin
      · rw [Thread.at, hpc]
        rfl
  | acquire free before after => exact absurd (locked_lock _) hfree'
  | release held before quiet =>
      rw [hout] at held
      cases held
  | releaseWaiters held before =>
      rw [hout] at held
      cases held
  | @park pc word lot flow hpc h =>
      rw [hpc] at hatt
      rcases hatt with hatt | hatt
      · rcases h.tries hatt with hon | rfl
        · refine Or.inl (Or.inl ?_)
          cases flow with
          | ret b => rfl
          | «at» pc' => exact hon pc' rfl
        · exact absurd rfl hne
      · cases hatt
  | unpark hpc h =>
      rw [hpc] at hatt
      rcases hatt with hatt | hatt
      · cases hatt
      · rcases h.notifies hatt with ⟨pc', rfl, hpc'⟩ | ⟨rfl, hnone⟩ | ⟨target, res, rfl, hflag⟩
        · exact Or.inl (Or.inr hpc')
        · exact Or.inr (Or.inl ⟨hpc, hnone⟩)
        · exact Or.inr (Or.inr ⟨target, res, hpc, hflag⟩)

variable {s : State Tid}

/-- A thread whose node has been flagged seeks the lock. -/
theorem seeking_of_queued {pc : Pc Tid} {key : U64} {flag : U32}
    (hq : (pc.role this).queued = some key) (hflag : flag ≠ 0) : pc.seeking flag = true := by
  cases pc with
  | park pc => exact tries_of_queued hq hflag
  | unpark pc => cases pc <;> cases hq
  | _ => cases hq

/-- A step that frees the lock enters `unpark_one`, or there are no waiters. -/
theorem Effect.released (h : Effect this t m th m' th') (hlocked : locked m.taggedPtr)
    (hfree' : ¬ locked m'.taggedPtr) :
    th'.pc = .unpark .lockBucket ∨ ¬ TaggedLockPtr.waiting m'.taggedPtr := by
  cases h with
  | plain hl hw before after spinning => exact absurd (hl.mpr hlocked) hfree'
  | acquire free before after => exact absurd hlocked free
  | release held before quiet => exact Or.inr fun hw => quiet ((waiting_unlock _).mp hw)
  | releaseWaiters held before => exact Or.inl rfl
  | park hpc h =>
      refine absurd ?_ hfree'
      rcases park_word h with rfl | ⟨-, rfl⟩
      · exact hlocked
      · exact (locked_set _).mpr hlocked
  | unpark hpc h =>
      refine absurd ?_ hfree'
      rcases unpark_word h with rfl | ⟨target, res, -, rfl⟩
      · exact hlocked
      · exact (locked_clearWaiters res _).mpr hlocked

theorem seeking_mono {pc : Pc Tid} {flag flag' : U32} (hflag : flag ≠ 0 → flag' ≠ 0)
    (h : pc.seeking flag = true) : pc.seeking flag' = true := by
  cases pc with
  | park pc => exact tries_mono hflag h
  | _ => exact h

theorem Wakeup.move (h : Wakeup this s) (hinv : Inv this s) (hinv' : Inv this (s.move t m' th'))
    (heff : Effect this t s.mem (s.thread t) m' th')
    (hval : (s.thread t).pc = .park (.validate .setWaiters) → locked s.mem.taggedPtr) :
    Wakeup this (s.move t m' th') := by
  intro hfree' ⟨x, hx⟩
  have hself : (s.move t m' th').thread t = th' := by rw [Config.move_thread, Function.update_self]
  have hother : ∀ u, u ≠ t → (s.move t m' th').thread u = s.thread u := fun u hne => by
    rw [Config.move_thread, Function.update_of_ne hne]
  by_cases hlocked : locked s.mem.taggedPtr
  · -- the step has released the lock, and the waiters bit made it enter `unpark_one`
    rcases heff.released hlocked hfree' with hpc | hquiet
    · refine ⟨t, Or.inr ?_⟩
      rw [hself, hpc]
      rfl
    · exact absurd (hinv'.announced x hx) hquiet
  · have hne : th'.pc ≠ .park .enqueue := fun hpc =>
      (heff.enqueue hpc).2.elim hlocked fun hv => hlocked (hval hv)
    have hbefore : s.mem.lot.Waits this x ∨ (s.thread x).pc = .park .enqueue := by
      rcases hx with hw | hpc
      · exact (heff.waits hw).imp_right fun hxt => by rw [hxt.1]; exact hxt.2
      · by_cases hxt : x = t
        · rw [hxt, hself] at hpc
          exact absurd hpc hne
        · rw [hother x hxt] at hpc
          exact Or.inr hpc
    obtain ⟨u, hu⟩ := h hlocked ⟨x, hbefore⟩
    by_cases hut : u = t
    · subst hut
      have hout : (s.thread u).held = false := by
        cases hheld : (s.thread u).held with
        | false => rfl
        | true => exact absurd (hinv.owner.iff.mpr ⟨u, hheld⟩) hlocked
      rcases heff.attends hout hfree' hne hu with hatt | ⟨hpc, hnone⟩ | ⟨target, res, hpc, hflag⟩
      · exact ⟨u, by rwa [Attends, hself]⟩
      · -- `unpark_one` has found nobody, and nobody can be linking under the bucket lock
        rcases hx with hw | hlink
        · exact absurd hw (hnone x)
        · have hxu : x ≠ u := by
            rintro rfl
            rw [hself] at hlink
            exact hne hlink
          rw [hother x hxu] at hlink
          exact absurd (hinv.inside (b := hashAddress this) (by rw [hlink]; rfl) (by rw [hpc]; rfl)) hxu
      · obtain ⟨-, hq, -, -⟩ := hinv.lot.unlinked u this target (by rw [hpc]; rfl)
        have htu : target ≠ u := by
          rintro rfl
          rw [hpc] at hq
          cases hq
        exact ⟨target, Or.inl (by rw [hother target htu]; exact seeking_of_queued hq hflag)⟩
    · refine ⟨u, ?_⟩
      rw [Attends, hother u hut]
      refine hu.imp_left fun hs => ?_
      exact seeking_mono (heff.move.flag hut) hs

theorem wakeup_of_reachable [Fintype Tid] {ptr : Pointer}
    (h : (program Tid this ptr).machine.Reachable validatesOwned s) : Wakeup this s := by
  have hmove : ∀ {s : State Tid} {t m th}, Inv this s ∧ Wakeup this s →
      Effect this t s.mem (s.thread t) m th ∧ th.Ok →
      ((s.thread t).pc = .park (.validate .setWaiters) → locked s.mem.taggedPtr) →
      Inv this (s.move t m th) ∧ Wakeup this (s.move t m th) := by
    rintro s t m th ⟨hinv, hwakeup⟩ ⟨heff, hok⟩ hval
    have hinv' := hinv.move hok heff
    exact ⟨hinv', hwakeup.move hinv hinv' heff hval⟩
  refine (h.induct (I := fun s => Inv this s ∧ Wakeup this s) ⟨.init, ?_⟩ fun _ ih hnext hok => ?_).2
  · rintro - ⟨t, ht | ht⟩ <;> cases ht
  · refine (program Tid this ptr).next_induct (I := fun s => Inv this s ∧ Wakeup this s)
      (fun _ h => ⟨h.1.wake, h.2⟩) (fun h hwait => ?_) (fun h hwake => ?_) (fun _ => rfl) ih hnext
      fun {t l m th} ha hstep => ?_
    · refine hmove h (effect_of_wait hwait) fun hpc => ?_
      rw [(wait_eq_some hwait).1] at hpc
      cases hpc
    · obtain ⟨result, hwakes, -⟩ := wake_eq_some hwake
      refine hmove h (effect_of_wake hwake) fun hpc => ?_
      rw [hwakes] at hpc
      cases hpc
    · refine hmove ih (effect_of_step (ih.1.ok _) hstep) fun hpc => ?_
      subst ha
      cases l with
      | run => exact hok hpc
      | _ =>
          simp only [program, step, hpc] at hstep
          cases hstep

/-! ### The kernel -/

theorem Effect.wait {node : Tid} (h : Effect this t m th m' th') (hpc : th'.pc = .park (.wait node)) :
    node = t := by
  cases h with
  | plain hlocked hwaiting before after spinning =>
      cases hpc
      rcases after with after | after <;> cases after
  | acquire free before after => rcases after with rfl | rfl <;> cases hpc
  | release held before quiet => cases hpc
  | releaseWaiters held before => cases hpc
  | @park pc word lot flow hpark h =>
      cases flow with
      | ret b => cases hpc
      | «at» pc' =>
          cases hpc
          exact h.wait
  | @unpark pc word lot flow hpark h => cases flow <;> cases hpc

/-- A thread that has to wake another one goes on to the wake. -/
theorem waking_of_step {l : Label} {w : U64 × Tid} (h : step this t l m th = some (m', th'))
    (hw : (th.pc.role this).waking = some w) : (th'.pc.role this).waking = some w := by
  obtain ⟨held, pc⟩ := th
  cases pc with
  | unpark pc =>
      cases l with
      | run =>
          simp only [step, run, Option.map_eq_some_iff] at h
          obtain ⟨⟨word, lot, flow⟩, hunpark, heq⟩ := h
          cases heq
          rw [Thread.at, afterUnpark_role]
          exact waking_of_unparkOne hunpark hw
      | _ =>
          simp only [step, reduceCtorEq, false_and, if_false] at h
  | park pc => cases pc <;> cases hw
  | _ => cases hw

/-- The threads are clients of the parking lot. -/
theorem client [Fintype Tid] {ptr : Pointer} :
    Client (program Tid this ptr) Mem.lot (fun th => th.pc.role this) (Inv this) where
  start := rfl
  inv h := h.lot
  step := by
    intro s t l m th hinv hstep
    have heff := (effect_of_step (hinv.ok t) hstep).1
    exact ⟨heff.move, fun w => waking_of_step hstep, fun w hw => heff.wait (wait_eq_some hw).1⟩
  wait := by
    intro th w hw
    obtain ⟨hpc, hafter, hflag⟩ := wait_eq_some hw
    exact ⟨⟨this, by rw [hpc]; rfl⟩, by rw [hafter, hpc]; rfl, by rw [hafter]; rfl, hflag⟩
  wake := by
    intro th w hw
    obtain ⟨result, hpc, hcount, hafter⟩ := wake_eq_some hw
    exact ⟨⟨this, by rw [hpc]; rfl⟩, hcount, by rw [hafter]; rfl, by rw [hafter]; rfl⟩
  requeue _ := rfl

theorem queued_of_parked {pc : Pc Tid} (h : pc.parked = true) : (pc.role this).queued = some this := by
  cases pc with
  | park pc =>
      cases pc with
      | load | wait => rfl
      | _ => cases h
  | _ => cases h

/-- A thread in `unpark_one` is inside a call, and not parked. -/
theorem busy_of_unpark {pc : UnparkPc Tid} (h : (s.thread t).pc = .unpark pc) :
    ¬ Parked s t ∧ (s.thread t).calling = true := by
  rw [Parked, Thread.calling, h]
  exact ⟨fun hp => Bool.false_ne_true hp.1, rfl⟩

theorem unpark_of_role {pc : Pc Tid} {w : U64 × Tid}
    (h : (pc.role this).target = some w ∨ (pc.role this).waking = some w) : ∃ upc, pc = .unpark upc := by
  cases pc with
  | unpark pc => exact ⟨pc, rfl⟩
  | park pc => cases pc <;> rcases h with h | h <;> cases h
  | _ => rcases h with h | h <;> cases h

/-- A thread that is parked is linked, or an `unpark_one` has still to set its flag, or to wake it. -/
theorem parked_attended (hinv : Inv this s)
    (hsleeps : Sleeps s.mem.lot (fun t => (s.thread t).pc.role this) s.asleep) (ht : Parked s t) :
    s.mem.lot.Waits this t ∨ ∃ u, ¬ Parked s u ∧ (s.thread u).calling = true := by
  have hq : ((s.thread t).pc.role this).queued = some this := queued_of_parked ht.1
  by_cases hflag : s.mem.lot.wakeFlag t = 0
  · refine (hinv.lot.parked this t hq hflag).imp_right ?_
    rintro ⟨u, hu⟩
    obtain ⟨upc, hpc⟩ := unpark_of_role (Or.inl hu)
    exact ⟨u, busy_of_unpark hpc⟩
  · obtain ⟨u, hu⟩ := hsleeps.woken t this (ht.2.resolve_left hflag) hq hflag
    obtain ⟨upc, hpc⟩ := unpark_of_role (Or.inr hu)
    exact Or.inr ⟨u, busy_of_unpark hpc⟩

/-- A thread that attends is busy, or it sleeps and another one is about to wake it. -/
theorem busy_of_attends (hsleeps : Sleeps s.mem.lot (fun t => (s.thread t).pc.role this) s.asleep)
    (h : Attends s t) : ∃ u, ¬ Parked s u ∧ (s.thread u).calling = true := by
  rcases h with hseek | hwake
  · by_cases hparked : Parked s t
    · have hflag : s.mem.lot.wakeFlag t ≠ 0 := by
        have hpc := hparked.1
        generalize (s.thread t).pc = pc at hseek hpc
        cases pc with
        | park pc =>
            cases pc with
            | load | wait => exact of_decide_eq_true hseek
            | _ => cases hpc
        | _ => cases hpc
      obtain ⟨u, hu⟩ := hsleeps.woken t this (hparked.2.resolve_left hflag) (queued_of_parked hparked.1) hflag
      obtain ⟨upc, hpc⟩ := unpark_of_role (Or.inr hu)
      exact ⟨u, busy_of_unpark hpc⟩
    · refine ⟨t, hparked, ?_⟩
      rw [Thread.calling]
      generalize (s.thread t).pc = pc at hseek
      cases pc <;> first | rfl | cases hseek
  · generalize hpc : (s.thread t).pc = pc at hwake
    cases pc with
    | unpark pc => exact ⟨t, busy_of_unpark hpc⟩
    | _ => cases hwake

/-- In a run in which the validation sets the waiters bit only while the lock is owned, no wakeup is
lost. -/
theorem tagged_no_lost_wakeup [Fintype Tid] {ptr : Pointer}
    (h : (program Tid this ptr).machine.Reachable validatesOwned s) : ¬ Stranded s := by
  rintro ⟨hfree, ⟨t, ht⟩, hout⟩
  have hsleeps := (client.sleeps_of_reachable inv_of_reachable h).2
  have hidle : ¬ ∃ u, ¬ Parked s u ∧ (s.thread u).calling = true := by
    rintro ⟨u, hparked, hcalling⟩
    rw [hout u hparked] at hcalling
    cases hcalling
  rcases parked_attended (inv_of_reachable h) hsleeps ht with hw | hbusy
  · obtain ⟨u, hu⟩ := wakeup_of_reachable h (not_not.mpr hfree) ⟨t, Or.inl hw⟩
    exact hidle (busy_of_attends hsleeps hu)
  · exact hidle hbusy

/-- Thread `a` owns the lock, and thread `b` is in its validation, before the `fetch_or`. -/
def validatingRun : List (Act Runner Label) :=
  [.step .a .lock, .step .a .run, .step .a .run, .step .b .lock] ++ List.replicate 14 (.step .b .run)

theorem tagged_no_lost_wakeup_parked : ∃ s : State Runner,
    Parked s .b ∧ s.mem.taggedPtr &&& lockedBit = 0 ∧ ¬ Stranded s :=
  let M := (program Runner 0x1000 ⟨0, by decide⟩).machine
  ⟨(M.run validatesOwned M.init (validatingRun ++ List.replicate 4 (.step .b .run) ++
      [.sleep .b, .step .a .unlock, .step .a .run, .step .a .run])).get (by decide),
    by decide, by decide, tagged_no_lost_wakeup (.of_run _ _)⟩

/-- The owner unlocks between the load and the `fetch_or` of the validation. -/
theorem tagged_lost_wakeup : ∃ s : State Runner,
    (program Runner 0x1000 ⟨0, by decide⟩).machine.Reachable anyStep s ∧ Stranded s :=
  let M := (program Runner 0x1000 ⟨0, by decide⟩).machine
  ⟨(M.run anyStep M.init (validatingRun ++ [.step .a .unlock, .step .a .run, .step .a .run] ++
      List.replicate 4 (.step .b .run) ++ [.sleep .b])).get (by decide),
    .of_run _ _, by decide, ⟨.b, by decide⟩, by decide⟩

end Psync.TaggedLockPtr
