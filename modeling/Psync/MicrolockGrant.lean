import Psync.BatchGrant

/-! What batches need of the one-byte lock to come to an end. `lock` and `unlock` share the bucket of the
parking lot, so a thread that has the bucket may have to run first: it gives the bucket back by itself, or it
is in `unpark_one` and can finish its own call. -/

namespace Psync.Batch

open Concurrency LockCode

set_option linter.unusedSectionVars false

variable {Tid : Type*} [DecidableEq Tid] [Fintype Tid]

variable {this : U64} {s : MicroLock.State Tid} {t : Tid} {p : LockPhase Unit}

theorem microLock_step {m : MicroLock.Mem Tid} {th : MicroLock.Thread Tid} (awake : s.asleep t = none)
    (hrun : MicroLock.run t s.mem (s.thread t) = some (m, th))
    (rest : ∀ s' : MicroLock.State Tid, s'.asleep t = none → s'.mem = m → s'.thread t = th →
      (microLockGuard Tid this).Reaches s' t p) : (microLockGuard Tid this).Reaches s t p :=
  .step awake hrun rest

theorem microLock_last {m : MicroLock.Mem Tid} {th : MicroLock.Thread Tid} (awake : s.asleep t = none)
    (hrun : MicroLock.run t s.mem (s.thread t) = some (m, th)) (hphase : microLockPhase this th = some p) :
    (microLockGuard Tid this).Reaches s t p :=
  .last awake hrun hphase

/-! `unpark_one` -/

/-- A step of `unpark_one`. -/
theorem run_unpark {pc : ParkingLot.UnparkPc Tid} {state : U64 → MicroLock.U8} {lot : ParkingLot.Lot Tid}
    {flow : ParkingLot.Flow (ParkingLot.UnparkPc Tid) ParkingLot.UnparkResult}
    (hpc : (s.thread t).pc = .unpark this pc)
    (h : ParkingLot.unparkOne (fun _ state => state) this s.mem.state s.mem.lot pc = some (state, lot, flow)) :
    MicroLock.run t s.mem (s.thread t) = some (⟨state, lot⟩, (s.thread t).at (MicroLock.afterUnpark this flow)) := by
  simp only [MicroLock.run, hpc, h, Option.map_some]

theorem unpark_step {pc pc' : ParkingLot.UnparkPc Tid} {state : U64 → MicroLock.U8} {lot : ParkingLot.Lot Tid}
    (awake : s.asleep t = none) (hpc : (s.thread t).pc = .unpark this pc)
    (hheld : (s.thread t).held this = false)
    (h : ParkingLot.unparkOne (fun _ state => state) this s.mem.state s.mem.lot pc = some (state, lot, .at pc'))
    (rest : ∀ s' : MicroLock.State Tid, s'.asleep t = none → (s'.thread t).pc = .unpark this pc' →
      (s'.thread t).held this = false → (microLockGuard Tid this).Reaches s' t p) :
    (microLockGuard Tid this).Reaches s t p := by
  refine microLock_step awake (run_unpark hpc h) fun s' awake' _ hthread => rest s' awake' ?_ ?_
  · rw [hthread]
    rfl
  · rw [hthread]
    exact hheld

/-- `unpark_one` wakes the thread that it has flagged, and returns. -/
theorem microLock_wake {target : Tid} {res : ParkingLot.UnparkResult} (awake : s.asleep t = none)
    (hpc : (s.thread t).pc = .unpark this (.wake target res)) (hheld : (s.thread t).held this = false) :
    (microLockGuard Tid this).Reaches s t .out := by
  have hwake : (microLockGuard Tid this).code.wake (s.thread t) =
      some (futex.wake target 1 ((s.thread t).at .idle)) := by
    simp only [microLockGuard, MicroLock.program, MicroLock.wake, hpc]
    rfl
  refine .wake microLockGuard_lawful.afterWait awake hwake ?_
  simp only [microLockGuard, microLockPhase, futex.wake, MicroLock.Thread.at, hheld]
  rfl

/-- `unpark_one`, once it has the bucket. -/
theorem microLock_unlockBucket {target : Option Tid} {res : ParkingLot.UnparkResult} (awake : s.asleep t = none)
    (hpc : (s.thread t).pc = .unpark this (.unlockBucket target res)) (hheld : (s.thread t).held this = false) :
    (microLockGuard Tid this).Reaches s t .out := by
  cases target with
  | none =>
      refine microLock_last awake (run_unpark hpc rfl) ?_
      simp only [microLockPhase, MicroLock.Thread.at, MicroLock.afterUnpark, hheld]
      rfl
  | some target => exact unpark_step awake hpc hheld rfl fun s' => microLock_wake

theorem microLock_setFlag {target : Tid} {res : ParkingLot.UnparkResult} (awake : s.asleep t = none)
    (hpc : (s.thread t).pc = .unpark this (.setFlag target res)) (hheld : (s.thread t).held this = false) :
    (microLockGuard Tid this).Reaches s t .out :=
  unpark_step awake hpc hheld rfl fun _ => microLock_unlockBucket

theorem microLock_callback {target : Option Tid} {res : ParkingLot.UnparkResult} (awake : s.asleep t = none)
    (hpc : (s.thread t).pc = .unpark this (.callback target res)) (hheld : (s.thread t).held this = false) :
    (microLockGuard Tid this).Reaches s t .out := by
  cases target with
  | none => exact unpark_step awake hpc hheld rfl fun _ => microLock_unlockBucket
  | some target => exact unpark_step awake hpc hheld rfl fun _ => microLock_setFlag

theorem microLock_dequeue (awake : s.asleep t = none) (hpc : (s.thread t).pc = .unpark this .dequeue)
    (hheld : (s.thread t).held this = false) : (microLockGuard Tid this).Reaches s t .out :=
  unpark_step awake hpc hheld rfl fun _ => microLock_callback

/-- `unpark_one` needs no other thread once it has the bucket. -/
theorem microLock_unpark {pc : ParkingLot.UnparkPc Tid} (awake : s.asleep t = none)
    (hpc : (s.thread t).pc = .unpark this pc) (hheld : (s.thread t).held this = false)
    (hin : pc ≠ .lockBucket ∨ (s.mem.lot.bucket this).lockState = 0) :
    (microLockGuard Tid this).Reaches s t .out := by
  cases pc with
  | dequeue => exact microLock_dequeue awake hpc hheld
  | callback target res => exact microLock_callback awake hpc hheld
  | unlockBucket target res => exact microLock_unlockBucket awake hpc hheld
  | setFlag target res => exact microLock_setFlag awake hpc hheld
  | wake target res => exact microLock_wake awake hpc hheld
  | lockBucket =>
      have hfree := hin.resolve_left fun hne => hne rfl
      have hunpark : ParkingLot.unparkOne (fun _ state => state) this s.mem.state s.mem.lot .lockBucket =
          some (s.mem.state, s.mem.lot.setLockState this 1, .at .dequeue) := by
        simp only [ParkingLot.unparkOne, ParkingLot.lockBucket, if_pos hfree]
      exact unpark_step awake hpc hheld hunpark fun _ => microLock_dequeue

/-! `lock` -/

/-- The CAS that finds the byte free. -/
theorem microLock_take {pc : MicroLock.Pc Tid} (awake : s.asleep t = none)
    (hfree : s.mem.state this = MicroLock.unlocked) (hpc : (s.thread t).pc = pc)
    (hcas : pc = .lockCas this ∨ (∃ i, pc = .spinCas this i) ∨ pc = .retryCas this) :
    (microLockGuard Tid this).Reaches s t (.holding ()) := by
  have hrun : MicroLock.run t s.mem (s.thread t) = some (s.mem.setState this MicroLock.locked,
      ⟨Function.update (s.thread t).held this true, .idle⟩) := by
    rcases hcas with rfl | ⟨i, rfl⟩ | rfl
    all_goals
      rw [MicroLock.run, hpc]
      exact congrArg some (if_pos hfree)
  refine microLock_last awake hrun ?_
  simp only [microLockPhase, Function.update_self]
  rfl

/-- A step of `park`. -/
theorem run_park {pc : ParkingLot.ParkPc Tid Unit} {state : U64 → MicroLock.U8} {lot : ParkingLot.Lot Tid}
    {flow : ParkingLot.Flow (ParkingLot.ParkPc Tid Unit) Bool} (hpc : (s.thread t).pc = .park this pc)
    (h : ParkingLot.park () (MicroLock.validate this) this t s.mem.state s.mem.lot pc = some (state, lot, flow)) :
    MicroLock.run t s.mem (s.thread t) = some (⟨state, lot⟩, (s.thread t).at (MicroLock.afterPark this flow)) := by
  simp only [MicroLock.run, hpc, h, Option.map_some]

theorem park_step {pc : ParkingLot.ParkPc Tid Unit} {lot : ParkingLot.Lot Tid}
    {flow : ParkingLot.Flow (ParkingLot.ParkPc Tid Unit) Bool} (awake : s.asleep t = none)
    (hpc : (s.thread t).pc = .park this pc)
    (h : ParkingLot.park () (MicroLock.validate this) this t s.mem.state s.mem.lot pc =
      some (s.mem.state, lot, flow))
    (rest : ∀ s' : MicroLock.State Tid, s'.asleep t = none → s'.mem = ⟨s.mem.state, lot⟩ →
      (s'.thread t).pc = MicroLock.afterPark this flow → (microLockGuard Tid this).Reaches s' t p) :
    (microLockGuard Tid this).Reaches s t p :=
  microLock_step awake (run_park hpc h) fun s' awake' hmem hthread =>
    rest s' awake' hmem (congrArg MicroLock.Thread.pc hthread)

theorem park_validate_free (hfree : s.mem.state this = MicroLock.unlocked) :
    ParkingLot.park () (MicroLock.validate this) this t s.mem.state s.mem.lot (.validate ()) =
      some (s.mem.state, s.mem.lot, .at .abort) := by
  have hne : decide (MicroLock.unlocked = MicroLock.locked) = false := by decide
  simp only [ParkingLot.park, MicroLock.validate, hfree, hne]

theorem microLock_abort (awake : s.asleep t = none) (hfree : s.mem.state this = MicroLock.unlocked)
    (hpc : (s.thread t).pc = .park this .abort) : (microLockGuard Tid this).Reaches s t (.holding ()) := by
  refine park_step awake hpc rfl fun s' awake' hmem hpc' => microLock_take awake' ?_ hpc' (Or.inr (Or.inr rfl))
  rw [hmem]
  exact hfree

theorem microLock_load (awake : s.asleep t = none) (hfree : s.mem.state this = MicroLock.unlocked)
    (hpc : (s.thread t).pc = .park this .load) (hflag : s.mem.lot.wakeFlag t ≠ 0) :
    (microLockGuard Tid this).Reaches s t (.holding ()) := by
  have hload : ParkingLot.park () (MicroLock.validate this) this t s.mem.state s.mem.lot .load =
      some (s.mem.state, s.mem.lot, .ret true) := by
    simp only [ParkingLot.park, if_neg hflag]
  refine park_step awake hpc hload fun s' awake' hmem hpc' => microLock_take awake' ?_ hpc' (Or.inr (Or.inr rfl))
  rw [hmem]
  exact hfree

/-- The kernel does not let a thread sleep whose flag is set. -/
theorem microLock_wait (awake : s.asleep t = none) (hfree : s.mem.state this = MicroLock.unlocked)
    (hpc : (s.thread t).pc = .park this (.wait t)) (hflag : s.mem.lot.wakeFlag t ≠ 0) :
    (microLockGuard Tid this).Reaches s t (.holding ()) := by
  have hwait : (microLockGuard Tid this).code.wait (s.thread t) =
      some (futex.wait t (fun m => m.lot.wakeFlag t) 0 ((s.thread t).at (.park this .load))) := by
    simp only [microLockGuard, MicroLock.program, MicroLock.wait, hpc, ParkingLot.parkWait]
  refine .ret awake hwait (beq_false_of_ne hflag) fun s' awake' hmem hthread => ?_
  refine microLock_load awake' ?_ (congrArg MicroLock.Thread.pc hthread) ?_
  · rw [hmem]
    exact hfree
  · rw [hmem]
    exact hflag

/-! The lock of the bucket: a thread that has it in `park` gives it back by itself. -/

/-- Thread `v` has given back the bucket; the other threads and the byte have not changed. -/
structure GivesBack (this : U64) (v : Tid) (s s' : MicroLock.State Tid) : Prop where
  leads : (microLockGuard Tid this).code.machine.Leads (microLockGuard Tid this).onward s s'
  asleep : s'.asleep = s.asleep
  others : ∀ u, u ≠ v → s'.thread u = s.thread u
  phase : microLockPhase this (s'.thread v) = microLockPhase this (s.thread v)
  state : s'.mem.state = s.mem.state
  free : (s'.mem.lot.bucket this).lockState = 0

variable {v : Tid}

theorem GivesBack.phases {s' : MicroLock.State Tid} (h : GivesBack this v s s') (u : Tid) :
    microLockPhase this (s'.thread u) = microLockPhase this (s.thread u) := by
  by_cases huv : u = v
  · rw [huv, h.phase]
  · rw [h.others u huv]

theorem microLock_move {m : MicroLock.Mem Tid} {th : MicroLock.Thread Tid} (awake : s.asleep v = none)
    (hrun : MicroLock.run v s.mem (s.thread v) = some (m, th)) :
    (microLockGuard Tid this).code.machine.Step (microLockGuard Tid this).onward s (s.move v m th) :=
  ⟨.step v .run, Program.next_of_step _ awake hrun, fun _ _ hlabel => by cases hlabel; rfl, trivial⟩

theorem phase_afterPark {pc : ParkingLot.ParkPc Tid Unit}
    (flow : ParkingLot.Flow (ParkingLot.ParkPc Tid Unit) Bool) (hpc : (s.thread v).pc = .park this pc) :
    microLockPhase this ((s.thread v).at (MicroLock.afterPark this flow)) = microLockPhase this (s.thread v) := by
  cases flow <;> simp only [microLockPhase, MicroLock.Thread.at, MicroLock.afterPark, hpc]

theorem GivesBack.last {pc : ParkingLot.ParkPc Tid Unit} {lot : ParkingLot.Lot Tid}
    {flow : ParkingLot.Flow (ParkingLot.ParkPc Tid Unit) Bool} (awake : s.asleep v = none)
    (hpc : (s.thread v).pc = .park this pc)
    (h : ParkingLot.park () (MicroLock.validate this) this v s.mem.state s.mem.lot pc =
      some (s.mem.state, lot, flow)) (hfree : (lot.bucket this).lockState = 0) : ∃ s', GivesBack this v s s' := by
  refine ⟨_, .single (microLock_move awake (run_park hpc h)), rfl, fun u hu => ?_, ?_, rfl, hfree⟩
  · rw [Config.move_thread, Function.update_of_ne hu]
  · rw [Config.move_thread, Function.update_self, phase_afterPark flow hpc]

theorem GivesBack.step {pc pc' : ParkingLot.ParkPc Tid Unit} {lot : ParkingLot.Lot Tid}
    (awake : s.asleep v = none) (hpc : (s.thread v).pc = .park this pc)
    (h : ParkingLot.park () (MicroLock.validate this) this v s.mem.state s.mem.lot pc =
      some (s.mem.state, lot, .at pc'))
    (rest : ∀ s₁ : MicroLock.State Tid, s₁.asleep v = none → (s₁.thread v).pc = .park this pc' →
      ∃ s', GivesBack this v s₁ s') : ∃ s', GivesBack this v s s' := by
  have hrun := run_park hpc h
  have hself : (s.move v ⟨s.mem.state, lot⟩ ((s.thread v).at (.park this pc'))).thread v =
      (s.thread v).at (.park this pc') := Function.update_self ..
  obtain ⟨s', hback⟩ := rest (s.move v ⟨s.mem.state, lot⟩ ((s.thread v).at (.park this pc'))) awake
    (congrArg MicroLock.Thread.pc hself)
  refine ⟨s', .head (microLock_move awake hrun) hback.leads, hback.asleep, fun u hu => ?_, ?_, hback.state,
    hback.free⟩
  · rw [hback.others u hu, Config.move_thread, Function.update_of_ne hu]
  · have hkeep := phase_afterPark (.at pc') hpc
    rw [hback.phase, hself]
    exact hkeep

theorem unlockBucket_free (lot : ParkingLot.Lot Tid) :
    ((ParkingLot.unlockBucket this lot).bucket this).lockState = 0 :=
  ParkingLot.setLockState_lockState this 0

theorem givesBack_abort (awake : s.asleep v = none) (hpc : (s.thread v).pc = .park this .abort) :
    ∃ s', GivesBack this v s s' :=
  GivesBack.last awake hpc rfl (unlockBucket_free _)

theorem givesBack_unlockBucket (awake : s.asleep v = none) (hpc : (s.thread v).pc = .park this .unlockBucket) :
    ∃ s', GivesBack this v s s' :=
  GivesBack.last awake hpc rfl (unlockBucket_free _)

theorem givesBack_enqueue (awake : s.asleep v = none) (hpc : (s.thread v).pc = .park this .enqueue) :
    ∃ s', GivesBack this v s s' :=
  GivesBack.step awake hpc rfl fun _ => givesBack_unlockBucket

theorem givesBack_validate (awake : s.asleep v = none) (hpc : (s.thread v).pc = .park this (.validate ())) :
    ∃ s', GivesBack this v s s' := by
  by_cases hlocked : s.mem.state this = MicroLock.locked
  · have hpark : ParkingLot.park () (MicroLock.validate this) this v s.mem.state s.mem.lot (.validate ()) =
        some (s.mem.state, s.mem.lot, .at .enqueue) := by
      simp only [ParkingLot.park, MicroLock.validate, decide_eq_true hlocked]
    exact GivesBack.step awake hpc hpark fun _ => givesBack_enqueue
  · have hpark : ParkingLot.park () (MicroLock.validate this) this v s.mem.state s.mem.lot (.validate ()) =
        some (s.mem.state, s.mem.lot, .at .abort) := by
      simp only [ParkingLot.park, MicroLock.validate, decide_eq_false hlocked]
    exact GivesBack.step awake hpc hpark fun _ => givesBack_abort

theorem microLock_givesBack {pc : ParkingLot.ParkPc Tid Unit} {b : U64} (awake : s.asleep v = none)
    (hpc : (s.thread v).pc = .park this pc) (hin : (s.thread v).pc.role.inside = some b) :
    ∃ s', GivesBack this v s s' := by
  rw [hpc] at hin
  cases pc with
  | lockBucket | load | wait => cases hin
  | validate => exact givesBack_validate awake hpc
  | abort => exact givesBack_abort awake hpc
  | enqueue => exact givesBack_enqueue awake hpc
  | unlockBucket => exact givesBack_unlockBucket awake hpc

/-! ### Phases of the one-byte lock -/

/-- A thread with a phase that is inside the bucket of the lock is there for the lock. -/
theorem microLock_inside {th : MicroLock.Thread Tid} {b : U64} (h : microLockPhase this th = some p)
    (hin : th.pc.role.inside = some b) : (∃ pc, th.pc = .park this pc) ∨
      p = .releasing () ∧ th.held this = false ∧ ∃ pc, th.pc = .unpark this pc ∧ pc ≠ .lockBucket := by
  obtain ⟨held, pc⟩ := th
  cases pc with
  | park a pc =>
      simp only [microLockPhase, Option.ite_none_right_eq_some] at h
      obtain ⟨rfl, -⟩ := h
      exact Or.inl ⟨pc, rfl⟩
  | unpark a pc =>
      simp only [microLockPhase, Option.ite_none_right_eq_some] at h
      obtain ⟨rfl, h⟩ := h
      obtain ⟨hheld, rfl⟩ := releasing_eq_some h
      refine Or.inr ⟨rfl, by simpa using hheld, pc, rfl, ?_⟩
      rintro rfl
      cases hin
  | _ => cases hin

theorem microLock_releasing {th : MicroLock.Thread Tid} (h : microLockPhase this th = some (.releasing ())) :
    th.pc = .unlockStore this ∨ th.held this = false ∧ ∃ pc, th.pc = .unpark this pc := by
  obtain ⟨held, pc⟩ := th
  cases pc with
  | idle => cases hheld : held this <;> simp [microLockPhase, resting, hheld] at h
  | tryCas | tried => cases h
  | lockCas | spinCas | park | retryCas =>
      simp only [microLockPhase, Option.ite_none_right_eq_some] at h
      cases (locking_eq_some h.2).2
  | unlockStore a =>
      simp only [microLockPhase, Option.ite_none_right_eq_some] at h
      obtain ⟨rfl, -⟩ := h
      exact Or.inl rfl
  | unpark a pc =>
      simp only [microLockPhase, Option.ite_none_right_eq_some] at h
      obtain ⟨rfl, h⟩ := h
      exact Or.inr ⟨by simpa using (releasing_eq_some h).1, pc, rfl⟩

/-- A thread that is out of the lock or waits for it. -/
theorem microLock_waiting {th : MicroLock.Thread Tid} (h : LockPhase.Waits (microLockPhase this th)) :
    th.held this = false ∧ ∀ a pc, th.pc ≠ .unpark a pc := by
  obtain ⟨held, pc⟩ := th
  cases pc with
  | idle => exact ⟨waits_resting h, nofun⟩
  | tryCas | tried => exact (LockPhase.not_waits_none h).elim
  | lockCas | spinCas | park | retryCas => exact ⟨waits_locking (LockPhase.Waits.of_ite h).2, nofun⟩
  | unlockStore | unpark => exact (not_waits_releasing (LockPhase.Waits.of_ite h).2).elim

/-! ### The calls of the one-byte lock -/

theorem microLock_awake {ok : StepCond (MicroLock.State Tid) (Act Tid MicroLock.Label)}
    (h : (MicroLock.program Tid).machine.Reachable ok s) (hwait : MicroLock.wait (s.thread t) = none) :
    s.asleep t = none := by
  cases hsleep : s.asleep t with
  | none => rfl
  | some a =>
      obtain ⟨w, hw, -⟩ := Program.wait_of_asleep _ (fun _ => rfl) h hsleep
      cases hwait.symm.trans hw

theorem wait_of_inside {b : U64} (hin : (s.thread t).pc.role.inside = some b) :
    MicroLock.wait (s.thread t) = none := by
  unfold MicroLock.wait
  split
  · rename_i a pc hpc
    rw [hpc] at hin
    cases pc <;> first | rfl | cases hin
  · rfl

theorem wait_of_releasing (h : microLockPhase this (s.thread t) = some (.releasing ())) :
    MicroLock.wait (s.thread t) = none := by
  rcases microLock_releasing h with hpc | ⟨-, pc, hpc⟩
  · rw [MicroLock.wait, hpc]
  · rw [MicroLock.wait, hpc]

/-- While the bucket is free, `unlock` needs no other thread. -/
theorem microLock_unlock (awake : s.asleep t = none) (hbucket : (s.mem.lot.bucket this).lockState = 0)
    (h : microLockPhase this (s.thread t) = some (.releasing ())) :
    (microLockGuard Tid this).Reaches s t .out := by
  rcases microLock_releasing h with hpc | ⟨hheld, pc, hpc⟩
  · refine microLock_step awake (by rw [MicroLock.run, hpc]) fun s' awake' hmem hthread => ?_
    have hpc' : (s'.thread t).pc = .unpark this .lockBucket := by rw [hthread]
    refine microLock_unpark awake' hpc' ?_ (Or.inr ?_)
    · rw [hthread]
      exact Function.update_self ..
    · rw [hmem]
      exact hbucket
  · exact microLock_unpark awake hpc hheld (Or.inr hbucket)

/-- A thread that is awake in `lock` gets a free lock, once the bucket is free. -/
theorem microLock_seek (awake : s.asleep t = none) (hfree : s.mem.state this = MicroLock.unlocked)
    (hown : ∀ a node, (s.thread t).pc = .park a (.wait node) → node = t)
    (hseek : (s.thread t).pc.seeks (s.mem.lot.wakeFlag t) = some this)
    (hbucket : (s.thread t).pc = .park this .lockBucket → (s.mem.lot.bucket this).lockState = 0) :
    (microLockGuard Tid this).Reaches s t (.holding ()) := by
  generalize hpc : (s.thread t).pc = pc at hseek hbucket hown
  cases pc with
  | lockCas a =>
      cases hseek
      exact microLock_take awake hfree hpc (Or.inl rfl)
  | spinCas a i =>
      cases hseek
      exact microLock_take awake hfree hpc (Or.inr (Or.inl ⟨i, rfl⟩))
  | retryCas a =>
      cases hseek
      exact microLock_take awake hfree hpc (Or.inr (Or.inr rfl))
  | park a pc =>
      obtain ⟨htries, rfl⟩ := MicroLock.seeks_park.mp hseek
      have habort : ∀ {s' : MicroLock.State Tid}, s'.asleep t = none → s'.mem.state a = MicroLock.unlocked →
          (s'.thread t).pc = .park a (.validate ()) → (microLockGuard Tid a).Reaches s' t (.holding ()) := by
        intro s' awake' hfree' hpc'
        refine park_step awake' hpc' (park_validate_free hfree') fun s'' awake'' hmem hpc'' => ?_
        refine microLock_abort awake'' ?_ hpc''
        rw [hmem]
        exact hfree'
      cases pc with
      | lockBucket =>
          have hpark : ParkingLot.park () (MicroLock.validate a) a t s.mem.state s.mem.lot .lockBucket =
              some (s.mem.state, s.mem.lot.setLockState a 1, .at (.validate ())) := by
            simp only [ParkingLot.park, ParkingLot.lockBucket, if_pos (hbucket rfl)]
          refine park_step awake hpc hpark fun s' awake' hmem hpc' => habort awake' ?_ hpc'
          rw [hmem]
          exact hfree
      | validate v => exact habort awake hfree hpc
      | abort => exact microLock_abort awake hfree hpc
      | enqueue => cases htries
      | unlockBucket =>
          have hflag : s.mem.lot.wakeFlag t ≠ 0 := of_decide_eq_true htries
          refine park_step awake hpc rfl fun s' awake' hmem hpc' => microLock_load awake' ?_ hpc' ?_
          · rw [hmem]
            exact hfree
          · rw [hmem]
            exact hflag
      | load => exact microLock_load awake hfree hpc (of_decide_eq_true htries)
      | wait node =>
          obtain rfl := hown a node rfl
          exact microLock_wait awake hfree hpc (of_decide_eq_true htries)
  | _ => cases hseek

/-- While nobody holds or releases the lock, some thread that waits for it is going to try again. -/
theorem microLock_seeker (hinv : MicroLock.Inv s) (hw : MicroLock.Wakeup s)
    (hfree : s.mem.state this = MicroLock.unlocked) (hnone : ∀ u a pc, (s.thread u).pc ≠ .unpark a pc)
    (h : microLockPhase this (s.thread t) = some (.acquiring ())) :
    ∃ u, (s.thread u).pc.seeks (s.mem.lot.wakeFlag u) = some this := by
  have hattended : (∃ u, MicroLock.Waiting s this u) →
      ∃ u, (s.thread u).pc.seeks (s.mem.lot.wakeFlag u) = some this := by
    intro hwaiting
    obtain ⟨u, hseek | hwakes⟩ := hw this hfree hwaiting
    · exact ⟨u, hseek⟩
    · obtain ⟨pc, hpc, -⟩ := MicroLock.unpark_of_wakes hwakes
      exact absurd hpc (hnone u this pc)
  -- a linked thread whose flag is clear is still linked, since no `unpark_one` is on its way
  have hqueued : (s.thread t).pc.role.queued = some this → s.mem.lot.wakeFlag t = 0 →
      ∃ u, (s.thread u).pc.seeks (s.mem.lot.wakeFlag u) = some this := by
    intro hq hzero
    rcases hinv.lot.parked this t hq hzero with hwaits | ⟨u, hu⟩
    · exact hattended ⟨t, Or.inl hwaits⟩
    · obtain ⟨pc, hpc⟩ := MicroLock.unpark_of_role (Or.inl hu)
      exact absurd hpc (hnone u this pc)
  generalize hth : s.thread t = th at h hqueued
  have hpc : (s.thread t).pc = th.pc := congrArg MicroLock.Thread.pc hth
  obtain ⟨held, pc⟩ := th
  cases pc with
  | idle => cases hheld : held this <;> simp [microLockPhase, resting, hheld] at h
  | tryCas | tried => cases h
  | unlockStore | unpark =>
      simp only [microLockPhase, Option.ite_none_right_eq_some] at h
      cases (releasing_eq_some h.2).2
  | lockCas a | spinCas a i | retryCas a =>
      simp only [microLockPhase, Option.ite_none_right_eq_some] at h
      obtain ⟨rfl, -⟩ := h
      exact ⟨t, by rw [hpc]; rfl⟩
  | park a pc =>
      simp only [microLockPhase, Option.ite_none_right_eq_some] at h
      obtain ⟨rfl, -⟩ := h
      cases pc with
      | lockBucket | validate | abort => exact ⟨t, by rw [hpc]; rfl⟩
      | enqueue => exact hattended ⟨t, Or.inr hpc⟩
      | unlockBucket | load | wait =>
          by_cases hflag : s.mem.lot.wakeFlag t = 0
          · exact hqueued rfl hflag
          · exact ⟨t, by rw [hpc]; exact MicroLock.seeks_park.mpr ⟨decide_eq_true hflag, rfl⟩⟩

/-- It is awake: whoever has set its flag has woken it. -/
theorem microLock_seeker_awake
    (hsleeps : ParkingLot.Sleeps s.mem.lot (fun t => (s.thread t).pc.role) s.asleep)
    (hnone : ∀ u a pc, (s.thread u).pc ≠ .unpark a pc)
    (hseek : (s.thread t).pc.seeks (s.mem.lot.wakeFlag t) = some this) : s.asleep t = none := by
  by_contra hsleep
  obtain ⟨key, hrole⟩ := hsleeps.parked t hsleep
  obtain ⟨hq, hflag⟩ := MicroLock.seeks_asleep hrole hseek
  obtain ⟨u, hu⟩ := hsleeps.woken t this hsleep hq hflag
  obtain ⟨pc, hpc⟩ := MicroLock.unpark_of_role (Or.inr hu)
  exact hnone u this pc hpc

theorem microLockGuard_finishing : (microLockGuard Tid this).Finishing fun _ => True where
  idle := by
    intro th p h hquiet
    obtain ⟨hidle, -⟩ := microLock_idle h hquiet
    obtain ⟨held, pc⟩ := th
    cases hidle
    exact ⟨fun _ _ => rfl, rfl⟩
  release := by
    intro t m th mode h
    obtain ⟨hidle, hin⟩ := microLock_idle h rfl
    have hheld := resting_holding (congrArg some hin)
    simp only [microLockGuard, MicroLock.program, MicroLock.step, if_pos (And.intro hidle hheld),
      Option.isSome_some]
  finish := by
    intro s t mode h hphases ht
    have hinv := MicroLock.inv_of_reachable (h.mono fun _ => trivial)
    have awake := microLock_awake h (wait_of_releasing ht)
    by_cases hbucket : (s.mem.lot.bucket this).lockState = 0
    · exact ⟨t, (), ht, microLock_unlock awake hbucket ht⟩
    obtain ⟨v, hv⟩ := (hinv.lot.guard _).iff.mp hbucket
    obtain ⟨p, hp⟩ := hphases v
    have vawake := microLock_awake h (wait_of_inside hv)
    rcases microLock_inside hp hv with ⟨pc, hpc⟩ | ⟨rfl, hheld, pc, hpc, hin⟩
    · obtain ⟨s', hback⟩ := microLock_givesBack vawake hpc hv
      refine ⟨t, (), ht, .after hback.leads hback.phases (microLock_unlock ?_ hback.free ?_)⟩
      · rw [hback.asleep, awake]
      · rw [hback.phases t]
        exact ht
    · exact ⟨v, (), hp, microLock_unpark vawake hpc hheld (Or.inl hin)⟩
  grant := by
    intro s t mode h hphases ht
    have hreach : (MicroLock.program Tid).machine.Reachable anyStep s := h.mono fun _ => trivial
    have hinv := MicroLock.inv_of_reachable hreach
    have hw := MicroLock.wakeup_of_reachable hreach
    obtain ⟨hown, hsleeps⟩ := MicroLock.client.sleeps_of_reachable MicroLock.inv_of_reachable hreach
    have hfree : s.mem.state this = MicroLock.unlocked := by
      by_contra hlocked
      obtain ⟨u, hu⟩ := (hinv.owner this).iff.mp hlocked
      rw [(microLock_waiting (hphases u)).1] at hu
      cases hu
    have hnone : ∀ u a pc, (s.thread u).pc ≠ .unpark a pc := fun u => (microLock_waiting (hphases u)).2
    obtain ⟨u, hseek⟩ := microLock_seeker hinv hw hfree hnone ht
    have awake := microLock_seeker_awake hsleeps hnone hseek
    have hnode : ∀ a node, (s.thread u).pc = .park a (.wait node) → node = u := by
      intro a node hpc
      refine hown u (futex.wait node (fun m => m.lot.wakeFlag node) 0 ((s.thread u).at (.park a .load))) ?_
      simp only [MicroLock.program, MicroLock.wait, hpc, ParkingLot.parkWait]
    have hu : microLockPhase this (s.thread u) = some (.acquiring ()) := by
      rcases hphases u with hout | ⟨mode, hacquiring⟩
      · rw [(microLock_idle hout rfl).1] at hseek
        cases hseek
      · exact hacquiring
    refine ⟨u, (), hu, ?_⟩
    by_cases hlock : (s.thread u).pc = .park this .lockBucket
    · by_cases hbucket : (s.mem.lot.bucket this).lockState = 0
      · exact microLock_seek awake hfree hnode hseek fun _ => hbucket
      obtain ⟨v, hv⟩ := (hinv.lot.guard _).iff.mp hbucket
      obtain ⟨p, hp⟩ := (hphases v).eq_some
      have huv : u ≠ v := by
        rintro rfl
        rw [hlock] at hv
        cases hv
      rcases microLock_inside hp hv with ⟨pc, hpc⟩ | ⟨-, -, pc, hpc, -⟩
      · obtain ⟨s', hback⟩ := microLock_givesBack (microLock_awake h (wait_of_inside hv)) hpc hv
        have hsame := hback.others u huv
        refine .after hback.leads hback.phases (microLock_seek ?_ ?_ ?_ ?_ fun _ => hback.free)
        · rw [hback.asleep, awake]
        · rw [hback.state, hfree]
        · rwa [hsame]
        · rw [hsame, hlock]
          rfl
      · exact absurd hpc (hnone v this pc)
    · exact microLock_seek awake hfree hnode hseek fun hpc => absurd hpc hlock
  fits _ _ := trivial

end Psync.Batch
