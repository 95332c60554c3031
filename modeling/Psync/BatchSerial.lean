import Psync.BatchModel
import Psync.MutexState
import Psync.TicketFifo
import Psync.MicrolockWakeup
import Psync.SharedState

/-! Batches are serializable under every lock of the library. For each lock: the calls of its code go
through the phases of a batch, and two threads never hold it at once. -/

namespace Psync.Batch

open Concurrency

set_option linter.unusedSectionVars false

variable {Tid : Type*} [DecidableEq Tid] [Fintype Tid]

theorem locking_eq_some {held : Bool} {p : LockPhase Unit} (h : locking held = some p) :
    held = false ∧ p = .acquiring () := by
  cases held with
  | false => exact ⟨rfl, (Option.some.inj h).symm⟩
  | true => cases h

theorem locking_of_free {held : Bool} (h : held = false) : locking held = some (.acquiring ()) := by
  rw [h]
  rfl

theorem releasing_eq_some {inside : Bool} {p : LockPhase Unit} (h : releasing inside = some p) :
    inside = true ∧ p = .releasing () := by
  cases inside with
  | true => exact ⟨rfl, (Option.some.inj h).symm⟩
  | false => cases h

theorem resting_out {held : Bool} (h : some (resting held) = some .out) : held = false := by
  cases held with
  | false => rfl
  | true => cases h

theorem resting_holding {held : Bool} {mode : Unit} (h : some (resting held) = some (.holding mode)) :
    held = true := by
  cases held with
  | true => rfl
  | false => cases h

/-! ### The mutex -/

theorem mutex_idle {th : Mutex.Thread} {p : LockPhase Unit} (h : mutexPhase th = some p)
    (hquiet : p.busy = false) : th.pc = .idle ∧ resting th.held = p := by
  obtain ⟨held, pc⟩ := th
  cases pc with
  | idle => exact ⟨rfl, Option.some.inj h⟩
  | tryLock | tried => cases h
  | lockFast | spin | register | waitLoad | waitCas | waitFutex =>
      obtain ⟨-, rfl⟩ := locking_eq_some h
      cases hquiet
  | unlockLoad | unlockCas | unlockReload | unlockClear | unlockWake =>
      obtain ⟨-, rfl⟩ := releasing_eq_some h
      cases hquiet

theorem mutex_afterSpin (i spinCount backoff : ℕ) :
    mutexPhase ⟨false, Mutex.afterSpin i spinCount backoff⟩ = some (.acquiring ()) := by
  unfold Mutex.afterSpin
  split_ifs <;> rfl

theorem mutex_run {state state' : U32} {th th' : Mutex.Thread} {p : LockPhase Unit}
    (h : mutexPhase th = some p) (hrun : Mutex.run state th = some (state', th')) :
    ∃ p', mutexPhase th' = some p' ∧ p.Next p' := by
  obtain ⟨held, pc⟩ := th
  cases pc with
  | idle | waitFutex | unlockWake => cases hrun
  | tryLock | tried => cases h
  | lockFast =>
      obtain ⟨rfl, rfl⟩ := locking_eq_some h
      simp only [Mutex.run] at hrun
      split_ifs at hrun <;> cases hrun
      · exact ⟨_, rfl, .granted ()⟩
      · exact ⟨_, rfl, .stay _⟩
  | spin i spinCount backoff =>
      obtain ⟨rfl, rfl⟩ := locking_eq_some h
      simp only [Mutex.run] at hrun
      split_ifs at hrun <;> cases hrun
      · exact ⟨_, rfl, .granted ()⟩
      · exact ⟨_, mutex_afterSpin i spinCount backoff, .stay _⟩
  | register =>
      obtain ⟨rfl, rfl⟩ := locking_eq_some h
      cases hrun
      exact ⟨_, rfl, .stay _⟩
  | waitLoad =>
      obtain ⟨rfl, rfl⟩ := locking_eq_some h
      simp only [Mutex.run] at hrun
      split_ifs at hrun <;> cases hrun <;> exact ⟨_, rfl, .stay _⟩
  | waitCas current =>
      obtain ⟨rfl, rfl⟩ := locking_eq_some h
      simp only [Mutex.run] at hrun
      split_ifs at hrun <;> cases hrun
      · exact ⟨_, rfl, .granted ()⟩
      · exact ⟨_, rfl, .stay _⟩
  | unlockLoad =>
      obtain ⟨rfl, rfl⟩ := releasing_eq_some h
      simp only [Mutex.run] at hrun
      split_ifs at hrun <;> cases hrun <;> exact ⟨_, rfl, .stay _⟩
  | unlockCas =>
      obtain ⟨rfl, rfl⟩ := releasing_eq_some h
      simp only [Mutex.run] at hrun
      split_ifs at hrun <;> cases hrun
      · exact ⟨_, rfl, .left ()⟩
      · exact ⟨_, rfl, .stay _⟩
  | unlockReload | unlockClear =>
      obtain ⟨rfl, rfl⟩ := releasing_eq_some h
      cases hrun
      exact ⟨_, rfl, .stay _⟩

/-- Where a thread has a phase, it is outside every call exactly if its phase is not that of a call. -/
theorem idle_eq {outside : Prop} [Decidable outside] {Mode : Type*} {p : LockPhase Mode}
    (hquiet : p.busy = false → outside) (hbusy : outside → p.busy = false) : decide outside = !p.busy := by
  cases h : p.busy with
  | false => exact decide_eq_true (hquiet h)
  | true =>
      refine decide_eq_false fun hout => ?_
      rw [hbusy hout] at h
      cases h

theorem resting_quiet {held : Bool} : (resting held).busy = false := by
  cases held <;> rfl

theorem mutexGuard_lawful (hcard : Fintype.card Tid < 2 ^ 31) :
    (mutexGuard Tid).Lawful (fun _ => true) fun _ => True where
  start := rfl
  idle {th p} h := by
    refine idle_eq (fun hquiet => (mutex_idle h hquiet).1) fun hidle => ?_
    simp only [mutexGuard, mutexPhase, hidle] at h
    rw [← Option.some.inj h, resting_quiet]
  acquire h hstep := by
    obtain ⟨hidle, hout⟩ := mutex_idle h rfl
    simp only [mutexGuard, Mutex.program, Mutex.step, if_pos hidle] at hstep
    cases hstep
    have hheld := resting_out (congrArg some hout)
    simp only [mutexGuard, mutexPhase, Mutex.Thread.at, hheld]
    rfl
  release h hstep := by
    obtain ⟨hidle, hin⟩ := mutex_idle h rfl
    have hheld := resting_holding (congrArg some hin)
    simp only [mutexGuard, Mutex.program, Mutex.step, if_pos (And.intro hidle hheld)] at hstep
    cases hstep
    simp only [mutexGuard, mutexPhase, Mutex.Thread.at, hheld]
    rfl
  run h _ hstep := mutex_run h hstep
  afterWait th := by
    obtain ⟨held, pc⟩ := th
    cases pc <;> rfl
  wake := by
    intro th w p h hwake
    obtain ⟨hpc, rfl⟩ := Mutex.wake_eq_some hwake
    obtain ⟨held, pc⟩ := th
    cases hpc
    obtain ⟨hheld, rfl⟩ := releasing_eq_some h
    refine ⟨rfl, .out, ?_, .left ()⟩
    cases held with
    | false => rfl
    | true => cases hheld
  requeue _ := rfl
  exclusive := by
    intro s t u a b h hne ht hu
    have hinv := Mutex.inv_of_reachable hcard (h.mono fun _ => trivial)
    have hheld : ∀ {v : Tid} {mode}, mutexPhase (s.thread v) = some (.holding mode) →
        (s.thread v).held = true := by
      intro v mode hv
      exact resting_holding (congrArg some (mutex_idle hv rfl).2)
    exact absurd (eq_of_count_le_one hinv.one (hheld ht) (hheld hu)) hne

/-! ### The spinlock -/

theorem spinLock_idle {th : SpinLock.Thread} {p : LockPhase Unit} (h : spinLockPhase th = some p)
    (hquiet : p.busy = false) : th.pc = .idle ∧ resting th.held = p := by
  obtain ⟨held, pc⟩ := th
  cases pc with
  | idle => exact ⟨rfl, Option.some.inj h⟩
  | tryCas | tried => cases h
  | lockFast | load | lockCas =>
      obtain ⟨-, rfl⟩ := locking_eq_some h
      cases hquiet
  | unlock =>
      obtain ⟨-, rfl⟩ := releasing_eq_some h
      cases hquiet

theorem spinLock_cas {state : U32} {lost : SpinLock.Pc}
    (hlost : spinLockPhase ⟨false, lost⟩ = some (.acquiring ())) {th : SpinLock.Thread}
    (hth : th.held = false) : ∃ p, spinLockPhase (SpinLock.cas state th .idle lost).2 = some p ∧
      (LockPhase.acquiring ()).Next p := by
  rw [SpinLock.cas]
  split_ifs
  · exact ⟨_, rfl, .granted ()⟩
  · simp only [SpinLock.Thread.at, hth]
    exact ⟨_, hlost, .stay _⟩

theorem spinLock_run {state state' : U32} {th th' : SpinLock.Thread} {p : LockPhase Unit}
    (h : spinLockPhase th = some p) (hrun : SpinLock.run state th = some (state', th')) :
    ∃ p', spinLockPhase th' = some p' ∧ p.Next p' := by
  obtain ⟨held, pc⟩ := th
  cases pc with
  | idle => cases hrun
  | tryCas | tried => cases h
  | lockFast | lockCas =>
      obtain ⟨rfl, rfl⟩ := locking_eq_some h
      obtain ⟨rfl, rfl⟩ := Prod.mk.inj (Option.some.inj hrun)
      exact spinLock_cas rfl rfl
  | load backoff =>
      obtain ⟨rfl, rfl⟩ := locking_eq_some h
      cases hrun
      simp only [SpinLock.Thread.at]
      split_ifs <;> exact ⟨_, rfl, .stay _⟩
  | unlock =>
      obtain ⟨rfl, rfl⟩ := releasing_eq_some h
      cases hrun
      exact ⟨_, rfl, .left ()⟩

theorem spinLockGuard_lawful : (spinLockGuard Tid).Lawful (fun _ => true) fun _ => True where
  start := rfl
  idle {th p} h := by
    refine idle_eq (fun hquiet => (spinLock_idle h hquiet).1) fun hidle => ?_
    simp only [spinLockGuard, spinLockPhase, hidle] at h
    rw [← Option.some.inj h, resting_quiet]
  acquire h hstep := by
    obtain ⟨hidle, hout⟩ := spinLock_idle h rfl
    simp only [spinLockGuard, SpinLock.program, SpinLock.step, if_pos hidle] at hstep
    cases hstep
    have hheld := resting_out (congrArg some hout)
    simp only [spinLockGuard, spinLockPhase, SpinLock.Thread.at, hheld]
    rfl
  release h hstep := by
    obtain ⟨hidle, hin⟩ := spinLock_idle h rfl
    have hheld := resting_holding (congrArg some hin)
    simp only [spinLockGuard, SpinLock.program, SpinLock.step, if_pos (And.intro hidle hheld)] at hstep
    cases hstep
    simp only [spinLockGuard, spinLockPhase, SpinLock.Thread.at, hheld]
    rfl
  run h _ hstep := spinLock_run h hstep
  afterWait _ := rfl
  wake _ hwake := by cases hwake
  requeue _ := rfl
  exclusive := by
    intro s t u a b h hne ht hu
    have hinv := SpinLock.inv_of_reachable h
    have hheld : ∀ {v : Tid} {mode}, spinLockPhase (s.thread v) = some (.holding mode) →
        (s.thread v).held = true := by
      intro v mode hv
      exact resting_holding (congrArg some (spinLock_idle hv rfl).2)
    exact absurd (hinv.guards.unique t u (hheld ht) (hheld hu)) hne

/-! ### The ticket lock -/

theorem ticketLock_idle {th : TicketLock.Thread} {p : LockPhase Unit} (h : ticketLockPhase th = some p)
    (hquiet : p.busy = false) : th.pc = .idle ∧ resting th.held = p := by
  obtain ⟨held, pc⟩ := th
  cases pc with
  | idle => exact ⟨rfl, Option.some.inj h⟩
  | tryServing | tryNext | tryCas | tried => cases h
  | draw | spin =>
      obtain ⟨-, rfl⟩ := locking_eq_some h
      cases hquiet
  | unlock =>
      obtain ⟨-, rfl⟩ := releasing_eq_some h
      cases hquiet

theorem ticketLock_run {m m' : TicketLock.Mem} {th th' : TicketLock.Thread} {p : LockPhase Unit}
    (h : ticketLockPhase th = some p) (hrun : TicketLock.run m th = some (m', th')) :
    ∃ p', ticketLockPhase th' = some p' ∧ p.Next p' := by
  obtain ⟨held, pc⟩ := th
  cases pc with
  | idle => cases hrun
  | tryServing | tryNext | tryCas | tried => cases h
  | draw =>
      obtain ⟨rfl, rfl⟩ := locking_eq_some h
      cases hrun
      exact ⟨_, rfl, .stay _⟩
  | spin myTicket =>
      obtain ⟨rfl, rfl⟩ := locking_eq_some h
      cases hrun
      split_ifs
      · exact ⟨_, rfl, .granted ()⟩
      · exact ⟨_, rfl, .stay _⟩
  | unlock =>
      obtain ⟨rfl, rfl⟩ := releasing_eq_some h
      cases hrun
      exact ⟨_, rfl, .left ()⟩

/-- Batches never call `try_lock`. -/
theorem ticketLock_not_trying {fits : Config Tid TicketLock.Mem TicketLock.Thread Empty → Prop}
    {s : TicketLock.State Tid}
    (h : (TicketLock.program Tid).machine.Reachable (fun _ a s' => (ticketLockGuard Tid).Calls a ∧ fits s') s)
    (t : Tid) : (s.thread t).trying = false := by
  refine h.induct (I := fun s => ∀ t, (s.thread t).trying = false) (fun _ => rfl) ?_ t
  rintro s a s' - ih hnext ⟨hcalls, -⟩ u
  obtain ⟨t, l, m, th, rfl, hstep, rfl⟩ := (TicketLock.program Tid).step_of_next (fun _ => rfl)
    (fun _ => rfl) (fun _ => rfl) hnext
  rw [Config.move_thread, Function.update_apply]
  split_ifs
  · have hth := ih t
    revert hstep hth
    generalize s.thread t = old
    obtain ⟨held, pc⟩ := old
    intro hstep hth
    have hlabel : l ≠ .tryLock := by
      rintro rfl
      rcases hcalls with hl | ⟨mode, hl | hl⟩ <;> cases hl
    cases l with
    | tryLock => exact absurd rfl hlabel
    | lock | unlock =>
        simp only [TicketLock.program, TicketLock.step, Option.ite_none_right_eq_some] at hstep
        obtain ⟨-, hstep⟩ := hstep
        cases hstep
        rfl
    | run =>
        cases pc with
        | idle => cases hstep
        | tryServing | tryNext | tryCas => cases hth
        | draw | unlock | tried =>
            cases hstep
            rfl
        | spin myTicket =>
            cases hstep
            split_ifs <;> rfl
  · exact ih u

/-- Tickets do not run out. -/
theorem ticketLock_history (hcard : Fintype.card Tid < 2 ^ 31)
    {fits : Config Tid TicketLock.Mem TicketLock.Thread Empty → Prop} {s : TicketLock.State Tid}
    (h : (TicketLock.program Tid).machine.Reachable (fun _ a s' => (ticketLockGuard Tid).Calls a ∧ fits s') s) :
    ∃ hist, TicketLock.Inv s hist := by
  obtain ⟨hist, hreach⟩ : ∃ hist, (TicketLock.observed Tid).Reachable TicketLock.few (s, hist) := by
    refine h.exists_observed fun hreach hnext hok _ => ⟨?_, fun v hv => ?_⟩
    · exact count_le_card.trans_lt hcard
    · rw [ticketLock_not_trying (hreach.next hnext hok) v] at hv
      cases hv
  exact ⟨hist, (TicketLock.inv_of_reachable hreach).1⟩

theorem ticketLockGuard_lawful (hcard : Fintype.card Tid < 2 ^ 31) :
    (ticketLockGuard Tid).Lawful (fun _ => true) fun _ => True where
  start := rfl
  idle {th p} h := by
    refine idle_eq (fun hquiet => (ticketLock_idle h hquiet).1) fun hidle => ?_
    simp only [ticketLockGuard, ticketLockPhase, hidle] at h
    rw [← Option.some.inj h, resting_quiet]
  acquire h hstep := by
    obtain ⟨hidle, hout⟩ := ticketLock_idle h rfl
    simp only [ticketLockGuard, TicketLock.program, TicketLock.step, if_pos hidle] at hstep
    cases hstep
    have hheld := resting_out (congrArg some hout)
    simp only [ticketLockGuard, ticketLockPhase, TicketLock.Thread.at, hheld]
    rfl
  release h hstep := by
    obtain ⟨hidle, hin⟩ := ticketLock_idle h rfl
    have hheld := resting_holding (congrArg some hin)
    simp only [ticketLockGuard, TicketLock.program, TicketLock.step, if_pos (And.intro hidle hheld)] at hstep
    cases hstep
    simp only [ticketLockGuard, ticketLockPhase, TicketLock.Thread.at, hheld]
    rfl
  run h _ hstep := ticketLock_run h hstep
  afterWait _ := rfl
  wake _ hwake := by cases hwake
  requeue _ := rfl
  exclusive := by
    intro s t u a b h hne ht hu
    obtain ⟨hist, hinv⟩ := ticketLock_history hcard h
    have hheld : ∀ {v : Tid} {mode}, ticketLockPhase (s.thread v) = some (.holding mode) →
        (s.thread v).held = true := by
      intro v mode hv
      exact resting_holding (congrArg some (ticketLock_idle hv rfl).2)
    exact absurd (hinv.unique (hheld ht) (hheld hu)) hne

/-! ### The one-byte lock -/

section MicroLock

variable {this : U64}

theorem microLock_idle {th : MicroLock.Thread Tid} {p : LockPhase Unit}
    (h : microLockPhase this th = some p) (hquiet : p.busy = false) :
    th.pc = .idle ∧ resting (th.held this) = p := by
  obtain ⟨held, pc⟩ := th
  cases pc with
  | idle => exact ⟨rfl, Option.some.inj h⟩
  | tryCas | tried => cases h
  | lockCas | spinCas | park | retryCas =>
      simp only [microLockPhase, Option.ite_none_right_eq_some] at h
      obtain ⟨-, rfl⟩ := locking_eq_some h.2
      cases hquiet
  | unlockStore | unpark =>
      simp only [microLockPhase, Option.ite_none_right_eq_some] at h
      obtain ⟨-, rfl⟩ := releasing_eq_some h.2
      cases hquiet

theorem microLock_cas {m : MicroLock.Mem Tid} {lost : MicroLock.Pc Tid} {th : MicroLock.Thread Tid}
    (hlost : microLockPhase this (th.at lost) = some (.acquiring ())) :
    ∃ p, microLockPhase this (MicroLock.cas this m th .idle lost).2 = some p ∧ (LockPhase.acquiring ()).Next p := by
  rw [MicroLock.cas]
  split_ifs
  · refine ⟨.holding (), ?_, .granted ()⟩
    simp only [microLockPhase, Function.update_self]
    rfl
  · exact ⟨_, hlost, .stay _⟩

theorem microLock_run {t : Tid} {m m' : MicroLock.Mem Tid} {th th' : MicroLock.Thread Tid}
    {p : LockPhase Unit} (h : microLockPhase this th = some p)
    (hrun : MicroLock.run t m th = some (m', th')) : ∃ p', microLockPhase this th' = some p' ∧ p.Next p' := by
  obtain ⟨held, pc⟩ := th
  cases pc with
  | idle => cases hrun
  | tryCas | tried => cases h
  | lockCas a | retryCas a =>
      simp only [microLockPhase, Option.ite_none_right_eq_some] at h
      obtain ⟨rfl, h⟩ := h
      obtain ⟨hheld, rfl⟩ := locking_eq_some h
      obtain ⟨rfl, rfl⟩ := Prod.mk.inj (Option.some.inj hrun)
      refine microLock_cas ?_
      simp only [microLockPhase, MicroLock.Thread.at, if_true]
      exact locking_of_free hheld
  | spinCas a i =>
      simp only [microLockPhase, Option.ite_none_right_eq_some] at h
      obtain ⟨rfl, h⟩ := h
      obtain ⟨hheld, rfl⟩ := locking_eq_some h
      obtain ⟨rfl, rfl⟩ := Prod.mk.inj (Option.some.inj hrun)
      refine microLock_cas ?_
      rw [MicroLock.afterSpin]
      split_ifs
      · simp only [microLockPhase, MicroLock.Thread.at, if_true]
        exact locking_of_free hheld
      · simp only [microLockPhase, MicroLock.Thread.at, if_true]
        exact locking_of_free hheld
  | park a pc =>
      simp only [microLockPhase, Option.ite_none_right_eq_some] at h
      obtain ⟨rfl, h⟩ := h
      obtain ⟨hheld, rfl⟩ := locking_eq_some h
      simp only [MicroLock.run, Option.map_eq_some_iff] at hrun
      obtain ⟨⟨state, lot, flow⟩, -, heq⟩ := hrun
      cases heq
      refine ⟨.acquiring (), ?_, .stay _⟩
      cases flow with
      | «at» pc =>
          simp only [microLockPhase, MicroLock.Thread.at, MicroLock.afterPark, if_true]
          exact locking_of_free hheld
      | ret result =>
          simp only [microLockPhase, MicroLock.Thread.at, MicroLock.afterPark, if_true]
          exact locking_of_free hheld
  | unlockStore a =>
      simp only [microLockPhase, Option.ite_none_right_eq_some] at h
      obtain ⟨rfl, h⟩ := h
      obtain ⟨hheld, rfl⟩ := releasing_eq_some h
      cases hrun
      refine ⟨.releasing (), ?_, .stay _⟩
      simp only [microLockPhase, Function.update_self, if_true]
      rfl
  | unpark a pc =>
      simp only [microLockPhase, Option.ite_none_right_eq_some] at h
      obtain ⟨rfl, h⟩ := h
      obtain ⟨hheld, rfl⟩ := releasing_eq_some h
      have hfree : held a = false := by simpa using hheld
      simp only [MicroLock.run, Option.map_eq_some_iff] at hrun
      obtain ⟨⟨state, lot, flow⟩, -, heq⟩ := hrun
      cases heq
      cases flow with
      | «at» pc =>
          refine ⟨.releasing (), ?_, .stay _⟩
          simp only [microLockPhase, MicroLock.Thread.at, MicroLock.afterUnpark, hfree, if_true]
          rfl
      | ret result =>
          refine ⟨.out, ?_, .left ()⟩
          simp only [microLockPhase, MicroLock.Thread.at, MicroLock.afterUnpark, hfree]
          rfl

theorem microLockGuard_lawful : (microLockGuard Tid this).Lawful (fun _ => true) fun _ => True where
  start := rfl
  idle {th p} h := by
    refine idle_eq (fun hquiet => (microLock_idle h hquiet).1) fun hidle => ?_
    simp only [microLockGuard, microLockPhase, hidle] at h
    rw [← Option.some.inj h, resting_quiet]
  acquire h hstep := by
    obtain ⟨hidle, hout⟩ := microLock_idle h rfl
    simp only [microLockGuard, MicroLock.program, MicroLock.step, if_pos hidle] at hstep
    cases hstep
    simp only [microLockGuard, microLockPhase, MicroLock.Thread.at, if_true]
    exact locking_of_free (resting_out (congrArg some hout))
  release h hstep := by
    obtain ⟨hidle, hin⟩ := microLock_idle h rfl
    have hheld := resting_holding (congrArg some hin)
    simp only [microLockGuard, MicroLock.program, MicroLock.step, if_pos (And.intro hidle hheld)] at hstep
    cases hstep
    simp only [microLockGuard, microLockPhase, MicroLock.Thread.at, hheld, if_true]
    rfl
  run h _ hstep := microLock_run h hstep
  afterWait th := by
    obtain ⟨held, pc⟩ := th
    cases pc with
    | park a pc => cases pc <;> rfl
    | _ => rfl
  wake := by
    intro th w p h hwake
    obtain ⟨a, result, hpc, -, hafter⟩ := MicroLock.wake_eq_some hwake
    obtain ⟨held, pc⟩ := th
    cases hpc
    simp only [microLockGuard, microLockPhase, Option.ite_none_right_eq_some] at h
    obtain ⟨rfl, h⟩ := h
    obtain ⟨hheld, rfl⟩ := releasing_eq_some h
    have hfree : held a = false := by simpa using hheld
    refine ⟨rfl, .out, ?_, .left ()⟩
    rw [hafter]
    simp only [microLockGuard, microLockPhase, MicroLock.Thread.at, hfree]
    rfl
  requeue _ := rfl
  exclusive := by
    intro s t u a b h hne ht hu
    have hinv := MicroLock.inv_of_reachable (h.mono fun _ => trivial)
    have hheld : ∀ {v : Tid} {mode}, microLockPhase this (s.thread v) = some (.holding mode) →
        (s.thread v).held this = true := by
      intro v mode hv
      exact resting_holding (congrArg some (microLock_idle hv rfl).2)
    exact absurd ((hinv.owner this).unique t u (hheld ht) (hheld hu)) hne

end MicroLock

/-! ### The reader/writer lock -/

theorem sharedResting_out {th : SharedMutex.Thread} (h : sharedResting th = some .out) :
    th.held = false ∧ th.shared = 0 := by
  obtain ⟨held, shared, pc⟩ := th
  rw [sharedResting] at h
  split at h <;> first | exact ⟨‹_›, ‹_›⟩ | cases h

theorem sharedResting_exclusive {th : SharedMutex.Thread} (h : sharedResting th = some (.holding .exclusive)) :
    th.held = true ∧ th.shared = 0 := by
  obtain ⟨held, shared, pc⟩ := th
  rw [sharedResting] at h
  split at h <;> first | exact ⟨‹_›, ‹_›⟩ | cases h

theorem sharedResting_shared {th : SharedMutex.Thread} (h : sharedResting th = some (.holding .shared)) :
    th.held = false ∧ th.shared = 1 := by
  obtain ⟨held, shared, pc⟩ := th
  rw [sharedResting] at h
  split at h <;> first | exact ⟨‹_›, ‹_›⟩ | cases h

theorem sharedResting_quiet {th : SharedMutex.Thread} {p : LockPhase SharedMode}
    (h : sharedResting th = some p) : p.busy = false := by
  rw [sharedResting] at h
  split at h <;> cases h <;> rfl

theorem shared_idle {th : SharedMutex.Thread} {p : LockPhase SharedMode} (h : sharedPhase th = some p)
    (hquiet : p.busy = false) : th.pc = .idle ∧ sharedResting th = some p := by
  obtain ⟨held, shared, pc⟩ := th
  cases pc with
  | idle => exact ⟨rfl, h⟩
  | tryLock | tried | triedShared => cases h
  | lockFast | register | waitLoad | waitCas | waitFutex | unlockClear | unlockWake | sharedWaitLoad
  | sharedWaitCas | sharedWaitFutex | unlockSharedSub | unlockSharedWake =>
      simp only [sharedPhase, Option.ite_none_right_eq_some] at h
      obtain ⟨-, h⟩ := h
      cases h
      cases hquiet
  | sharedLoad trying | sharedCas trying current =>
      cases trying with
      | true => cases h
      | false =>
          simp only [sharedPhase, Option.ite_none_right_eq_some] at h
          obtain ⟨-, h⟩ := h
          cases h
          cases hquiet

theorem sharedPhase_at (state : U32) :
    sharedPhase ⟨false, 0, SharedMutex.sharedTest false state⟩ = some (.acquiring .shared) := by
  simp only [SharedMutex.sharedTest, Bool.false_eq_true, if_false]
  split_ifs <;> rfl

theorem shared_run {state state' : U32} {th th' : SharedMutex.Thread} {p : LockPhase SharedMode}
    (h : sharedPhase th = some p) (hbusy : p.busy = true)
    (hrun : SharedMutex.run state th = some (state', th')) :
    ∃ p', sharedPhase th' = some p' ∧ p.Next p' := by
  obtain ⟨held, shared, pc⟩ := th
  cases pc with
  | idle | waitFutex | sharedWaitFutex | unlockWake | unlockSharedWake => cases hrun
  | tryLock | tried | triedShared => cases h
  | lockFast | waitCas =>
      simp only [sharedPhase, Option.ite_none_right_eq_some] at h
      obtain ⟨hout, h⟩ := h
      cases h
      obtain ⟨rfl, rfl⟩ := sharedResting_out hout
      simp only [SharedMutex.run] at hrun
      split_ifs at hrun <;> cases hrun
      · exact ⟨_, rfl, .granted _⟩
      · exact ⟨_, rfl, .stay _⟩
  | register =>
      simp only [sharedPhase, Option.ite_none_right_eq_some] at h
      obtain ⟨hout, h⟩ := h
      cases h
      obtain ⟨rfl, rfl⟩ := sharedResting_out hout
      cases hrun
      exact ⟨_, rfl, .stay _⟩
  | waitLoad =>
      simp only [sharedPhase, Option.ite_none_right_eq_some] at h
      obtain ⟨hout, h⟩ := h
      cases h
      obtain ⟨rfl, rfl⟩ := sharedResting_out hout
      simp only [SharedMutex.run] at hrun
      split_ifs at hrun <;> cases hrun <;> exact ⟨_, rfl, .stay _⟩
  | sharedLoad trying =>
      cases trying with
      | true => cases h
      | false =>
          simp only [sharedPhase, Option.ite_none_right_eq_some] at h
          obtain ⟨hout, h⟩ := h
          cases h
          obtain ⟨rfl, rfl⟩ := sharedResting_out hout
          cases hrun
          exact ⟨_, sharedPhase_at state, .stay _⟩
  | sharedCas trying current =>
      cases trying with
      | true => cases h
      | false =>
          simp only [sharedPhase, Option.ite_none_right_eq_some] at h
          obtain ⟨hout, h⟩ := h
          cases h
          obtain ⟨rfl, rfl⟩ := sharedResting_out hout
          simp only [SharedMutex.run, Option.some.injEq] at hrun
          split_ifs at hrun
          · obtain ⟨-, rfl⟩ := Prod.mk.inj hrun
            exact ⟨_, rfl, .granted _⟩
          · obtain ⟨-, rfl⟩ := Prod.mk.inj hrun
            exact ⟨_, sharedPhase_at state, .stay _⟩
  | sharedWaitLoad =>
      simp only [sharedPhase, Option.ite_none_right_eq_some] at h
      obtain ⟨hout, h⟩ := h
      cases h
      obtain ⟨rfl, rfl⟩ := sharedResting_out hout
      simp only [SharedMutex.run, Option.some.injEq] at hrun
      obtain ⟨-, rfl⟩ := Prod.mk.inj hrun
      simp only [SharedMutex.Thread.at]
      split_ifs <;> exact ⟨_, rfl, .stay _⟩
  | sharedWaitCas =>
      simp only [sharedPhase, Option.ite_none_right_eq_some] at h
      obtain ⟨hout, h⟩ := h
      cases h
      obtain ⟨rfl, rfl⟩ := sharedResting_out hout
      simp only [SharedMutex.run, Option.some.injEq] at hrun
      split_ifs at hrun
      · obtain ⟨-, rfl⟩ := Prod.mk.inj hrun
        exact ⟨_, rfl, .granted _⟩
      · obtain ⟨-, rfl⟩ := Prod.mk.inj hrun
        exact ⟨_, rfl, .stay _⟩
  | unlockClear =>
      simp only [sharedPhase, Option.ite_none_right_eq_some] at h
      obtain ⟨hin, h⟩ := h
      cases h
      obtain ⟨rfl, rfl⟩ := sharedResting_exclusive hin
      cases hrun
      exact ⟨_, rfl, .stay _⟩
  | unlockSharedSub =>
      simp only [sharedPhase, Option.ite_none_right_eq_some] at h
      obtain ⟨hin, h⟩ := h
      cases h
      obtain ⟨rfl, rfl⟩ := sharedResting_shared hin
      cases hrun
      split_ifs
      · exact ⟨_, rfl, .stay _⟩
      · exact ⟨_, rfl, .left _⟩

theorem sharedMutexGuard_lawful : (sharedMutexGuard Tid).Lawful SharedMode.writes SharedFits where
  start := rfl
  idle {th p} h := by
    refine idle_eq (fun hquiet => (shared_idle h hquiet).1) fun hidle => ?_
    simp only [sharedMutexGuard, sharedPhase, hidle] at h
    exact sharedResting_quiet h
  acquire := by
    intro t m th m' th' mode h hstep
    obtain ⟨hidle, hout⟩ := shared_idle h rfl
    obtain ⟨held, shared, pc⟩ := th
    obtain ⟨rfl, rfl⟩ := sharedResting_out hout
    cases hidle
    cases mode <;> cases hstep <;> rfl
  release := by
    intro t m th m' th' mode h hstep
    obtain ⟨hidle, hin⟩ := shared_idle h rfl
    obtain ⟨held, shared, pc⟩ := th
    cases hidle
    cases mode with
    | exclusive =>
        obtain ⟨rfl, rfl⟩ := sharedResting_exclusive hin
        cases hstep
        rfl
    | shared =>
        obtain ⟨rfl, rfl⟩ := sharedResting_shared hin
        cases hstep
        rfl
  run h hbusy hstep := shared_run h hbusy hstep
  afterWait th := by
    obtain ⟨held, shared, pc⟩ := th
    cases pc <;> rfl
  wake := by
    intro th w p h hwake
    obtain ⟨hwaking, -, rfl⟩ := SharedMutex.wake_eq_some hwake
    obtain ⟨held, shared, pc⟩ := th
    cases pc with
    | unlockWake | unlockSharedWake =>
        simp only [sharedMutexGuard, sharedPhase, Option.ite_none_right_eq_some] at h
        obtain ⟨hout, h⟩ := h
        cases h
        exact ⟨rfl, .out, hout, .left _⟩
    | _ => cases hwaking
  requeue _ := rfl
  exclusive := by
    intro s t u a b h hne ht hu
    have hinv := SharedMutex.inv_of_reachable (h.mono fun hok => hok.2)
    obtain ⟨-, hht⟩ := shared_idle ht rfl
    obtain ⟨-, hhu⟩ := shared_idle hu rfl
    cases a with
    | shared => rfl
    | exclusive =>
        obtain ⟨honly, hnone⟩ := hinv.exclusive (sharedResting_exclusive hht).1
        cases b with
        | exclusive => exact absurd (honly u (sharedResting_exclusive hhu).1).symm hne
        | shared =>
            have hone := (sharedResting_shared hhu).2
            rw [hnone u] at hone
            cases hone

/-! ### Batches -/

/-- **`batch_execute` is serializable** on every exclusive lock. -/
theorem batch_execute_serializable (hcard : Fintype.card Tid < 2 ^ 31) (this : U64) :
    Serializes (mutexGuard Tid) ∧ Serializes (spinLockGuard Tid) ∧ Serializes (ticketLockGuard Tid) ∧
      Serializes (microLockGuard Tid this) :=
  ⟨fun _ _ _ _ _ => (mutexGuard_lawful hcard).serializable nofun,
    fun _ _ _ _ _ => spinLockGuard_lawful.serializable nofun,
    fun _ _ _ _ _ => (ticketLockGuard_lawful hcard).serializable nofun,
    fun _ _ _ _ _ => microLockGuard_lawful.serializable nofun⟩

/-- A batch of additions. -/
def addAll : List ℕ × ℕ → Option (List ℕ × ℕ)
  | (n :: ns, x) => some (ns, x + n)
  | ([], _) => none

/-- While `a` adds 1 and 2, `b` waits for the spinlock with a batch that adds 4. -/
theorem batch_execute_serializable_waiting :
    ∃ w : State Runner U32 SpinLock.Thread Empty Unit (List ℕ) ℕ,
      Serializable (fun _ => addAll) (fun _ => true) 0 (fun t => (w.1.thread t).stage) w.1.mem.2 w.2 ∧
        w.2 = [⟨.a, (), [1, 2], []⟩] ∧ (w.1.thread .b).stage = .inside () [4] [] ∧ w.1.mem.2 = 7 := by
  refine ⟨_, (@batch_execute_serializable Runner _ _ (by decide) 0).2.1 _ _ addAll 0 _ (.of_run
    [.step .a (.batch () [1, 2]), .step .a .run, .step .b (.batch () [4]), .step .b .run, .step .a .run,
      .step .a .run, .step .b .run, .step .a .run, .step .a .run, .step .a .run, .step .b .run,
      .step .b .run, .step .b .run, .step .b .run]
    (by decide)), ?_⟩
  decide

/-- **Batches on a `SharedMutex` are serializable**: those that read run at the same time. -/
theorem shared_batches_serializable {K X : Type*} {func : SharedMode → K × X → Option (K × X)} {x : X}
    {w : SharedState Tid K X} (hreads : ReadsOnly func SharedMode.writes)
    (h : ((sharedMutexGuard Tid).observed func x).Reachable sharedLimits w) :
    Serializable func SharedMode.writes x (fun t => (w.1.thread t).stage) w.1.mem.2 w.2 :=
  sharedMutexGuard_lawful.serializable hreads h

/-- A batch that reads takes the sum of what it finds. -/
def readOrAdd : SharedMode → List ℕ × ℕ → Option (List ℕ × ℕ)
  | .exclusive, p => addAll p
  | .shared, (0 :: ns, x) => some (x :: ns, x)
  | .shared, _ => none

/-- Two batches read at the same time what a batch of `a` has left. -/
theorem shared_batches_serializable_readers : ∃ w : SharedState Runner (List ℕ) ℕ,
    Serializable readOrAdd SharedMode.writes 0 (fun t => (w.1.thread t).stage) w.1.mem.2 w.2 ∧
      (w.1.thread .b).stage = .inside .shared [0] [3] ∧ (w.1.thread .c).stage = .inside .shared [0] [3] := by
  refine ⟨_, @shared_batches_serializable _ _ _ _ _ readOrAdd 0 _ ?_ (.of_run
    [.step .a (.batch .exclusive [3]), .step .a .run, .step .a .run, .step .a .run, .step .a .run,
      .step .a .run, .step .b (.batch .shared [0]), .step .b .run, .step .b .run, .step .b .run,
      .step .c (.batch .shared [0]), .step .c .run, .step .c .run, .step .c .run, .step .b .run,
      .step .c .run] (by decide)), ?_⟩
  · rintro (_ | _) (_ | ⟨_ | n, ns⟩) k' y y' hwrites hfunc <;> cases hwrites <;> cases hfunc
    rfl
  · decide

end Psync.Batch
