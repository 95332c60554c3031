import Mathlib.Order.Interval.Finset.Nat
import Psync.RunProgress
import Psync.BatchSerial
import Psync.MutexWakeup

/-! What batches need of the mutex, the spinlock and the ticket lock to come to an end: a thread in `unlock`
can finish the call alone, and while nobody holds the lock some thread in `lock` can get it alone. -/

namespace Psync.Batch

open Concurrency LockCode

set_option linter.unusedSectionVars false

variable {Tid : Type*} [DecidableEq Tid] [Fintype Tid]

theorem waits_resting {held : Bool} (h : LockPhase.Waits (some (resting held))) : held = false := by
  cases held with
  | false => rfl
  | true => rcases h with h | ⟨mode, h⟩ <;> cases h

theorem waits_locking {held : Bool} (h : LockPhase.Waits (locking held)) : held = false := by
  obtain ⟨p, hp⟩ := h.eq_some
  exact (locking_eq_some hp).1

theorem not_waits_releasing {inside : Bool} (h : LockPhase.Waits (releasing inside)) : False := by
  rcases h with h | ⟨mode, h⟩
  · cases (releasing_eq_some h).2
  · cases (releasing_eq_some h).2

/-! ### The mutex -/

section Mutex

variable {s : Config Tid U32 Mutex.Thread Unit} {t : Tid}

theorem mutex_unlockWake (awake : s.asleep t = none) (hthread : s.thread t = ⟨false, .unlockWake⟩) :
    (mutexGuard Tid).Reaches s t .out := by
  have hwake : (mutexGuard Tid).code.wake (s.thread t) = some (futex.wake () 1 ⟨false, .idle⟩) := by
    rw [hthread]
    rfl
  refine .wake (fun th => ?_) awake hwake rfl
  obtain ⟨held, pc⟩ := th
  cases pc <;> rfl

theorem mutex_unlockClear (awake : s.asleep t = none) (hthread : s.thread t = ⟨true, .unlockClear⟩) :
    (mutexGuard Tid).Reaches s t .out := by
  have hstep : (mutexGuard Tid).code.step t .run s.mem (s.thread t) =
      some (s.mem &&& ~~~Mutex.lockedFlag, ⟨false, .unlockWake⟩) := by
    rw [hthread]
    rfl
  exact .step awake hstep fun s' awake' _ hthread' => mutex_unlockWake awake' hthread'

theorem mutex_unlockReload (awake : s.asleep t = none) (hthread : s.thread t = ⟨true, .unlockReload⟩) :
    (mutexGuard Tid).Reaches s t .out := by
  have hstep : (mutexGuard Tid).code.step t .run s.mem (s.thread t) = some (s.mem, ⟨true, .unlockClear⟩) := by
    rw [hthread]
    rfl
  exact .step awake hstep fun s' awake' _ hthread' => mutex_unlockClear awake' hthread'

theorem mutex_unlockCas (awake : s.asleep t = none) (hthread : s.thread t = ⟨true, .unlockCas⟩) :
    (mutexGuard Tid).Reaches s t .out := by
  have hstep : (mutexGuard Tid).code.step t .run s.mem (s.thread t) =
      some (if s.mem = Mutex.lockedNoWaiters then (Mutex.unlocked, ⟨false, .idle⟩)
        else (s.mem, ⟨true, .unlockReload⟩)) := by
    rw [hthread]
    rfl
  split_ifs at hstep
  · exact .last awake hstep rfl
  · exact .step awake hstep fun s' awake' _ hthread' => mutex_unlockReload awake' hthread'

theorem mutex_unlockLoad (awake : s.asleep t = none) (hthread : s.thread t = ⟨true, .unlockLoad⟩) :
    (mutexGuard Tid).Reaches s t .out := by
  have hstep : (mutexGuard Tid).code.step t .run s.mem (s.thread t) =
      some (s.mem, ⟨true, if s.mem = Mutex.lockedNoWaiters then .unlockCas else .unlockClear⟩) := by
    rw [hthread]
    rfl
  split_ifs at hstep
  · exact .step awake hstep fun s' awake' _ hthread' => mutex_unlockCas awake' hthread'
  · exact .step awake hstep fun s' awake' _ hthread' => mutex_unlockClear awake' hthread'

theorem mutex_finish (awake : s.asleep t = none) (h : mutexPhase (s.thread t) = some (.releasing ())) :
    (mutexGuard Tid).Reaches s t .out := by
  generalize hthread : s.thread t = th at h
  obtain ⟨held, pc⟩ := th
  cases pc with
  | idle => cases held <;> cases h
  | tryLock | tried => cases h
  | lockFast | spin | register | waitLoad | waitCas | waitFutex =>
      obtain ⟨-, heq⟩ := locking_eq_some h
      cases heq
  | unlockLoad =>
      obtain ⟨rfl, -⟩ := releasing_eq_some h
      exact mutex_unlockLoad awake hthread
  | unlockCas =>
      obtain ⟨rfl, -⟩ := releasing_eq_some h
      exact mutex_unlockCas awake hthread
  | unlockReload =>
      obtain ⟨rfl, -⟩ := releasing_eq_some h
      exact mutex_unlockReload awake hthread
  | unlockClear =>
      obtain ⟨rfl, -⟩ := releasing_eq_some h
      exact mutex_unlockClear awake hthread
  | unlockWake =>
      obtain ⟨hheld, -⟩ := releasing_eq_some h
      obtain rfl : held = false := by simpa using hheld
      exact mutex_unlockWake awake hthread

/-- The CAS of a waiter on a word that is free. -/
theorem mutex_waitCas {current : U32} (awake : s.asleep t = none)
    (hthread : s.thread t = ⟨false, .waitCas current⟩) (hsame : s.mem = current) :
    (mutexGuard Tid).Reaches s t (.holding ()) := by
  have hstep : (mutexGuard Tid).code.step t .run s.mem (s.thread t) =
      some ((current - Mutex.waiterIncrement) ||| Mutex.lockedFlag, ⟨true, .idle⟩) := by
    rw [hthread]
    exact congrArg some (if_pos hsame)
  exact .last awake hstep rfl

theorem mutex_waitLoad (awake : s.asleep t = none) (hthread : s.thread t = ⟨false, .waitLoad⟩)
    (hfree : s.mem &&& Mutex.lockedFlag = 0) : (mutexGuard Tid).Reaches s t (.holding ()) := by
  have hstep : (mutexGuard Tid).code.step t .run s.mem (s.thread t) = some (s.mem, ⟨false, .waitCas s.mem⟩) := by
    rw [hthread]
    simp only [mutexGuard, Mutex.program, Mutex.step, Mutex.run, if_pos hfree]
    rfl
  exact .step awake hstep fun s' awake' hmem hthread' => mutex_waitCas awake' hthread' hmem

/-- A registered thread that is awake gets a free mutex. -/
theorem mutex_grant_registered (hinv : Mutex.Inv s) (awake : s.asleep t = none)
    (hfree : s.mem &&& Mutex.lockedFlag = 0) (hheld : (s.thread t).held = false)
    (hreg : (s.thread t).registered = true) : (mutexGuard Tid).Reaches s t (.holding ()) := by
  have hok := hinv.ok t
  generalize hthread : s.thread t = th at hok hheld hreg
  obtain ⟨held, pc⟩ := th
  cases hheld
  cases pc with
  | waitLoad => exact mutex_waitLoad awake hthread hfree
  | waitCas current =>
      by_cases hsame : s.mem = current
      · exact mutex_waitCas awake hthread hsame
      · have hstep : (mutexGuard Tid).code.step t .run s.mem (s.thread t) = some (s.mem, ⟨false, .waitLoad⟩) := by
          rw [hthread]
          exact congrArg some (if_neg hsame)
        exact .step awake hstep fun s' awake' hmem hthread' => mutex_waitLoad awake' hthread' (hmem ▸ hfree)
  | waitFutex current =>
      -- the flag was set when the word was copied
      have hodd := hok.waitFutex current rfl
      have hchanged : s.mem ≠ current := by
        rintro rfl
        rw [Mutex.locked_iff] at hfree
        omega
      have hwait : (mutexGuard Tid).code.wait (s.thread t) = some (futex.wait () id current ⟨false, .waitLoad⟩) := by
        rw [hthread]
        rfl
      refine .ret awake hwait (decide_eq_false hchanged) fun s' awake' hmem hthread' => ?_
      exact mutex_waitLoad awake' hthread' (hmem ▸ hfree)
  | _ => cases hreg

/-- While nobody is registered, a thread that locks gets a free mutex. -/
theorem mutex_grant_plain (awake : s.asleep t = none) (hzero : s.mem = 0)
    (h : mutexPhase (s.thread t) = some (.acquiring ())) (hreg : (s.thread t).registered = false) :
    (mutexGuard Tid).Reaches s t (.holding ()) := by
  generalize hthread : s.thread t = th at h hreg
  obtain ⟨held, pc⟩ := th
  cases pc with
  | idle => cases held <;> cases h
  | tryLock | tried => cases h
  | unlockLoad | unlockCas | unlockReload | unlockClear | unlockWake =>
      obtain ⟨-, heq⟩ := releasing_eq_some h
      cases heq
  | waitLoad | waitCas | waitFutex => cases hreg
  | lockFast | spin =>
      have hstep : (mutexGuard Tid).code.step t .run s.mem (s.thread t) =
          some (Mutex.lockedNoWaiters, ⟨true, .idle⟩) := by
        rw [hthread]
        exact congrArg some (if_pos hzero)
      exact .last awake hstep rfl
  | register =>
      obtain ⟨rfl, -⟩ := locking_eq_some h
      have hstep : (mutexGuard Tid).code.step t .run s.mem (s.thread t) =
          some (s.mem + Mutex.waiterIncrement, ⟨false, .waitLoad⟩) := by
        rw [hthread]
        rfl
      refine .step awake hstep fun s' awake' hmem hthread' => mutex_waitLoad awake' hthread' ?_
      rw [hmem, hzero]
      decide

theorem mutex_waiting {th : Mutex.Thread} (h : LockPhase.Waits (mutexPhase th)) :
    th.held = false ∧ th.waking = false := by
  obtain ⟨held, pc⟩ := th
  cases pc with
  | idle => exact ⟨waits_resting h, rfl⟩
  | tryLock | tried => exact (LockPhase.not_waits_none h).elim
  | lockFast | spin | register | waitLoad | waitCas | waitFutex => exact ⟨waits_locking h, rfl⟩
  | unlockLoad | unlockCas | unlockReload | unlockClear | unlockWake => exact (not_waits_releasing h).elim

theorem mutexGuard_finishing (hcard : Fintype.card Tid < 2 ^ 31) :
    (mutexGuard Tid).Finishing fun _ => True where
  idle := by
    intro th p h hquiet
    obtain ⟨hidle, -⟩ := mutex_idle h hquiet
    obtain ⟨held, pc⟩ := th
    cases hidle
    exact ⟨fun _ _ => rfl, rfl⟩
  release := by
    intro t m th mode h
    obtain ⟨hidle, hin⟩ := mutex_idle h rfl
    have hheld := resting_holding (congrArg some hin)
    simp only [mutexGuard, Mutex.program, Mutex.step, if_pos (And.intro hidle hheld), Option.isSome_some]
  finish := by
    intro s t mode h _ ht
    have hw := Mutex.wakeup_of_reachable hcard (h.mono fun _ => trivial)
    refine ⟨t, (), ht, mutex_finish ?_ ht⟩
    cases hsleep : s.asleep t with
    | none => rfl
    | some a =>
        have hreg := hw.sleeper t hsleep
        generalize s.thread t = th at ht hreg
        obtain ⟨held, pc⟩ := th
        cases pc with
        | waitLoad | waitCas | waitFutex => cases (locking_eq_some ht).2
        | _ => cases hreg
  grant := by
    intro s t mode h hfree ht
    have hinv := Mutex.inv_of_reachable hcard (h.mono fun _ => trivial)
    have hw := Mutex.wakeup_of_reachable hcard (h.mono fun _ => trivial)
    have hclear : s.mem &&& Mutex.lockedFlag = 0 := by
      by_contra hlocked
      obtain ⟨u, hu⟩ := hinv.locked.mp hlocked
      rw [(mutex_waiting (hfree u)).1] at hu
      cases hu
    have hacquiring : ∀ {u}, (s.thread u).registered = true →
        (mutexGuard Tid).phase (s.thread u) = some (.acquiring ()) := by
      intro u hu
      rcases hfree u with hout | ⟨mode, hacquiring⟩
      · rw [Mutex.Thread.registered, (mutex_idle hout rfl).1] at hu
        cases hu
      · exact hacquiring
    by_cases hreg : ∃ u, (s.thread u).registered = true
    · obtain ⟨u, hu, awake⟩ : ∃ u, (s.thread u).registered = true ∧ s.asleep u = none := by
        obtain ⟨u, hu⟩ := hreg
        cases hsleep : s.asleep u with
        | none => exact ⟨u, hu, hsleep⟩
        | some a =>
            rcases hw.attended hclear ⟨u, hsleep⟩ with ⟨v, hv⟩ | hawake
            · rw [(mutex_waiting (hfree v)).2] at hv
              cases hv
            · exact hawake
      exact ⟨u, (), hacquiring hu, mutex_grant_registered hinv awake hclear (mutex_waiting (hfree u)).1 hu⟩
    · have hnone : ∀ u, (s.thread u).registered = false := by
        intro u
        exact Bool.eq_false_iff.mpr fun hu => hreg ⟨u, hu⟩
      have hzero : s.mem = 0 := by
        have hword := hinv.word
        rw [count_eq_zero.mpr hnone, count_eq_zero.mpr fun u => (mutex_waiting (hfree u)).1] at hword
        exact (MachineWord.eq_zero_iff _).mpr hword
      refine ⟨t, (), ht, mutex_grant_plain ?_ hzero ht (hnone t)⟩
      cases hsleep : s.asleep t with
      | none => rfl
      | some a =>
          have hu := hw.sleeper t hsleep
          rw [hnone t] at hu
          cases hu
  fits _ _ := trivial

end Mutex

/-! ### The spinlock -/

section SpinLock

variable {s : Config Tid U32 SpinLock.Thread Empty} {t : Tid}

theorem spinLock_unlock (awake : s.asleep t = none) (h : spinLockPhase (s.thread t) = some (.releasing ())) :
    (spinLockGuard Tid).Reaches s t .out := by
  generalize hthread : s.thread t = th at h
  obtain ⟨held, pc⟩ := th
  cases pc with
  | idle => cases held <;> cases h
  | tryCas | tried => cases h
  | lockFast | load | lockCas => cases (locking_eq_some h).2
  | unlock =>
      have hstep : (spinLockGuard Tid).code.step t .run s.mem (s.thread t) = some (0, ⟨false, .idle⟩) := by
        rw [hthread]
        rfl
      exact .last awake hstep rfl

theorem spinLock_lockCas {backoff : ℕ} (awake : s.asleep t = none)
    (hthread : s.thread t = ⟨false, .lockCas backoff⟩) (hfree : s.mem = 0) :
    (spinLockGuard Tid).Reaches s t (.holding ()) := by
  have hstep : (spinLockGuard Tid).code.step t .run s.mem (s.thread t) = some (1, ⟨true, .idle⟩) := by
    rw [hthread]
    exact congrArg some (if_pos hfree)
  exact .last awake hstep rfl

theorem spinLock_grant (awake : s.asleep t = none) (hfree : s.mem = 0)
    (h : spinLockPhase (s.thread t) = some (.acquiring ())) : (spinLockGuard Tid).Reaches s t (.holding ()) := by
  generalize hthread : s.thread t = th at h
  obtain ⟨held, pc⟩ := th
  cases pc with
  | idle => cases held <;> cases h
  | tryCas | tried => cases h
  | unlock => cases (releasing_eq_some h).2
  | lockFast =>
      have hstep : (spinLockGuard Tid).code.step t .run s.mem (s.thread t) = some (1, ⟨true, .idle⟩) := by
        rw [hthread]
        exact congrArg some (if_pos hfree)
      exact .last awake hstep rfl
  | lockCas backoff =>
      obtain ⟨rfl, -⟩ := locking_eq_some h
      exact spinLock_lockCas awake hthread hfree
  | load backoff =>
      obtain ⟨rfl, -⟩ := locking_eq_some h
      have hstep : (spinLockGuard Tid).code.step t .run s.mem (s.thread t) =
          some (s.mem, ⟨false, .lockCas backoff⟩) := by
        rw [hthread]
        simp only [spinLockGuard, SpinLock.program, SpinLock.step, SpinLock.run, hfree, ne_eq, not_true_eq_false,
          if_false]
        rfl
      exact .step awake hstep fun s' awake' hmem hthread' => spinLock_lockCas awake' hthread' (hmem.trans hfree)

theorem spinLock_waiting {th : SpinLock.Thread} (h : LockPhase.Waits (spinLockPhase th)) : th.held = false := by
  obtain ⟨held, pc⟩ := th
  cases pc with
  | idle => exact waits_resting h
  | tryCas | tried => exact (LockPhase.not_waits_none h).elim
  | lockFast | load | lockCas => exact waits_locking h
  | unlock => exact (not_waits_releasing h).elim

theorem spinLockGuard_finishing : (spinLockGuard Tid).Finishing fun _ => True where
  idle := by
    intro th p h hquiet
    obtain ⟨hidle, -⟩ := spinLock_idle h hquiet
    obtain ⟨held, pc⟩ := th
    cases hidle
    exact ⟨fun _ _ => rfl, rfl⟩
  release := by
    intro t m th mode h
    obtain ⟨hidle, hin⟩ := spinLock_idle h rfl
    have hheld := resting_holding (congrArg some hin)
    simp only [spinLockGuard, SpinLock.program, SpinLock.step, if_pos (And.intro hidle hheld), Option.isSome_some]
  finish := by
    intro s t mode _ _ ht
    exact ⟨t, (), ht, spinLock_unlock (s.never_asleep t) ht⟩
  grant := by
    intro s t mode h hfree ht
    have hinv := SpinLock.inv_of_reachable h
    have hone : s.mem ≠ 1 := by
      intro hone
      obtain ⟨u, hu⟩ := hinv.guards.iff.mp hone
      rw [spinLock_waiting (hfree u)] at hu
      cases hu
    exact ⟨t, (), ht, spinLock_grant (s.never_asleep t) (hinv.word.resolve_right hone) ht⟩
  fits _ _ := trivial

end SpinLock

/-! ### The ticket lock -/

section TicketLock

variable {s : TicketLock.State Tid} {t : Tid}

theorem ticketLock_unlock (awake : s.asleep t = none) (h : ticketLockPhase (s.thread t) = some (.releasing ())) :
    (ticketLockGuard Tid).Reaches s t .out := by
  generalize hthread : s.thread t = th at h
  obtain ⟨held, pc⟩ := th
  cases pc with
  | idle => cases held <;> cases h
  | tryServing | tryNext | tryCas | tried => cases h
  | draw | spin => cases (locking_eq_some h).2
  | unlock =>
      have hstep : (ticketLockGuard Tid).code.step t .run s.mem (s.thread t) =
          some ({ s.mem with nowServing := s.mem.nowServing + 1 }, ⟨false, .idle⟩) := by
        rw [hthread]
        rfl
      exact .last awake hstep rfl

/-- The load that finds its ticket served. -/
theorem ticketLock_spin {myTicket : U32} (awake : s.asleep t = none) (hpc : (s.thread t).pc = .spin myTicket)
    (hserved : s.mem.nowServing = myTicket) : (ticketLockGuard Tid).Reaches s t (.holding ()) := by
  have hstep : (ticketLockGuard Tid).code.step t .run s.mem (s.thread t) = some (s.mem, ⟨true, .idle⟩) := by
    simp only [ticketLockGuard, TicketLock.program, TicketLock.step, TicketLock.run, hpc, if_pos hserved]
  exact .last awake hstep rfl

theorem ticketLock_draw (awake : s.asleep t = none) (hpc : (s.thread t).pc = .draw)
    (hnone : s.mem.nowServing = s.mem.nextTicket) : (ticketLockGuard Tid).Reaches s t (.holding ()) := by
  have hstep : (ticketLockGuard Tid).code.step t .run s.mem (s.thread t) =
      some ({ s.mem with nextTicket := s.mem.nextTicket + 1 }, (s.thread t).at (.spin s.mem.nextTicket)) := by
    simp only [ticketLockGuard, TicketLock.program, TicketLock.step, TicketLock.run, hpc]
  refine .step awake hstep fun s' awake' hmem hthread' => ticketLock_spin awake' (congrArg _ hthread') ?_
  rw [hmem]
  exact hnone

/-- The tickets of those who wait are all the numbers from the one that is served, so one of them is. -/
theorem ticketLock_next {h : TicketLock.History Tid} (hinv : TicketLock.Inv s h)
    (hfree : ∀ u, (s.thread u).held = false) (hwaits : ∃ u, (s.thread u).waiting = true) :
    ∃ u myTicket, (s.thread u).pc = .spin myTicket ∧ s.mem.nowServing = myTicket := by
  have hnone : count TicketLock.Thread.held s.thread = 0 := count_eq_zero.mpr hfree
  have hgranted : h.granted.length = h.served := by rw [hinv.granted, hnone, Nat.add_zero]
  have hspin : ∀ {u}, (s.thread u).waiting = true → ∃ myTicket, (s.thread u).pc = .spin myTicket := by
    intro u hu
    generalize s.thread u = th at hu
    obtain ⟨held, pc⟩ := th
    cases pc with
    | spin myTicket => exact ⟨myTicket, rfl⟩
    | _ => cases hu
  have hsub : (Finset.univ.filter fun u => (s.thread u).waiting = true).image h.ticket ⊆
      Finset.Ico h.served h.drawn.length := by
    refine Finset.image_subset_iff.mpr fun u hu => ?_
    obtain ⟨myTicket, hpc⟩ := hspin (by simpa using hu)
    obtain ⟨-, hle, hget⟩ := hinv.waits u myTicket hpc
    exact Finset.mem_Ico.mpr ⟨hgranted ▸ hle, (List.getElem?_eq_some_iff.mp hget).1⟩
  have hinj : Set.InjOn h.ticket (Finset.univ.filter fun u => (s.thread u).waiting = true) := by
    intro u hu v hv heq
    obtain ⟨ticketU, hpcU⟩ := hspin (by simpa using hu)
    obtain ⟨ticketV, hpcV⟩ := hspin (by simpa using hv)
    have hgetU := (hinv.waits u ticketU hpcU).2.2
    rw [heq, (hinv.waits v ticketV hpcV).2.2] at hgetU
    exact (Option.some.inj hgetU).symm
  have hcard : (Finset.univ.filter fun u => (s.thread u).waiting = true).card =
      (Finset.Ico h.served h.drawn.length).card := by
    rw [Nat.card_Ico, ← hinv.total, TicketLock.outstanding, hnone, Nat.zero_add, Nat.add_sub_cancel_left, count]
  have himage := Finset.eq_of_subset_of_card_le hsub (by rw [Finset.card_image_of_injOn hinj, hcard])
  have hserved : h.served ∈ Finset.Ico h.served h.drawn.length := by
    have hpos := count_pos.mpr hwaits
    rw [Finset.mem_Ico, ← hinv.total, TicketLock.outstanding]
    omega
  rw [← himage] at hserved
  obtain ⟨u, hu, hticket⟩ := Finset.mem_image.mp hserved
  obtain ⟨myTicket, hpc⟩ := hspin (by simpa using hu)
  exact ⟨u, myTicket, hpc, by rw [hinv.nowServing, (hinv.waits u myTicket hpc).1, hticket]⟩

theorem ticketLock_waiting {th : TicketLock.Thread} (h : LockPhase.Waits (ticketLockPhase th)) :
    th.held = false := by
  obtain ⟨held, pc⟩ := th
  cases pc with
  | idle => exact waits_resting h
  | tryServing | tryNext | tryCas | tried => exact (LockPhase.not_waits_none h).elim
  | draw | spin => exact waits_locking h
  | unlock => exact (not_waits_releasing h).elim

/-- Whoever locks has drawn a ticket, or is going to. -/
theorem ticketLock_acquiring {th : TicketLock.Thread} (h : ticketLockPhase th = some (.acquiring ())) :
    th.pc = .draw ∨ th.waiting = true := by
  obtain ⟨held, pc⟩ := th
  cases pc with
  | idle => cases held <;> cases h
  | tryServing | tryNext | tryCas | tried => cases h
  | unlock => cases (releasing_eq_some h).2
  | draw => exact Or.inl rfl
  | spin => exact Or.inr rfl

theorem ticketLock_of_spin {th : TicketLock.Thread} {myTicket : U32} (hpc : th.pc = .spin myTicket)
    (hfree : th.held = false) : ticketLockPhase th = some (.acquiring ()) := by
  simp only [ticketLockPhase, hpc]
  exact locking_of_free hfree

theorem ticketLockGuard_finishing (hcard : Fintype.card Tid < 2 ^ 31) :
    (ticketLockGuard Tid).Finishing fun _ => True where
  idle := by
    intro th p h hquiet
    obtain ⟨hidle, -⟩ := ticketLock_idle h hquiet
    obtain ⟨held, pc⟩ := th
    cases hidle
    exact ⟨fun _ _ => rfl, rfl⟩
  release := by
    intro t m th mode h
    obtain ⟨hidle, hin⟩ := ticketLock_idle h rfl
    have hheld := resting_holding (congrArg some hin)
    simp only [ticketLockGuard, TicketLock.program, TicketLock.step, if_pos (And.intro hidle hheld),
      Option.isSome_some]
  finish := by
    intro s t mode _ _ ht
    exact ⟨t, (), ht, ticketLock_unlock (s.never_asleep t) ht⟩
  grant := by
    intro s t mode h hphases ht
    obtain ⟨hist, hinv⟩ := ticketLock_history hcard h
    have hfree : ∀ u, (s.thread u).held = false := fun u => ticketLock_waiting (hphases u)
    by_cases hwaits : ∃ u, (s.thread u).waiting = true
    · obtain ⟨u, myTicket, hpc, hserved⟩ := ticketLock_next hinv hfree hwaits
      exact ⟨u, (), ticketLock_of_spin hpc (hfree u), ticketLock_spin (s.never_asleep u) hpc hserved⟩
    · have hnone : TicketLock.outstanding s = 0 := by
        have hwaiting : count TicketLock.Thread.waiting s.thread = 0 :=
          count_eq_zero.mpr fun u => Bool.eq_false_iff.mpr fun hu => hwaits ⟨u, hu⟩
        rw [TicketLock.outstanding, count_eq_zero.mpr hfree, hwaiting]
      have hdraw := (ticketLock_acquiring ht).resolve_right fun hu => hwaits ⟨t, hu⟩
      refine ⟨t, (), ht, ticketLock_draw (s.never_asleep t) hdraw ?_⟩
      rw [hinv.nowServing, hinv.nextTicket, ← hinv.total, hnone, Nat.add_zero]
  fits _ _ := trivial

end TicketLock

end Psync.Batch
