import Psync.CondvarTimed

/-! What the timed waits promise. A wait asks the kernel for no more than its duration, reports a timeout
only after that duration without a notification, and answers `false` only under the lock, with a false
predicate and the deadline behind it. The two loads of `seq_` tell the number of notifications between
them only modulo `2 ^ 32`, and nothing about the time. -/

namespace Psync.ConditionVariable.Timed

open Concurrency

variable {Tid D : Type*}

/-- Between its calls of `lock.unlock()` and `lock.lock()` a wait does not own the lock; otherwise it does. -/
def Pc.holding : Pc D → Bool
  | .idle | .futex .. | .asleep .. | .lock .. => false
  | _ => true

/-! ### Machine words -/

theorem nanos_eq (relTime : I64) : (futex.linuxTimeout (nanoseconds relTime)).nanos = relTime.toNat :=
  (futex.linux_faithful _).exact

/-- The kernel is asked for no more than the duration, unless the duration is negative. -/
theorem nanos_le_iff (relTime : I64) :
    (futex.linuxTimeout (nanoseconds relTime)).nanos ≤ max relTime.toInt 0 ↔ 0 ≤ relTime.toInt := by
  have hlt := relTime.isLt
  rw [nanos_eq, BitVec.toInt_eq_toNat_cond]
  split_ifs <;> omega

theorem nanos_of_nonneg {relTime : I64} (h : 0 ≤ relTime.toInt) :
    (futex.linuxTimeout (nanoseconds relTime)).nanos = relTime.toInt := by
  have hlt := relTime.isLt
  rw [nanos_eq]
  rw [BitVec.toInt_eq_toNat_cond] at h ⊢
  split_ifs at h ⊢ <;> omega

theorem toInt_add_of_fits {x y : I64} (h : Fits (x.toInt + y.toInt)) :
    (x + y).toInt = x.toInt + y.toInt := by
  obtain ⟨hlo, hhi⟩ := h
  rw [BitVec.toInt_add, Int.bmod_eq_of_le (by omega) (by omega)]

theorem toInt_sub_of_fits {x y : I64} (h : Fits (x.toInt - y.toInt)) :
    (x - y).toInt = x.toInt - y.toInt := by
  obtain ⟨hlo, hhi⟩ := h
  rw [BitVec.toInt_sub, Int.bmod_eq_of_le (by omega) (by omega)]

/-- Two loads of `seq_` agree if and only if a multiple of `2 ^ 32` notifications came between them. -/
theorem ofNat_eq_iff_dvd {n loaded : ℕ} (h : loaded ≤ n) :
    (BitVec.ofNat 32 n = BitVec.ofNat 32 loaded) ↔ 2 ^ 32 ∣ n - loaded := by
  rw [← BitVec.toNat_inj, BitVec.toNat_ofNat, BitVec.toNat_ofNat]
  omega

/-! ### The invariant -/

/-- The word `seq` has been loaded by the call. -/
structure Loaded (notified : ℕ) (c : Call) (seq : U32) : Prop where
  eq : seq = BitVec.ofNat 32 c.loaded
  le : c.loaded ≤ notified

/-- A wait with a predicate knows its deadline; that of `wait_for` is near enough for `deadline - now`. -/
def CallerGood (now : ℤ) (c : Call) : Caller D → Prop
  | .client => True
  | .waitFor deadline _ => deadline.toInt = c.deadline ∧ deadline.toInt - now < 2 ^ 63
  | .waitUntil timeoutTime pred => pred.isSome = true → timeoutTime.toInt = c.deadline

/-- The deadline that the call of a thread works towards, with the call that fixed it. -/
def Pc.caller : Pc D → Caller D
  | .load caller _ | .unlock caller .. | .futex caller .. | .asleep caller .. => caller
  | .lock caller .. | .reload caller .. | .returned caller .. => caller
  | .forPred deadline pred | .forCheck deadline pred => .waitFor deadline pred
  | .untilNow timeoutTime pred | .untilReturned timeoutTime pred _ => .waitUntil timeoutTime pred
  | .untilPred timeoutTime pred | .untilCheck timeoutTime pred => .waitUntil timeoutTime (some pred)
  | _ => .client

/-- What holds where a thread is in its call. -/
def Place (notified : ℕ) (now : ℤ) (data : D) (c : Call) : Pc D → Prop
  | .load _ relTime => 0 ≤ relTime.toInt ∧ c.began ≤ now
  | .unlock _ relTime seq | .futex _ relTime seq =>
      0 ≤ relTime.toInt ∧ c.began ≤ now ∧ Loaded notified c seq
  | .asleep _ relTime seq since => 0 ≤ relTime.toInt ∧ c.began ≤ since.toInt ∧ Loaded notified c seq
  | .lock _ relTime seq | .reload _ relTime seq =>
      (c.early = false → c.began + relTime.toInt ≤ now) ∧ Loaded notified c seq
  | .returned _ relTime status =>
      status = .timeout → c.began + relTime.toInt ≤ now ∧ c.reloaded = c.loaded
  | .forLast .. | .untilLast .. => c.deadline ≤ now
  | .answered pred result => result = false → pred data = false ∧ c.deadline ≤ now
  | _ => True

structure Good (notified : ℕ) (now : ℤ) (data : D) (c : Call) (pc : Pc D) : Prop where
  caller : CallerGood now c pc.caller
  place : Place notified now data c pc

structure Inv (m : Mem Tid D) (f : Tid → Pc D) (h : History Tid) : Prop where
  seq : m.seq = BitVec.ofNat 32 h.notified
  owner : ∀ t, (f t).holding = true → m.owner = some t
  good : ∀ t, Good h.notified m.clock.toInt m.data (h.call t) (f t)

section Frame

variable {n n' : ℕ} {now now' : ℤ} {data data' : D} {c : Call} {seq : U32}

theorem Loaded.mono (h : Loaded n c seq) (hn : n ≤ n') : Loaded n' c seq := ⟨h.eq, h.le.trans hn⟩

theorem CallerGood.mono {caller : Caller D} (h : CallerGood now c caller) (hnow : now ≤ now') :
    CallerGood now' c caller := by
  cases caller with
  | client => trivial
  | waitFor deadline pred => exact ⟨h.1, by have := h.2; omega⟩
  | waitUntil timeoutTime pred => exact h

theorem Place.mono {pc : Pc D} (h : Place n now data c pc) (hn : n ≤ n') (hnow : now ≤ now')
    (hdata : pc.holding = true → data' = data) : Place n' now' data' c pc := by
  cases pc with
  | load caller relTime => exact ⟨h.1, h.2.trans hnow⟩
  | unlock caller relTime seq | futex caller relTime seq =>
      exact ⟨h.1, h.2.1.trans hnow, h.2.2.mono hn⟩
  | asleep caller relTime seq since => exact ⟨h.1, h.2.1, h.2.2.mono hn⟩
  | lock caller relTime seq | reload caller relTime seq =>
      exact ⟨fun hearly => (h.1 hearly).trans hnow, h.2.mono hn⟩
  | returned caller relTime status => exact fun hstatus => ⟨(h hstatus).1.trans hnow, (h hstatus).2⟩
  | forLast | untilLast => exact le_trans h hnow
  | answered pred result =>
      intro hresult
      rw [hdata rfl]
      exact ⟨(h hresult).1, (h hresult).2.trans hnow⟩
  | _ => trivial

/-- What a thread knows survives later times, more notifications, and writes while it does not own the
lock. -/
theorem Good.mono {pc : Pc D} (h : Good n now data c pc) (hn : n ≤ n') (hnow : now ≤ now')
    (hdata : pc.holding = true → data' = data) : Good n' now' data' c pc :=
  ⟨h.caller.mono hnow, h.place.mono hn hnow hdata⟩

end Frame

/-! ### Steps -/

variable {t : Tid} {l : Label D} {m m' : Mem Tid D} {f : Tid → Pc D} {h : History Tid} {pc pc' : Pc D}

/-- What a step of thread `t` does to the memory. -/
structure Moves (t : Tid) (l : Label D) (m m' : Mem Tid D) (pc' : Pc D) : Prop where
  seq : m'.seq = m.seq + BitVec.ofNat 32 l.notifications
  clock : m.clock.toInt ≤ m'.clock.toInt
  /-- The lock of another thread, and the data under it, stay as they are. -/
  others : ∀ u, u ≠ t → m.owner = some u → m'.owner = some u ∧ m'.data = m.data
  owner : pc'.holding = true → m'.owner = some t

/-- A step that at most moves the lock from or to the thread that takes it. -/
theorem Moves.of_owner (hl : l.notifications = 0) {owner : Option Tid}
    (hothers : ∀ u, u ≠ t → m.owner = some u → owner = some u)
    (hholding : pc'.holding = true → owner = some t) :
    Moves t l m { m with owner := owner } pc' where
  seq := by
    rw [hl]
    exact (BitVec.add_zero _).symm
  clock := le_rfl
  others u hu howner := ⟨hothers u hu howner, rfl⟩
  owner := hholding

theorem Moves.stay (hl : l.notifications = 0) (hholding : pc'.holding = true → m.owner = some t) :
    Moves t l m m pc' :=
  .of_owner hl (fun _ _ howner => howner) hholding

theorem moves_of_run (hown : pc.holding = true → m.owner = some t)
    (hrun : run t m pc = some (m', pc')) : Moves t (.run : Label D) m m' pc' := by
  cases pc with
  | idle | asleep => cases hrun
  | unlock caller relTime seq =>
      cases hrun
      refine .of_owner rfl (fun u hu howner => absurd ?_ hu) nofun
      rw [hown rfl, Option.some.injEq] at howner
      exact howner.symm
  | futex caller relTime seq =>
      cases hrun
      exact .stay rfl nofun
  | lock caller relTime seq =>
      rw [run, Option.ite_none_right_eq_some, Option.isNone_iff_eq_none] at hrun
      obtain ⟨hfree, hrun⟩ := hrun
      cases hrun
      refine .of_owner rfl (fun u _ howner => ?_) fun _ => rfl
      rw [hfree] at howner
      cases howner
  | untilReturned timeoutTime pred status => cases pred <;> cases hrun <;> exact .stay rfl fun _ => hown rfl
  | _ =>
      cases hrun
      exact .stay rfl fun _ => hown rfl

variable {n : ℕ} {c : Call}

/-- The second load of `seq_` finds the same word only if there was no notification, and a timeout
without one is a timeout of the kernel, or comes late enough. -/
theorem timeout_of_reload {caller : Caller D} {relTime : I64} {seq : U32}
    (h : Place n m.clock.toInt m.data c (.reload caller relTime seq)) (hseq : m.seq = BitVec.ofNat 32 n)
    (hsound : Sound n m.clock.toInt c (.run : Label D) (.reload caller relTime seq)) (heq : m.seq = seq) :
    c.began + relTime.toInt ≤ m.clock.toInt ∧ n = c.loaded := by
  obtain ⟨hlate, hloaded⟩ := h
  obtain ⟨hwrap, hearly⟩ := hsound
  have hle := hloaded.le
  rw [hseq, hloaded.eq, ofNat_eq_iff_dvd hle] at heq
  have hnone : n = c.loaded := by
    by_contra hne
    exact hwrap (by omega) heq
  refine ⟨?_, hnone⟩
  cases hc : c.early with
  | false => exact hlate hc
  | true =>
      by_contra hlt
      have := hearly hc (by omega)
      omega

theorem good_of_run (h : Good n m.clock.toInt m.data c pc) (hseq : m.seq = BitVec.ofNat 32 n)
    (hsound : Sound n m.clock.toInt c (.run : Label D) pc) (hrun : run t m pc = some (m', pc')) :
    Good n m'.clock.toInt m'.data (c.step n m.clock.toInt .run pc) pc' := by
  obtain ⟨hcaller, hplace⟩ := h
  cases pc with
  | idle | asleep => cases hrun
  | load caller relTime =>
      cases hrun
      exact ⟨hcaller, hplace.1, hplace.2, hseq, le_rfl⟩
  | unlock caller relTime seq | futex caller relTime seq =>
      cases hrun
      exact ⟨hcaller, hplace⟩
  | lock caller relTime seq =>
      rw [run, Option.ite_none_right_eq_some] at hrun
      obtain ⟨hfree, hrun⟩ := hrun
      cases hrun
      exact ⟨hcaller, hplace⟩
  | reload caller relTime seq =>
      cases hrun
      refine ⟨hcaller, fun hstatus => ?_⟩
      split_ifs at hstatus with heq
      have htimeout := timeout_of_reload hplace hseq hsound heq
      exact htimeout
  | returned caller relTime status =>
      cases hrun
      cases caller <;> exact ⟨hcaller, trivial⟩
  | forNow relTime pred =>
      cases hrun
      have hadd := toInt_add_of_fits hsound
      have hlt := relTime.toInt_lt
      exact ⟨⟨hadd, by omega⟩, trivial⟩
  | forPred deadline pred =>
      rw [run, Option.some.injEq, Prod.mk.injEq] at hrun
      obtain ⟨rfl, rfl⟩ := hrun
      split_ifs
      · exact ⟨trivial, nofun⟩
      · exact ⟨hcaller, trivial⟩
  | forCheck deadline pred =>
      rw [run, Option.some.injEq, Prod.mk.injEq] at hrun
      obtain ⟨rfl, rfl⟩ := hrun
      split_ifs with hle
      · exact ⟨trivial, le_of_eq_of_le hcaller.1.symm hle⟩
      · have hnear := hcaller.2
        have hsub := toInt_sub_of_fits (x := deadline) (y := m.clock) ⟨by omega, hnear⟩
        exact ⟨hcaller, by omega, le_rfl⟩
  | untilNow timeoutTime pred =>
      rw [run, Option.some.injEq, Prod.mk.injEq] at hrun
      obtain ⟨rfl, rfl⟩ := hrun
      split_ifs with hle
      · exact ⟨hcaller, trivial⟩
      · have hsub := toInt_sub_of_fits (hsound (by omega))
        exact ⟨hcaller, by omega, le_rfl⟩
  | untilReturned timeoutTime pred status =>
      cases pred with
      | none =>
          cases hrun
          exact ⟨trivial, trivial⟩
      | some pred =>
          cases hrun
          exact ⟨hcaller, trivial⟩
  | untilPred timeoutTime pred =>
      rw [run, Option.some.injEq, Prod.mk.injEq] at hrun
      obtain ⟨rfl, rfl⟩ := hrun
      split_ifs
      · exact ⟨trivial, nofun⟩
      · exact ⟨hcaller, trivial⟩
  | untilCheck timeoutTime pred =>
      rw [run, Option.some.injEq, Prod.mk.injEq] at hrun
      obtain ⟨rfl, rfl⟩ := hrun
      split_ifs with hle
      · exact ⟨trivial, le_of_eq_of_le (hcaller rfl).symm hle⟩
      · exact ⟨hcaller, trivial⟩
  | forLast deadline pred | untilLast timeoutTime pred =>
      cases hrun
      exact ⟨trivial, fun hresult => ⟨hresult, hplace⟩⟩
  | answered pred result =>
      cases hrun
      exact ⟨trivial, trivial⟩

theorem good_of_ret {outcome : Outcome} (h : Good n m.clock.toInt m.data c pc)
    (hret : ret outcome m pc = some (m', pc')) : m' = m ∧ pc'.holding = false ∧
      Good n m.clock.toInt m.data (c.step n m.clock.toInt (.ret outcome) pc) pc' := by
  cases pc with
  | asleep caller relTime seq since =>
      rw [ret, Option.ite_none_right_eq_some] at hret
      obtain ⟨hpassed, hret⟩ := hret
      cases hret
      obtain ⟨hnonneg, hbegan, hloaded⟩ := h.place
      refine ⟨rfl, rfl, h.caller, fun hearly => ?_, hloaded.eq, hloaded.le⟩
      have htimedOut : outcome = .timedOut := by simpa [Call.step] using hearly
      have hpassed := hpassed htimedOut
      rw [nanos_of_nonneg hnonneg] at hpassed
      exact (Int.add_le_add_right hbegan _).trans hpassed
  | _ => cases hret

variable [DecidableEq Tid]

theorem client_cases {owned : Bool} {next : Mem Tid D × Pc D}
    (hstep : client t owned m next pc = some (m', pc')) :
    pc = .idle ∧ (owned = true → m.owner = some t) ∧ next = (m', pc') := by
  cases pc with
  | idle =>
      rw [client, Option.ite_none_right_eq_some, Option.some.injEq] at hstep
      exact ⟨rfl, hstep⟩
  | _ => cases hstep

theorem step_spec (hgood : Good n m.clock.toInt m.data c pc) (hseq : m.seq = BitVec.ofNat 32 n)
    (hown : pc.holding = true → m.owner = some t) (hsound : Sound n m.clock.toInt c l pc)
    (hstep : step t l m pc = some (m', pc')) : Moves t l m m' pc' ∧
      Good (n + l.notifications) m'.clock.toInt m'.data (c.step n m.clock.toInt l pc) pc' := by
  cases l with
  | lock =>
      rw [step, Option.ite_none_right_eq_some, Option.isNone_iff_eq_none] at hstep
      obtain ⟨hfree, hstep⟩ := hstep
      obtain ⟨rfl, -, hnext⟩ := client_cases hstep
      cases hnext
      refine ⟨.of_owner rfl (fun u _ howner => ?_) nofun, trivial, trivial⟩
      rw [hfree] at howner
      cases howner
  | unlock =>
      obtain ⟨rfl, howned, hnext⟩ := client_cases hstep
      cases hnext
      refine ⟨.of_owner rfl (fun u hu howner => absurd ?_ hu) nofun, trivial, trivial⟩
      rw [howned rfl, Option.some.injEq] at howner
      exact howner.symm
  | write data =>
      obtain ⟨rfl, howned, hnext⟩ := client_cases hstep
      cases hnext
      refine ⟨⟨(BitVec.add_zero _).symm, le_rfl, fun u hu howner => absurd ?_ hu, nofun⟩, trivial, trivial⟩
      rw [howned rfl, Option.some.injEq] at howner
      exact howner.symm
  | notify =>
      obtain ⟨rfl, -, hnext⟩ := client_cases hstep
      cases hnext
      exact ⟨⟨rfl, le_rfl, fun u _ howner => ⟨howner, rfl⟩, nofun⟩, trivial, trivial⟩
  | waitFor relTime =>
      obtain ⟨rfl, howned, hnext⟩ := client_cases hstep
      cases hnext
      exact ⟨.stay rfl fun _ => howned rfl, trivial, hsound, le_rfl⟩
  | waitForPred relTime pred =>
      obtain ⟨rfl, howned, hnext⟩ := client_cases hstep
      cases hnext
      exact ⟨.stay rfl fun _ => howned rfl, trivial, trivial⟩
  | waitUntil timeoutTime =>
      obtain ⟨rfl, howned, hnext⟩ := client_cases hstep
      cases hnext
      exact ⟨.stay rfl fun _ => howned rfl, nofun, trivial⟩
  | waitUntilPred timeoutTime pred =>
      obtain ⟨rfl, howned, hnext⟩ := client_cases hstep
      cases hnext
      exact ⟨.stay rfl fun _ => howned rfl, fun _ => rfl, trivial⟩
  | run => exact ⟨moves_of_run hown hstep, good_of_run hgood hseq hsound hstep⟩
  | ret outcome =>
      obtain ⟨rfl, hholding, hgood'⟩ := good_of_ret hgood hstep
      exact ⟨.stay rfl fun h => absurd (h.symm.trans hholding) nofun, hgood'⟩
  | tick now =>
      rw [step, Option.ite_none_right_eq_some] at hstep
      obtain ⟨hle, hstep⟩ := hstep
      cases hstep
      exact ⟨⟨(BitVec.add_zero _).symm, hle, fun u _ howner => ⟨howner, rfl⟩, hown⟩,
        hgood.mono le_rfl hle fun _ => rfl⟩

/-! ### Runs -/

theorem Inv.step (hinv : Inv m f h) (hsound : Sound h.notified m.clock.toInt (h.call t) l (f t))
    (hstep : step t l m (f t) = some (m', pc')) :
    Inv m' (Function.update f t pc') (h.step t l m (f t)) := by
  obtain ⟨hmoves, hgood⟩ := step_spec (hinv.good t) hinv.seq (hinv.owner t) hsound hstep
  refine ⟨?_, fun u hu => ?_, fun u => ?_⟩
  · rw [hmoves.seq, hinv.seq, History.step_notified, BitVec.ofNat_add]
  · by_cases heq : u = t
    · subst heq
      rw [Function.update_self] at hu
      exact hmoves.owner hu
    · rw [Function.update_of_ne heq] at hu
      exact (hmoves.others u heq (hinv.owner u hu)).1
  · by_cases heq : u = t
    · subst heq
      rw [History.step_notified, History.step_call, Function.update_self, Function.update_self]
      exact hgood
    · rw [History.step_notified, History.step_call, Function.update_of_ne heq, Function.update_of_ne heq]
      exact (hinv.good u).mono (Nat.le_add_right _ _) hmoves.clock fun hu =>
        (hmoves.others u heq (hinv.owner u hu)).2

variable [Fintype Tid] {now : I64} {data : D} {s : State Tid D × History Tid}

theorem inv_of_reachable (hreach : (observed Tid now data).Reachable sound s) :
    Inv s.1.mem s.1.thread s.2 := by
  refine hreach.induct (I := fun s => Inv s.1.mem s.1.thread s.2) ?_ fun _ ih hnext hok => ?_
  · exact ⟨rfl, nofun, fun _ => ⟨trivial, trivial⟩⟩
  · obtain ⟨t, l, m, pc, rfl, hstep, rfl⟩ := Program.observed_step_of_next _ (fun _ => rfl)
      (fun _ => rfl) (fun _ => rfl) hnext
    exact ih.step hok hstep

/-- What the waits of thread `t` promise. -/
structure Honest (s : State Tid D × History Tid) (t : Tid) : Prop where
  /-- The kernel is asked for no more than the duration. -/
  asks : ∀ caller relTime seq, s.1.thread t = .futex caller relTime seq →
    (futex.linuxTimeout (nanoseconds relTime)).nanos ≤ max relTime.toInt 0
  /-- A timeout is reported only after the duration, and without a notification since the first load. -/
  timeout : ∀ caller relTime, s.1.thread t = .returned caller relTime .timeout →
    (s.2.call t).began + relTime.toInt ≤ s.1.mem.clock.toInt ∧ (s.2.call t).reloaded = (s.2.call t).loaded
  /-- The answer `false` is given only under the lock, with a false predicate and after the deadline. -/
  answer : ∀ pred, s.1.thread t = .answered pred false →
    pred s.1.mem.data = false ∧ s.1.mem.owner = some t ∧ (s.2.call t).deadline ≤ s.1.mem.clock.toInt

theorem timed_waits_honest (hreach : (observed Tid now data).Reachable sound s) (t : Tid) : Honest s t := by
  have hinv := inv_of_reachable hreach
  have hplace := (hinv.good t).place
  refine ⟨fun caller relTime seq hpc => ?_, fun caller relTime hpc => ?_, fun pred hpc => ?_⟩
  · rw [hpc] at hplace
    exact (nanos_le_iff relTime).mpr hplace.1
  · rw [hpc] at hplace
    exact hplace rfl
  · rw [hpc] at hplace
    exact ⟨(hplace rfl).1, hinv.owner t (by rw [hpc]; rfl), (hplace rfl).2⟩

/-! ### Examples -/

/-- Thread `a` waits 20 nanoseconds for data that stays `false`. -/
def patientRun : List (Act Runner (Label Bool)) :=
  [.step .a .lock, .step .a (.waitForPred 20 id)] ++ List.replicate 6 (.step .a .run) ++
    [.step .b (.tick 20), .step .a (.ret .timedOut)] ++ List.replicate 6 (.step .a .run)

theorem timed_waits_honest_patient : ∃ s : State Runner Bool × History Runner,
    s.1.thread .a = .answered id false ∧ Honest s .a := by
  refine ⟨((observed Runner 0 false).run sound (observed Runner 0 false).init patientRun).get
    (by decide +kernel), ?_, timed_waits_honest (.of_run patientRun _) .a⟩
  rfl

/-- Thread `a` begins to wait for a client. -/
def waitRun (relTime : I64) : List (Act Runner (Label Bool)) :=
  [.step .a .lock, .step .a (.waitFor relTime), .step .a .run, .step .a .run]

/-- A signal ends the wait of thread `a`, which had a second. -/
def interruptedRun : List (Act Runner (Label Bool)) :=
  waitRun 1000000000 ++ [.step .a .run, .step .a (.ret .interrupted), .step .a .run, .step .a .run]

/-- The deadline of thread `a` is the largest duration from now. -/
def overflowRun : List (Act Runner (Label Bool)) :=
  [.step .a .lock, .step .a (.waitForPred 0x7FFFFFFFFFFFFFFF id)] ++ List.replicate 4 (.step .a .run)

/-- A duration of -1 asks the kernel for 2 ^ 64 - 1 nanoseconds, a wait of a second that is interrupted
at once reports a timeout, and a deadline beyond the last time point has passed at once. -/
theorem timed_waits_dishonest : ∃ s₁ s₂ s₃ : State Runner Bool × History Runner,
    (observed Runner 1 false).Reachable anyStep s₁ ∧ s₁.1.thread .a = .futex .client (-1) 0 ∧
    ¬ Honest s₁ .a ∧
    (observed Runner 1 false).Reachable anyStep s₂ ∧
    s₂.1.thread .a = .returned .client 1000000000 .timeout ∧ ¬ Honest s₂ .a ∧
    (observed Runner 1 false).Reachable anyStep s₃ ∧ s₃.1.thread .a = .answered id false ∧
    ¬ Honest s₃ .a := by
  refine ⟨((observed Runner 1 false).run anyStep (observed Runner 1 false).init (waitRun (-1))).get
      (by decide +kernel),
    ((observed Runner 1 false).run anyStep (observed Runner 1 false).init interruptedRun).get
      (by decide +kernel),
    ((observed Runner 1 false).run anyStep (observed Runner 1 false).init overflowRun).get
      (by decide +kernel),
    .of_run (waitRun (-1)) _, ?_, fun h => ?_, .of_run interruptedRun _, ?_, fun h => ?_,
    .of_run overflowRun _, ?_, fun h => ?_⟩
  · rfl
  · have hasks := h.asks .client (-1) 0 rfl
    revert hasks
    decide
  · rfl
  · have helapsed := (h.timeout .client 1000000000 rfl).1
    revert helapsed
    decide +kernel
  · rfl
  · have hpassed := (h.answer id rfl).2.2
    revert hpassed
    decide +kernel

end Psync.ConditionVariable.Timed
