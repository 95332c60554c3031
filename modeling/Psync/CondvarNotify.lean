import Psync.CondvarBalance
import Psync.MutexState
import Psync.RunGuard

/-! Every step of the consumers and producers is a step of the counting argument by stages. The mutex
gives the exclusion that the argument needs, and the compare of the kernel finds out every notification
since the load. -/

namespace Psync

open Concurrency

set_option linter.unusedSectionVars false

/-! ### A call of the mutex -/

namespace Mutex

/-- The thread is in `lock`, or has returned from it. -/
def Thread.acquiring (th : Thread) : Prop :=
  th.pc = .idle ∧ th.held = true ∨ th.locking = true ∧ th.held = false

/-- The thread is in `unlock`, or has returned from it. -/
def Thread.releases (th : Thread) : Prop :=
  th.held = false ∧ (th.pc = .idle ∨ th.pc = .unlockWake) ∨ th.releasing = true

theorem locking_afterSpin (held : Bool) (i spinCount backoff : ℕ) :
    (Thread.mk held (afterSpin i spinCount backoff)).locking = true := by
  unfold afterSpin
  split_ifs <;> rfl

variable {state state' : U32} {th th' : Thread}

theorem acquiring_of_run (h : run state th = some (state', th')) (hacq : th.acquiring) :
    th'.acquiring := by
  obtain ⟨held, pc⟩ := th
  rcases hacq with ⟨rfl, -⟩ | ⟨hlocking, rfl⟩
  · cases h
  · cases pc with
    | lockFast | waitLoad | waitCas =>
        simp only [run] at h
        split_ifs at h <;> cases h
        · simp [Thread.acquiring, Thread.locking, Thread.at]
        · simp [Thread.acquiring, Thread.locking, Thread.at]
    | spin i spinCount backoff =>
        simp only [run] at h
        split_ifs at h <;> cases h
        · exact Or.inl ⟨rfl, rfl⟩
        · exact Or.inr ⟨locking_afterSpin .., rfl⟩
    | register =>
        cases h
        exact Or.inr ⟨rfl, rfl⟩
    | waitFutex => cases h
    | _ => cases hlocking

theorem releases_of_run (h : run state th = some (state', th')) (hrel : th.releases) :
    th'.releases := by
  obtain ⟨held, pc⟩ := th
  rcases hrel with ⟨-, rfl | rfl⟩ | hreleasing
  · cases h
  · cases h
  · cases pc with
    | unlockLoad | unlockCas =>
        simp only [run] at h
        split_ifs at h <;> cases h
        · simp [Thread.releases, Thread.releasing, Thread.at]
        · simp [Thread.releases, Thread.releasing, Thread.at]
    | unlockReload =>
        cases h
        exact Or.inr rfl
    | unlockClear =>
        cases h
        exact Or.inl ⟨rfl, Or.inr rfl⟩
    | _ => cases hreleasing

/-- The locked flag is set exactly while a thread owns the mutex. -/
theorem Effect.owner {Tid β : Type*} [DecidableEq Tid] {g : β → Thread} {f : Tid → β} {t : Tid}
    {b : β} (h : Effect state (g (f t)) state' (g b))
    (hg : Guards (state.toNat % 2 = 1) (fun x => (g x).held = true) f) :
    Guards (state'.toNat % 2 = 1) (fun x => (g x).held = true) (Function.update f t b) := by
  generalize hold : g (f t) = th at h
  generalize hnew : g b = th' at h
  cases h with
  | keep held => exact hg.same Iff.rfl (by rw [hnew, hold, held])
  | acquire free => exact hg.enter (by omega) rfl (by rw [hnew])
  | register held =>
      refine hg.same ?_ (by rw [hnew, hold, held])
      rw [BitVec.toNat_add, show waiterIncrement.toNat = 2 from rfl]
      omega
  | acquireWaiter free =>
      refine hg.enter (by omega) ?_ (by rw [hnew])
      rw [BitVec.toNat_or, Nat.or_mod_two_eq_one]
      exact Or.inr rfl
  | release only held => exact hg.leave (by rw [hold, held]) (by decide) (by simp [hnew])
  | clear held =>
      refine hg.leave (by rw [hold, held]) ?_ (by simp [hnew])
      rw [toNat_clear]
      omega

end Mutex

namespace ConditionVariable.Client

/-! ### Where a thread can be -/

/-- What a thread owns at each position. -/
def Thread.Placed (th : Thread) : Prop :=
  match th.cv.pc with
  | .idle => match th.pc with
    | .idle | .notify _ false => th.cv.mutex.releases
    | .enter | .produce => th.cv.mutex.acquiring
    | _ => th.held = true ∧ th.cv.mutex.pc = .idle
  | .waitLoad => th.pc = .loop ∧ th.held = true ∧ th.cv.mutex.pc = .idle
  | .waitUnlock _ => th.pc = .loop ∧ th.cv.mutex.releases
  | .waitFutex _ => th.pc = .loop ∧ th.held = false ∧ th.cv.mutex.pc = .idle
  | .waitLock => th.pc = .loop ∧ th.cv.mutex.acquiring
  | .signalAdd | .signalWake | .broadcastAdd | .broadcastWake =>
      th.cv.mutex.pc = .idle ∧ (th.pc = .leave ∧ th.held = true ∨ th.pc = .idle ∧ th.held = false)
  | .requeueAdd | .requeueCall _ => False

structure Thread.Ok (th : Thread) : Prop where
  mutex : th.cv.mutex.Ok
  placed : th.Placed

def Thread.stage (th : Thread) : Stage :=
  match th.cv.pc with
  | .idle => match th.pc with
    | .loop => .checking
    | .take => .taking
    | .release .signal | .notify .signal _ => .pending
    | .release .broadcast | .notify .broadcast _ => .pendingAll
    | _ => .out
  | .waitLoad => .loading
  | .waitUnlock _ | .waitFutex _ => .loaded
  | .waitLock => .checking
  | .signalAdd => .pending
  | .signalWake => .signalled
  | .broadcastAdd => .pendingAll
  | .broadcastWake => .broadcasted
  | _ => .out

/-- The value of `seq_` that `wait` has loaded. -/
def Thread.snapshot (th : Thread) : Option U32 :=
  match th.cv.pc with
  | .waitUnlock seq | .waitFutex seq => some seq
  | _ => none

variable {Tid : Type*} [Fintype Tid] [DecidableEq Tid] {t : Tid} {w w' : History Tid}
  {m m' : Mem} {th th' : Thread}

/-- How a thread changes, apart from the counter. -/
structure Change (t : Tid) (w : History Tid) (m : Mem) (th : Thread) (w' : History Tid) (m' : Mem)
    (th' : Thread) : Prop where
  ok : th'.Ok
  owner : Mutex.Effect m.cv.mutexState th.cv.mutex m'.cv.mutexState th'.cv.mutex ∨
    m'.cv.mutexState = m.cv.mutexState ∧ th'.held = th.held
  seq : m'.cv.seq = m.cv.seq ∧ w'.total = w.total ∨
    m'.cv.seq = m.cv.seq + 1 ∧ w'.total = w.total + 1
  loaded : ∀ u, u ≠ t → w'.loaded u = w.loaded u
  snapshot : ∀ v, th'.snapshot = some v →
    th.snapshot = some v ∧ w' = w ∨ v = m.cv.seq ∧ w'.loaded t = w.total

/-- What one step of a thread does. -/
structure Effect (t : Tid) (w : History Tid) (m : Mem) (th : Thread) (w' : History Tid) (m' : Mem)
    (th' : Thread) : Prop extends Change t w m th w' m' th' where
  move : Move t m.items w th.stage m'.items w' th'.stage
  /-- Only the owner of the mutex changes the counter. -/
  items : m'.items = m.items ∨ th.held = true

/-- For the mutex a step is a step of one of its calls, or nothing. -/
def CallsMutex (m : Mem) (th : Thread) (m' : Mem) (th' : Thread) : Prop :=
  (∃ l, Mutex.step l m.cv.mutexState th.cv.mutex = some (m'.cv.mutexState, th'.cv.mutex)) ∨
    m'.cv.mutexState = m.cv.mutexState ∧ th'.cv.mutex = th.cv.mutex

/-- A step that is outside the mutex and changes neither the counter nor `seq_`. -/
theorem Effect.quiet (hok : th'.Ok) (hstate : m'.cv = m.cv) (hitems : m'.items = m.items)
    (hheld : th'.held = th.held) (hsnap : th'.snapshot = none)
    (hmove : Move t m.items w th.stage m.items w th'.stage) : Effect t w m th w m' th' where
  ok := hok
  owner := Or.inr ⟨by rw [hstate], hheld⟩
  seq := Or.inl ⟨by rw [hstate], rfl⟩
  loaded _ _ := rfl
  snapshot v hv := by
    rw [hsnap] at hv
    cases hv
  move := by rwa [hitems]
  items := Or.inl hitems

/-- The history after a step of thread `t`. -/
def History.step (w : History Tid) (t : Tid) (l : Label) (th : Thread) : History Tid :=
  match l with
  | .run => w.after t th.cv.pc
  | _ => w

theorem idle_of_acquiring {held : Bool} (h : (Mutex.Thread.mk held .idle).acquiring) :
    held = true := by
  rcases h with h | h
  · exact h.2
  · cases h.1

theorem idle_of_releases {held : Bool} (h : (Mutex.Thread.mk held .idle).releases) :
    held = false := by
  rcases h with h | h
  · exact h.1
  · cases h

/-- A step of a call of the mutex. -/
theorem effect_of_mutex {l : Mutex.Label} {mutex : Mutex.Thread} {state : U32} (hok : th.cv.mutex.Ok)
    (h : Mutex.step l m.cv.mutexState th.cv.mutex = some (state, mutex)) (hplaced : th'.Placed)
    (hmutex : th'.cv.mutex = mutex) (hstage : th'.stage = th.stage)
    (hsnap : ∀ v, th'.snapshot = some v → th.snapshot = some v) :
    Effect t w m th w { m with cv := { m.cv with mutexState := state } } th' ∧
      CallsMutex m th { m with cv := { m.cv with mutexState := state } } th' := by
  refine ⟨?_, Or.inl ⟨l, by rw [h, hmutex]⟩⟩
  obtain ⟨heff, hok'⟩ := Mutex.effect_of_step hok h
  rw [← hmutex] at heff hok'
  refine ⟨⟨⟨hok', hplaced⟩, Or.inl heff, Or.inl ⟨rfl, rfl⟩, fun _ _ => rfl,
    fun v hv => Or.inl ⟨hsnap v hv, rfl⟩⟩, ?_, Or.inl rfl⟩
  rw [hstage]
  exact .keep _

theorem settle_mutex (th : ConditionVariable.Thread) : th.settle.mutex = th.mutex := by
  obtain ⟨mutex, pc⟩ := th
  rw [ConditionVariable.Thread.settle]
  split_ifs
  · cases pc <;> rfl
  · rfl

theorem settle_of_ne {th : ConditionVariable.Thread} (h : th.mutex.pc ≠ .idle) : th.settle = th :=
  if_neg h

/-- Where a thread is after a step inside a call of the mutex. -/
theorem placed_settle {cpc : ConditionVariable.Pc} {pc : Pc} {mutex mutex' : Mutex.Thread}
    (h : Thread.Placed ⟨⟨mutex, cpc⟩, pc⟩) (hbusy : mutex.pc ≠ .idle)
    (hacq : mutex.acquiring → mutex'.acquiring) (hrel : mutex.releases → mutex'.releases) :
    Thread.Placed ⟨(ConditionVariable.Thread.mk mutex' cpc).settle, pc⟩ ∧
      Thread.stage ⟨(ConditionVariable.Thread.mk mutex' cpc).settle, pc⟩ =
        Thread.stage ⟨⟨mutex, cpc⟩, pc⟩ ∧
      ∀ v, Thread.snapshot ⟨(ConditionVariable.Thread.mk mutex' cpc).settle, pc⟩ = some v →
        Thread.snapshot ⟨⟨mutex, cpc⟩, pc⟩ = some v := by
  obtain ⟨held, mpc⟩ := mutex'
  cases cpc with
  | idle =>
      have hsettle : (ConditionVariable.Thread.mk ⟨held, mpc⟩ .idle).settle = ⟨⟨held, mpc⟩, .idle⟩ :=
        ite_self _
      rw [hsettle]
      refine ⟨?_, rfl, nofun⟩
      cases pc with
      | idle => exact hrel h
      | enter | produce => exact hacq h
      | notify n early =>
          cases early with
          | false => exact hrel h
          | true => exact absurd h.2 hbusy
      | _ => exact absurd h.2 hbusy
  | waitUnlock seq =>
      obtain ⟨rfl, hreleases⟩ := h
      by_cases hidle : mpc = .idle
      · subst hidle
        exact ⟨⟨rfl, idle_of_releases (hrel hreleases), rfl⟩, rfl, fun _ => id⟩
      · rw [settle_of_ne hidle]
        exact ⟨⟨rfl, hrel hreleases⟩, rfl, fun _ => id⟩
  | waitLock =>
      obtain ⟨rfl, hacquiring⟩ := h
      by_cases hidle : mpc = .idle
      · subst hidle
        exact ⟨⟨idle_of_acquiring (hacq hacquiring), rfl⟩, rfl, nofun⟩
      · rw [settle_of_ne hidle]
        exact ⟨⟨rfl, hacq hacquiring⟩, rfl, nofun⟩
  | waitLoad | waitFutex => exact absurd h.2.2 hbusy
  | requeueAdd | requeueCall => exact h.elim
  | _ => exact absurd h.1 hbusy

theorem unlockLoad_ok {mutex : Mutex.Thread} (hheld : mutex.held = true) : (mutex.at .unlockLoad).Ok :=
  .unlocking hheld nofun nofun

/-- A step inside a call. -/
theorem effect_of_call (hok : th.Ok) (h : call .run m th th.pc = some (m', th')) :
    Effect t w m th (w.after t th.cv.pc) m' th' ∧ CallsMutex m th m' th' := by
  obtain ⟨⟨mutex, cpc⟩, pc⟩ := th
  have hmutex : w.after t cpc = w → (mutexStep .run m.cv ⟨mutex, cpc⟩).map (fun r =>
      (({ m with cv := r.1 } : Mem), Thread.mk r.2 pc)) = some (m', th') →
      Effect t w m ⟨⟨mutex, cpc⟩, pc⟩ (w.after t cpc) m' th' ∧ CallsMutex m ⟨⟨mutex, cpc⟩, pc⟩ m' th' := by
    intro hw h
    simp only [mutexStep, Option.map_map, Option.map_eq_some_iff] at h
    obtain ⟨⟨state, mutex'⟩, hstep, heq⟩ := h
    cases heq
    have hbusy : mutex.pc ≠ .idle := fun hidle => by
      rw [Mutex.step, Mutex.run, hidle] at hstep
      cases hstep
    obtain ⟨hplaced, hstage, hsnap⟩ := placed_settle hok.placed hbusy
      (Mutex.acquiring_of_run hstep) (Mutex.releases_of_run hstep)
    rw [hw]
    exact effect_of_mutex hok.mutex hstep hplaced (settle_mutex _) hstage hsnap
  cases cpc with
  | idle | waitUnlock | waitLock => exact hmutex rfl h
  | waitLoad =>
      cases h
      obtain ⟨hpc, hheld, hidle⟩ := hok.placed
      refine ⟨⟨⟨⟨unlockLoad_ok hheld, hpc, Or.inr rfl⟩, Or.inr ⟨rfl, rfl⟩, Or.inl ⟨rfl, rfl⟩,
        fun u hut => Function.update_of_ne hut .., fun v hv => Or.inr ⟨?_, Function.update_self ..⟩⟩,
        .load, Or.inl rfl⟩, Or.inl ⟨.unlock, if_pos ⟨hidle, hheld⟩⟩⟩
      exact (Option.some.inj hv).symm
  | signalAdd =>
      simp only [call, ConditionVariable.step, ConditionVariable.run, Option.map_some,
        Option.some.injEq, Prod.mk.injEq] at h
      obtain ⟨rfl, rfl⟩ := h
      exact ⟨⟨⟨⟨hok.mutex, hok.placed⟩, Or.inr ⟨rfl, rfl⟩, Or.inr ⟨rfl, rfl⟩, fun _ _ => rfl,
        fun _ hv => by cases hv⟩, .notify, Or.inl rfl⟩, Or.inr ⟨rfl, rfl⟩⟩
  | broadcastAdd =>
      simp only [call, ConditionVariable.step, ConditionVariable.run, Option.map_some,
        Option.some.injEq, Prod.mk.injEq] at h
      obtain ⟨rfl, rfl⟩ := h
      exact ⟨⟨⟨⟨hok.mutex, hok.placed⟩, Or.inr ⟨rfl, rfl⟩, Or.inr ⟨rfl, rfl⟩, fun _ _ => rfl,
        fun _ hv => by cases hv⟩, .notifyAll, Or.inl rfl⟩, Or.inr ⟨rfl, rfl⟩⟩
  | requeueAdd => exact hok.placed.elim
  | _ => cases h

theorem call_lock (held : Bool) (pc pc' : Pc) : call .lock m ⟨⟨⟨held, .idle⟩, .idle⟩, pc⟩ pc' =
    some (m, ⟨⟨⟨held, .lockFast⟩, .idle⟩, pc'⟩) := rfl

theorem call_unlock (pc pc' : Pc) : call .unlock m ⟨⟨⟨true, .idle⟩, .idle⟩, pc⟩ pc' =
    some (m, ⟨⟨⟨true, .unlockLoad⟩, .idle⟩, pc'⟩) := rfl

theorem call_wait (pc pc' : Pc) : call .wait m ⟨⟨⟨true, .idle⟩, .idle⟩, pc⟩ pc' =
    some (m, ⟨⟨⟨true, .idle⟩, .waitLoad⟩, pc'⟩) := rfl

theorem call_notify (held : Bool) (notify : Notify) (pc pc' : Pc) :
    call notify.call m ⟨⟨⟨held, .idle⟩, .idle⟩, pc⟩ pc' =
      some (m, ⟨⟨⟨held, .idle⟩, notify.rec .signalAdd .broadcastAdd⟩, pc'⟩) := by
  cases notify <;> rfl

/-- A step outside every call. -/
theorem effect_of_advance {held : Bool} {pc : Pc} (hok : Thread.Ok ⟨⟨⟨held, .idle⟩, .idle⟩, pc⟩)
    (h : advance m ⟨⟨⟨held, .idle⟩, .idle⟩, pc⟩ = some (m', th')) :
    Effect t w m ⟨⟨⟨held, .idle⟩, .idle⟩, pc⟩ w m' th' ∧ CallsMutex m ⟨⟨⟨held, .idle⟩, .idle⟩, pc⟩ m' th' := by
  have hunlocking : (Mutex.Thread.at ⟨true, .idle⟩ .unlockLoad).Ok := unlockLoad_ok rfl
  have hplaced := hok.placed
  cases pc with
  | idle => cases h
  | produce => cases h
  | enter =>
      cases h
      exact ⟨.quiet ⟨hok.mutex, idle_of_acquiring hplaced, rfl⟩ rfl rfl rfl rfl .enter, Or.inr ⟨rfl, rfl⟩⟩
  | loop =>
      simp only [advance] at h
      split_ifs at h with hitems
      · cases h
        exact ⟨.quiet ⟨hok.mutex, hplaced⟩ rfl rfl rfl rfl (.succeed hitems), Or.inr ⟨rfl, rfl⟩⟩
      · obtain ⟨rfl, -⟩ := hplaced
        rw [call_wait] at h
        cases h
        exact ⟨.quiet ⟨hok.mutex, rfl, rfl, rfl⟩ rfl rfl rfl rfl (.fail (by omega)), Or.inr ⟨rfl, rfl⟩⟩
  | take =>
      cases h
      exact ⟨⟨⟨⟨hok.mutex, hplaced⟩, Or.inr ⟨rfl, rfl⟩, Or.inl ⟨rfl, rfl⟩, fun _ _ => rfl, nofun⟩, .take,
        Or.inr hplaced.1⟩, Or.inr ⟨rfl, rfl⟩⟩
  | leave =>
      obtain ⟨rfl, -⟩ := hplaced
      simp only [advance, call_unlock] at h
      cases h
      exact ⟨.quiet ⟨hunlocking, Or.inr rfl⟩ rfl rfl rfl rfl (.keep _), Or.inl ⟨.unlock, rfl⟩⟩
  | release notify =>
      obtain ⟨rfl, -⟩ := hplaced
      simp only [advance, call_unlock] at h
      cases h
      refine ⟨.quiet ⟨hunlocking, Or.inr rfl⟩ rfl rfl rfl rfl ?_, Or.inl ⟨.unlock, rfl⟩⟩
      cases notify <;> exact .keep _
  | notify notify early =>
      simp only [advance, call_notify] at h
      cases h
      refine ⟨?_, Or.inr ⟨rfl, rfl⟩⟩
      cases early with
      | false =>
          have hheld := idle_of_releases hplaced
          cases notify <;>
            exact .quiet ⟨hok.mutex, rfl, Or.inr ⟨rfl, hheld⟩⟩ rfl rfl rfl rfl (.keep _)
      | true =>
          cases notify <;>
            exact .quiet ⟨hok.mutex, rfl, Or.inl ⟨rfl, hplaced.1⟩⟩ rfl rfl rfl rfl (.keep _)

theorem effect_of_step {l : Label} (hok : th.Ok) (h : step l m th = some (m', th')) :
    Effect t w m th (w.step t l th) m' th' ∧ CallsMutex m th m' th' := by
  obtain ⟨⟨⟨held, mpc⟩, cpc⟩, pc⟩ := th
  cases l with
  | consume | produce =>
      simp only [step] at h
      split_ifs at h with hfree
      obtain ⟨hpc, hcpc, hmpc⟩ := hfree
      obtain rfl : pc = .idle := hpc
      obtain rfl : cpc = .idle := hcpc
      obtain rfl : mpc = .idle := hmpc
      rw [call_lock] at h
      cases h
      have hheld := idle_of_releases hok.placed
      exact ⟨.quiet ⟨.plain rfl rfl nofun, Or.inr ⟨rfl, hheld⟩⟩ rfl rfl rfl rfl (.keep _), Or.inl ⟨.lock, rfl⟩⟩
  | add n notify early =>
      simp only [step, Option.ite_none_right_eq_some] at h
      obtain ⟨⟨hpc, ⟨hcpc, hmpc⟩, hone⟩, h⟩ := h
      obtain rfl : pc = .produce := hpc
      obtain rfl : cpc = .idle := hcpc
      obtain rfl : mpc = .idle := hmpc
      cases h
      obtain rfl : held = true := idle_of_acquiring hok.placed
      have hmove : Move t m.items w .out (m.items + n) w
          (Thread.mk ⟨⟨true, .idle⟩, .idle⟩
            (if early then .notify notify true else .release notify)).stage := by
        cases notify with
        | signal =>
            rw [hone rfl]
            cases early <;> exact .add
        | broadcast => cases early <;> exact .addAll n
      refine ⟨⟨⟨⟨hok.mutex, ?_⟩, Or.inr ⟨rfl, rfl⟩, Or.inl ⟨rfl, rfl⟩, fun _ _ => rfl, nofun⟩, hmove,
        Or.inr rfl⟩, Or.inr ⟨rfl, rfl⟩⟩
      cases early <;> exact ⟨rfl, rfl⟩
  | run =>
      simp only [step] at h
      split_ifs at h with hfree
      · obtain ⟨hcpc, hmpc⟩ := hfree
        obtain rfl : cpc = .idle := hcpc
        obtain rfl : mpc = .idle := hmpc
        exact effect_of_advance hok h
      · exact effect_of_call hok h

/-! ### The kernel -/

variable (Tid) in
/-- A thread that returns from `futex::wait` locks the mutex, or goes on in `lock` of the mutex. -/
theorem afterWait_cases (th : Thread) :
    (∃ seq, th.cv.pc = .waitFutex seq ∧ (program Tid).afterWait th =
      { th with cv := ⟨th.cv.mutex.at .lockFast, .waitLock⟩ }) ∨
    th.comparing = false ∧ (program Tid).afterWait th =
      { th with cv := { th.cv with mutex := (Mutex.program Tid).afterWait th.cv.mutex } } := by
  obtain ⟨⟨mutex, cpc⟩, pc⟩ := th
  have hmutex : ConditionVariable.wait ⟨mutex, cpc⟩ = (Mutex.wait mutex).map (fun w =>
      { addr := .mutex, holds := fun m => w.holds m.mutexState, after := ⟨w.after, cpc⟩ }) →
      (program Tid).afterWait ⟨⟨mutex, cpc⟩, pc⟩ =
        ⟨⟨(Mutex.program Tid).afterWait mutex, cpc⟩, pc⟩ := by
    intro h
    simp only [Program.afterWait, program, wait, h, Mutex.program]
    cases Mutex.wait mutex <;> rfl
  cases cpc with
  | waitFutex seq => exact Or.inl ⟨seq, rfl, rfl⟩
  | _ => exact Or.inr ⟨rfl, hmutex rfl⟩

theorem afterWait_held (th : Thread) : ((program Tid).afterWait th).held = th.held := by
  rcases afterWait_cases Tid th with ⟨seq, -, h⟩ | ⟨-, h⟩
  · rw [h]
    rfl
  · rw [h]
    exact Mutex.afterWait_held _

theorem afterWait_stage (th : Thread) : ((program Tid).afterWait th).stage = th.stage ∨
    th.stage = .loaded ∧ ((program Tid).afterWait th).stage = .checking := by
  rcases afterWait_cases Tid th with ⟨seq, hpc, h⟩ | ⟨-, h⟩
  · rw [h]
    exact Or.inr ⟨by rw [Thread.stage, hpc], rfl⟩
  · rw [h]
    exact Or.inl rfl

theorem afterWait_snapshot {th : Thread} {v : U32}
    (hv : ((program Tid).afterWait th).snapshot = some v) : th.snapshot = some v := by
  rcases afterWait_cases Tid th with ⟨seq, hpc, h⟩ | ⟨-, h⟩
  · rw [h] at hv
    cases hv
  · rwa [h] at hv

theorem Thread.Ok.afterWait {th : Thread} (h : th.Ok) : ((program Tid).afterWait th).Ok := by
  rcases afterWait_cases Tid th with ⟨seq, hpc, heq⟩ | ⟨-, heq⟩
  · have hplaced := h.placed
    rw [Thread.Placed, hpc] at hplaced
    rw [heq]
    exact ⟨.plain rfl rfl nofun, hplaced.1, Or.inr ⟨rfl, hplaced.2.1⟩⟩
  · rw [heq]
    refine ⟨h.mutex.afterWait, ?_⟩
    have hplaced := h.placed
    obtain ⟨⟨⟨held, mpc⟩, cpc⟩, pc⟩ := th
    cases mpc with
    | waitFutex current =>
        have hne : (ConditionVariable.Thread.mk ⟨held, .waitLoad⟩ cpc).mutex.pc ≠ .idle := nofun
        have hacq : (Mutex.Thread.mk held (.waitFutex current)).acquiring →
            (Mutex.Thread.mk held .waitLoad).acquiring := by
          simp [Mutex.Thread.acquiring, Mutex.Thread.locking]
        have hrel : (Mutex.Thread.mk held (.waitFutex current)).releases →
            (Mutex.Thread.mk held .waitLoad).releases := by
          simp [Mutex.Thread.releases, Mutex.Thread.releasing]
        have hplaced' := (placed_settle hplaced nofun hacq hrel).1
        rwa [settle_of_ne hne] at hplaced'
    | _ => exact hplaced

/-- The three calls of `futex::wake`. -/
theorem wake_cases {th : Thread} {c : WakeCall Thread Addr} (h : wake th = some c) :
    th.cv.pc = .signalWake ∧ c = futex.wake .seq 1 { th with cv := th.cv.at .idle } ∨
    th.cv.pc = .broadcastWake ∧ c = futex.wakeAll .seq { th with cv := th.cv.at .idle } ∨
    th.cv.mutex.pc = .unlockWake ∧ c = futex.wake .mutex 1
      { th with cv := { th.cv with mutex := th.cv.mutex.at .idle }.settle } := by
  obtain ⟨⟨mutex, cpc⟩, pc⟩ := th
  simp only [wake, Option.map_eq_some_iff] at h
  obtain ⟨c, hcall, rfl⟩ := h
  cases cpc with
  | signalWake =>
      cases hcall
      exact Or.inl ⟨rfl, rfl⟩
  | broadcastWake =>
      cases hcall
      exact Or.inr (Or.inl ⟨rfl, rfl⟩)
  | _ =>
      simp only [ConditionVariable.wake, Option.map_eq_some_iff] at hcall
      obtain ⟨c, hcall, rfl⟩ := hcall
      obtain ⟨hpc, rfl⟩ := Mutex.wake_eq_some hcall
      exact Or.inr (Or.inr ⟨hpc, rfl⟩)

/-! ### The invariant -/

theorem Thread.Ok.loading {th : Thread} (h : th.Ok) (hstage : th.stage = .loading) :
    th.held = true := by
  have hplaced := h.placed
  obtain ⟨⟨mutex, cpc⟩, pc⟩ := th
  cases cpc with
  | waitLoad => exact hplaced.2.1
  | idle =>
      cases pc with
      | release notify => cases notify <;> cases hstage
      | notify notify early => cases notify <;> cases hstage
      | _ => cases hstage
  | _ => cases hstage

theorem stage_taking {th : Thread} (h : th.stage = .taking) : th.cv.pc = .idle ∧ th.pc = .take := by
  obtain ⟨⟨mutex, cpc⟩, pc⟩ := th
  cases cpc with
  | idle =>
      cases pc with
      | take => exact ⟨rfl, rfl⟩
      | release notify => cases notify <;> cases h
      | notify notify early => cases notify <;> cases h
      | _ => cases h
  | _ => cases h

theorem Thread.Ok.taking {th : Thread} (h : th.Ok) (hstage : th.stage = .taking) :
    th.held = true := by
  obtain ⟨hcpc, hpc⟩ := stage_taking hstage
  have hplaced := h.placed
  rw [Thread.Placed, hcpc, hpc] at hplaced
  exact hplaced.1

/-- The mutex excludes, and the words and the history agree. -/
structure Base (s : State Tid × History Tid) : Prop where
  ok : ∀ t, (s.1.thread t).Ok
  owner : Guards (s.1.mem.cv.mutexState.toNat % 2 = 1) (fun th => th.held = true) s.1.thread
  seq : s.1.mem.cv.seq = BitVec.ofNat 32 s.2.total
  snapshot : ∀ t v, (s.1.thread t).snapshot = some v →
    v = BitVec.ofNat 32 (s.2.loaded t) ∧ s.2.loaded t ≤ s.2.total
  asleep : ∀ t, s.1.asleep t = some .seq → (s.1.thread t).comparing = true

structure Inv (s : State Tid × History Tid) : Prop extends Base s where
  balanced : Balanced s.1.mem.items s.2 (fun t => s.1.asleep t = some .seq)
    fun t => (s.1.thread t).stage

variable {s : State Tid × History Tid}

theorem Inv.init : Inv (observed Tid).init where
  ok _ := ⟨.plain rfl rfl nofun, Or.inl ⟨rfl, Or.inl rfl⟩⟩
  owner := ⟨iff_of_false (show ¬ Mutex.unlocked.toNat % 2 = 1 by decide) nofun, nofun⟩
  seq := rfl
  snapshot _ _ h := nomatch h
  asleep _ h := nomatch h
  balanced := .init fun _ h => nomatch h

theorem Base.move (h : Base s) (hawake : s.1.asleep t = none)
    (hc : Change t s.2 s.1.mem (s.1.thread t) w' m' th') : Base (s.1.move t m' th', w') := by
  have hself : (s.1.move t m' th').thread t = th' := by rw [Config.move_thread, Function.update_self]
  have hother : ∀ {u}, u ≠ t → (s.1.move t m' th').thread u = s.1.thread u := fun hne => by
    rw [Config.move_thread, Function.update_of_ne hne]
  have htotal : s.2.total ≤ w'.total := by rcases hc.seq with hseq | hseq <;> omega
  refine ⟨fun u => ?_, ?_, ?_, fun u v hv => ?_, fun u hu => ?_⟩
  · by_cases hut : u = t
    · rw [hut, hself]
      exact hc.ok
    · rw [hother hut]
      exact h.ok u
  · rcases hc.owner with howner | ⟨hstate, hheld⟩
    · exact Mutex.Effect.owner (g := fun th : Thread => th.cv.mutex) howner h.owner
    · exact h.owner.same (by rw [Config.move_mem, hstate]) (by rw [hheld])
  · rcases hc.seq with ⟨hseq, htotal⟩ | ⟨hseq, htotal⟩
    · rw [Config.move_mem, hseq, htotal]
      exact h.seq
    · rw [Config.move_mem, hseq, htotal, h.seq, BitVec.ofNat_add]
      rfl
  · by_cases hut : u = t
    · rw [hut, hself] at hv
      rw [hut]
      rcases hc.snapshot v hv with ⟨hsnap, hw⟩ | ⟨hsnap, hw⟩
      · rw [hw]
        exact h.snapshot t v hsnap
      · rw [hsnap, hw, h.seq]
        exact ⟨rfl, htotal⟩
    · rw [hother hut] at hv
      rw [hc.loaded u hut]
      exact (h.snapshot u v hv).imp_right fun hle => hle.trans htotal
  · have hut : u ≠ t := by
      rintro rfl
      rw [Config.move_asleep, hawake] at hu
      cases hu
    rw [hother hut]
    exact h.asleep u hu

theorem stage_move (s : State Tid) (m : Mem) (th : Thread) :
    (fun u => ((s.move t m th).thread u).stage) =
      Function.update (fun u => (s.thread u).stage) t th.stage := by
  funext u
  rw [Config.move_thread, Function.update_apply, Function.update_apply]
  split_ifs <;> rfl

/-- A step of the code. -/
theorem Inv.move (h : Inv s) (hawake : s.1.asleep t = none)
    (heff : Effect t s.2 s.1.mem (s.1.thread t) w' m' th') : Inv (s.1.move t m' th', w') := by
  refine ⟨h.toBase.move hawake heff.toChange, ?_⟩
  rw [stage_move]
  refine h.balanced.move heff.move ?_
  refine heff.items.imp_right fun hheld u hut => ?_
  -- two owners of the mutex are one
  have hout : (s.1.thread u).held ≠ true := fun hu => hut (h.owner.unique u t hu hheld)
  exact ⟨fun hu => hout ((h.ok u).loading hu), fun hu => hout ((h.ok u).taking hu)⟩

/-- Threads return from `futex::wait`. -/
theorem Base.resume (h : Base s) (woken : Finset Tid) :
    Base ((program Tid).resume s.1 woken, s.2) := by
  refine ⟨fun u => ?_, h.owner.congr Iff.rfl fun u => ?_, h.seq, fun u v hv => ?_, fun u hu => ?_⟩
  · rw [Program.resume_thread]
    split_ifs
    · exact (h.ok u).afterWait
    · exact h.ok u
  · rw [Program.resume_same (program Tid) afterWait_held s.1 woken u]
  · rw [Program.resume_thread] at hv
    split_ifs at hv
    · exact h.snapshot u v (afterWait_snapshot hv)
    · exact h.snapshot u v hv
  · rw [Program.resume_asleep] at hu
    rw [Program.resume_thread]
    split_ifs at hu ⊢
    exact h.asleep u hu

theorem resume_stage (s : State Tid) (woken : Finset Tid) (u : Tid) :
    (((program Tid).resume s woken).thread u).stage = (s.thread u).stage ∨
      (s.thread u).stage = .loaded ∧
        (((program Tid).resume s woken).thread u).stage = .checking := by
  rw [Program.resume_thread]
  split_ifs
  · exact afterWait_stage _
  · exact Or.inl rfl

theorem asleep_of_resume {s : State Tid} {woken : Finset Tid} {u : Tid} {a : Addr}
    (h : ((program Tid).resume s woken).asleep u = some a) : u ∉ woken ∧ s.asleep u = some a := by
  rw [Program.resume_asleep] at h
  split_ifs at h with hin
  exact ⟨hin, h⟩

theorem Inv.resume (h : Inv s) (woken : Finset Tid) : Inv ((program Tid).resume s.1 woken, s.2) :=
  ⟨h.toBase.resume woken,
    h.balanced.resume (resume_stage s.1 woken) fun _ hu => (asleep_of_resume hu).2⟩

/-- A thread falls asleep on `seq_`, after fewer than `2^32` notifications. -/
theorem Inv.sleep (h : Inv s) {seq : U32} (hpc : (s.1.thread t).cv.pc = .waitFutex seq)
    (hsame : s.1.mem.cv.seq = seq) (hfew : s.2.total - s.2.loaded t < 2 ^ 32) :
    Inv (s.1.sleep t .seq, s.2) := by
  have hstage : (s.1.thread t).stage = .loaded := by rw [Thread.stage, hpc]
  obtain ⟨hseq, hle⟩ := h.snapshot t seq (by rw [Thread.snapshot, hpc])
  -- the same word within one lap is the same count
  have hfresh : s.2.loaded t = s.2.total := by
    have hword := congrArg BitVec.toNat ((h.seq.symm.trans hsame).trans hseq)
    rw [BitVec.toNat_ofNat, BitVec.toNat_ofNat] at hword
    omega
  refine ⟨⟨h.ok, h.owner, h.seq, h.snapshot, fun u hu => ?_⟩, h.balanced.sleep hstage hfresh⟩
  by_cases hut : u = t
  · rw [hut]
    change (s.1.thread t).comparing = true
    rw [Thread.comparing, hpc]
  · rw [Config.sleep_asleep, Function.update_of_ne hut] at hu
    exact h.asleep u hu

/-- A thread falls asleep on the word of the mutex. -/
theorem Inv.sleep_mutex (h : Inv s) : Inv (s.1.sleep t .mutex, s.2) := by
  have hold : ∀ u, (s.1.sleep t .mutex).asleep u = some .seq → s.1.asleep u = some .seq := by
    intro u hu
    by_cases hut : u = t
    · rw [hut, Config.sleep_asleep, Function.update_self] at hu
      cases hu
    · rwa [Config.sleep_asleep, Function.update_of_ne hut] at hu
  exact ⟨⟨h.ok, h.owner, h.seq, h.snapshot, fun u hu => h.asleep u (hold u hu)⟩,
    h.balanced.resume (fun _ => Or.inl rfl) hold⟩

theorem effect_of_unlockWake (hok : th.Ok) (hpc : th.cv.mutex.pc = .unlockWake) :
    Effect t w m th w m
      { th with cv := { th.cv with mutex := th.cv.mutex.at .idle }.settle } := by
  obtain ⟨⟨⟨held, mpc⟩, cpc⟩, pc⟩ := th
  obtain rfl : mpc = .unlockWake := hpc
  have hacq : (Mutex.Thread.mk held .unlockWake).acquiring →
      (Mutex.Thread.mk held .idle).acquiring := by
    simp [Mutex.Thread.acquiring, Mutex.Thread.locking]
  have hrel : (Mutex.Thread.mk held .unlockWake).releases →
      (Mutex.Thread.mk held .idle).releases := by
    simp [Mutex.Thread.releases, Mutex.Thread.releasing]
  obtain ⟨hplaced, hstage, hsnap⟩ := placed_settle hok.placed nofun hacq hrel
  have hmutex := settle_mutex ⟨⟨held, .idle⟩, cpc⟩
  refine ⟨⟨⟨?_, hplaced⟩, Or.inr ⟨rfl, ?_⟩, Or.inl ⟨rfl, rfl⟩, fun _ _ => rfl,
    fun v hv => Or.inl ⟨hsnap v hv, rfl⟩⟩, ?_, Or.inl rfl⟩
  · change (ConditionVariable.Thread.mk ⟨held, .idle⟩ cpc).settle.mutex.Ok
    rw [hmutex]
    exact .plain rfl rfl nofun
  · change (ConditionVariable.Thread.mk ⟨held, .idle⟩ cpc).settle.mutex.held = held
    rw [hmutex]
  · change Move t m.items w _ m.items w
      (Thread.stage ⟨(ConditionVariable.Thread.mk ⟨held, .idle⟩ cpc).settle, pc⟩)
    rw [hstage]
    exact .keep _

/-- A producer returns from `signal` or `broadcast`. -/
theorem change_of_notified (hok : th.Ok)
    (hpc : th.cv.pc = .signalWake ∨ th.cv.pc = .broadcastWake) :
    Change t w m th w m { th with cv := th.cv.at .idle } ∧
      Thread.stage { th with cv := th.cv.at .idle } = .out := by
  have hplaced : th.cv.mutex.pc = .idle ∧
      (th.pc = .leave ∧ th.held = true ∨ th.pc = .idle ∧ th.held = false) := by
    have hplaced := hok.placed
    rcases hpc with hpc | hpc <;>
      rwa [Thread.Placed, hpc] at hplaced
  obtain ⟨⟨mutex, cpc⟩, pc⟩ := th
  obtain ⟨hidle, ⟨hpc', hheld⟩ | ⟨hpc', hheld⟩⟩ := hplaced
  · obtain rfl : pc = .leave := hpc'
    exact ⟨⟨⟨hok.mutex, hheld, hidle⟩, Or.inr ⟨rfl, rfl⟩, Or.inl ⟨rfl, rfl⟩, fun _ _ => rfl, nofun⟩, rfl⟩
  · obtain rfl : pc = .idle := hpc'
    exact ⟨⟨⟨hok.mutex, Or.inl ⟨hheld, Or.inl hidle⟩⟩, Or.inr ⟨rfl, rfl⟩, Or.inl ⟨rfl, rfl⟩, fun _ _ => rfl,
      nofun⟩, rfl⟩

variable (Tid) in
theorem afterWait_checking {th : Thread} (h : th.comparing = true) :
    th.stage = .loaded ∧ ((program Tid).afterWait th).stage = .checking := by
  rcases afterWait_cases Tid th with ⟨seq, hpc, heq⟩ | ⟨hcomparing, -⟩
  · rw [heq]
    exact ⟨by rw [Thread.stage, hpc], rfl⟩
  · rw [hcomparing] at h
    cases h

/-- `futex::wake` on `seq_`: nobody sleeps afterwards, or `signal` has woken one thread. -/
theorem Inv.notified {woken : Finset Tid} (h : Inv s) (hawake : s.1.asleep t = none) (hout : t ∉ woken)
    (hpc : (s.1.thread t).cv.pc = .signalWake ∨ (s.1.thread t).cv.pc = .broadcastWake)
    (hwoken : (∃ u, s.1.asleep u = some .seq ∧ u ∉ woken) →
      (s.1.thread t).cv.pc = .signalWake ∧ ∃ u, s.1.asleep u = some .seq ∧ woken = {u}) :
    Inv (((program Tid).resume s.1 woken).move t s.1.mem
      { s.1.thread t with cv := (s.1.thread t).cv.at .idle }, s.2) := by
  obtain ⟨hchange, hstage⟩ := change_of_notified (t := t) (w := s.2) (m := s.1.mem) (h.ok t) hpc
  have hthread : ((program Tid).resume s.1 woken).thread t = s.1.thread t := by
    rw [Program.resume_thread, if_neg hout]
  have hawake' : ((program Tid).resume s.1 woken).asleep t = none := by
    rw [Program.resume_asleep, if_neg hout, hawake]
  refine ⟨(h.toBase.resume woken).move hawake' (by rw [hthread]; exact hchange), ?_⟩
  rw [stage_move, hstage]
  by_cases hrest : ∃ u, s.1.asleep u = some .seq ∧ u ∉ woken
  · obtain ⟨hsignal, u, hu, rfl⟩ := hwoken hrest
    obtain ⟨hloaded, hchecking⟩ := afterWait_checking Tid (h.asleep u hu)
    have hwake : (fun v => (((program Tid).resume s.1 {u}).thread v).stage) =
        Function.update (fun v => (s.1.thread v).stage) u .checking := by
      funext v
      rw [Program.resume_thread, Function.update_apply]
      by_cases hvu : v = u
      · rw [if_pos (Finset.mem_singleton.mpr hvu), if_pos hvu, hvu]
        exact hchecking
      · rw [if_neg (Finset.mem_singleton.not.mpr hvu), if_neg hvu]
    rw [hwake]
    exact h.balanced.signal (by rw [Thread.stage, hsignal]) hloaded ⟨u, hu⟩
      fun v hv => (asleep_of_resume hv).2
  · refine (h.resume woken).balanced.leave ?_ fun ⟨u, hu⟩ => ?_
    · simp only [hthread]
      exact hpc.imp (fun hpc => by rw [Thread.stage, hpc]) fun hpc => by rw [Thread.stage, hpc]
    · obtain ⟨hin, hu⟩ := asleep_of_resume hu
      exact absurd ⟨u, hu, hin⟩ hrest

theorem Inv.wake {c : WakeCall Thread Addr} {woken : Finset Tid} (h : Inv s)
    (hawake : s.1.asleep t = none) (hcall : wake (s.1.thread t) = some c)
    (chosen : Chosen c.count (s.1.sleepers c.addr) woken) :
    Inv (((program Tid).resume s.1 woken).move t s.1.mem c.after, s.2) := by
  have hout : t ∉ woken := by
    intro hin
    have := (Config.mem_sleepers _).mp (chosen.1 hin)
    rw [hawake] at this
    cases this
  rcases wake_cases hcall with ⟨hpc, rfl⟩ | ⟨hpc, rfl⟩ | ⟨hpc, rfl⟩
  · refine h.notified hawake hout (Or.inl hpc) fun ⟨u, hu, _⟩ => ⟨hpc, ?_⟩
    obtain ⟨v, rfl⟩ := Chosen.singleton_of_one chosen ⟨u, (Config.mem_sleepers _).mpr hu⟩
    exact ⟨v, (Config.mem_sleepers _).mp (chosen.1 (Finset.mem_singleton_self v)), rfl⟩
  · refine h.notified hawake hout (Or.inr hpc) fun ⟨u, hu, hin⟩ => ?_
    refine absurd ?_ hin
    rw [Chosen.all chosen]
    exact (Config.mem_sleepers _).mpr hu
  · have hthread : ((program Tid).resume s.1 woken).thread t = s.1.thread t := by
      rw [Program.resume_thread, if_neg hout]
    refine (h.resume woken).move (by rw [Program.resume_asleep, if_neg hout, hawake]) ?_
    rw [hthread]
    exact effect_of_unlockWake (h.ok t) hpc

theorem record_step (s : State Tid) (l : Label) (s' : State Tid) :
    record w s (.step t l) s' = w.step t l (s.thread t) := by
  cases l <;> rfl

/-- A thread that may fall asleep is at the `futex::wait` on `seq_`, or at the one of the mutex. -/
theorem wait_cases {th : Thread} {c : WaitCall Mem Thread Addr} (h : wait th = some c) :
    (∃ seq, th.cv.pc = .waitFutex seq ∧ c.addr = .seq ∧ ∀ m, c.holds m = (m.cv.seq == seq)) ∨
      th.comparing = false ∧ c.addr = .mutex ∧
        ∃ w, Mutex.wait th.cv.mutex = some w ∧ ∀ m, c.holds m = w.holds m.cv.mutexState := by
  obtain ⟨⟨mutex, cpc⟩, pc⟩ := th
  simp only [wait, Option.map_eq_some_iff] at h
  obtain ⟨c, hcall, rfl⟩ := h
  cases cpc with
  | waitFutex seq =>
      cases hcall
      exact Or.inl ⟨seq, rfl, rfl, fun _ => rfl⟩
  | _ =>
      simp only [ConditionVariable.wait, Option.map_eq_some_iff] at hcall
      obtain ⟨w, hcall, rfl⟩ := hcall
      exact Or.inr ⟨rfl, rfl, w, hcall, fun _ => rfl⟩

theorem inv_of_reachable (h : (observed Tid).Reachable fewNotifications s) : Inv s := by
  refine h.induct Inv.init ?_
  intro s a s' _ ih hnext hok
  obtain ⟨hnext, hrecord⟩ := Machine.observe_next hnext
  obtain ⟨s', w'⟩ := s'
  obtain rfl : w' = record s.2 s.1 a s' := hrecord
  cases Program.transition_of_next _ hnext with
  | step awake hstep =>
      rw [record_step]
      exact ih.move awake (effect_of_step (ih.ok _) hstep).1
  | @sleep t c awake hcall holds =>
      rcases wait_cases hcall with ⟨seq, hpc, haddr, hholds⟩ | ⟨-, haddr, -⟩
      · rw [haddr]
        rw [hholds] at holds
        refine ih.sleep hpc (eq_of_beq holds) (hok ?_)
        rw [Thread.comparing, hpc]
      · rw [haddr]
        exact ih.sleep_mutex
  | ret hcall => exact ih.resume _
  | wake awake hcall chosen => exact ih.wake awake hcall chosen
  | requeue awake hcall => cases hcall
  | refused awake hcall => cases hcall

end ConditionVariable.Client
end Psync
