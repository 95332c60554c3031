import Psync.TelemetryModel
import Psync.RunThreads

/-! What the collector has counted when no call is in progress. Each counter lags behind the calls by what
the threads inside `record_acquisition_contended` and `record_acquisition_success` have yet to add, and the
maximum by the waits that a thread has yet to compare. The sums are those of the calls' own waits as long as
every call finds its own reading in `start_time_`. -/

namespace Psync.TelemetryLock

open Concurrency

variable {Tid : Type*}

/-- The call has not been added to `acquisition_count`. -/
def Pc.uncounted : Pc → ℕ
  | .idle | .loadMax _ | .casMax .. => 0
  | _ => 1

/-- The call has not tried the lock. -/
def Pc.untried : Pc → ℕ
  | .start | .storeStart _ | .tryLock => 1
  | _ => 0

/-- The call is contended and has not loaded `start_time_`. -/
def Pc.waiting : Pc → ℕ
  | .lock | .endTime | .loadStart _ => 1
  | _ => 0

/-- The wait has not been added to `total_contention_count`. -/
def Pc.uncontended : Pc → ℕ
  | .addTotal _ | .addContention _ => 1
  | _ => 0

/-- What the call has yet to add to `total_wait_cycles`. -/
def Pc.owed : Pc → ℕ
  | .addTotal waitCycles => waitCycles.toNat
  | _ => 0

/-- The wait that the call may yet raise the maximum to. -/
def Pc.raising : Pc → Option U64
  | .addTotal waitCycles | .addContention waitCycles | .addAcquisition waitCycles => some waitCycles
  | .loadMax waitCycles | .casMax waitCycles _ => some waitCycles
  | _ => none

def History.total (h : History Tid) : ℕ := (h.waits.map Wait.cycles).sum

/-- What a thread knows at a position; `began` is its own first reading. -/
def Place (now began : U64) (waits : List Wait) : Pc → Prop
  | .storeStart reading => reading = began ∧ began ≤ now
  | .tryLock | .lock | .endTime => began ≤ now
  | .loadStart endTime => began ≤ endTime
  | .addTotal waitCycles | .addContention waitCycles | .addAcquisition waitCycles | .loadMax waitCycles =>
      ∃ w ∈ waits, w.cycles = waitCycles.toNat
  | .casMax waitCycles currentMax =>
      (∃ w ∈ waits, w.cycles = waitCycles.toNat) ∧ currentMax < waitCycles
  | _ => True

/-! ### Steps -/

variable {t : Tid} {l : Label} {m m' : Mem Tid} {h h' : History Tid} {f : Tid → Pc} {pc pc' : Pc}

/-- What a step does to the counters, with what the thread owes them. -/
structure Pays (m m' : Mem Tid) (h h' : History Tid) (pc pc' : Pc) : Prop where
  acquisition : m'.acquisitionCount + BitVec.ofNat 64 (pc'.uncounted + h.calls) =
    m.acquisitionCount + BitVec.ofNat 64 (pc.uncounted + h'.calls)
  contention : m'.totalContentionCount + BitVec.ofNat 64 (pc'.uncontended + h.waits.length) =
    m.totalContentionCount + BitVec.ofNat 64 (pc.uncontended + h'.waits.length)
  total : m'.totalWaitCycles + BitVec.ofNat 64 (pc'.owed + h.total) =
    m.totalWaitCycles + BitVec.ofNat 64 (pc.owed + h'.total)
  contended : h'.contended + h.waits.length + pc.waiting = h.contended + h'.waits.length + pc'.waiting
  tried : h'.contended + pc'.untried + h.calls ≤ h.contended + pc.untried + h'.calls
  calls : h'.calls < 2 ^ 64

/-- What a step of thread `t` does to the readings and the maximum. -/
structure Marks (t : Tid) (m m' : Mem Tid) (h h' : History Tid) (pc pc' : Pc) : Prop where
  cycles : m.cycles ≤ m'.cycles
  began : ∀ u, u ≠ t → h'.began u = h.began u
  kept : ∀ w ∈ h.waits, w ∈ h'.waits
  fresh : ∀ w ∈ h'.waits, w ∈ h.waits ∨ w.began ≤ w.ended ∧ ∃ x, pc'.raising = some x ∧ w.cycles = x.toNat
  raised : m.maxWaitCycles ≤ m'.maxWaitCycles
  attained : m'.maxWaitCycles = m.maxWaitCycles ∨ ∃ w ∈ h.waits, w.cycles = m'.maxWaitCycles.toNat
  /-- A wait is let go only when the maximum has reached it. -/
  raising : ∀ x, pc.raising = some x → pc'.raising = some x ∨ x ≤ m'.maxWaitCycles
  place : Place m'.cycles (h'.began t) h'.waits pc'

theorem Place.mono {now now' began : U64} {waits waits' : List Wait} (hp : Place now began waits pc)
    (hnow : now ≤ now') (hwaits : ∀ w ∈ waits, w ∈ waits') : Place now' began waits' pc := by
  have hwait : ∀ {x : U64}, (∃ w ∈ waits, w.cycles = x.toNat) → ∃ w ∈ waits', w.cycles = x.toNat :=
    fun ⟨w, hw, hx⟩ => ⟨w, hwaits w hw, hx⟩
  cases pc with
  | storeStart reading => exact ⟨hp.1, BitVec.le_trans hp.2 hnow⟩
  | tryLock | lock | endTime => exact BitVec.le_trans hp hnow
  | loadStart endTime => exact hp
  | addTotal waitCycles | addContention waitCycles | addAcquisition waitCycles | loadMax waitCycles =>
      exact hwait hp
  | casMax waitCycles currentMax => exact ⟨hwait hp.1, hp.2⟩
  | _ => trivial

/-- A step that leaves the readings and the maximum as they are. -/
theorem Marks.quiet (hbegan : h'.began = h.began) (hwaits : h'.waits = h.waits)
    (hcycles : m.cycles ≤ m'.cycles) (hmax : m'.maxWaitCycles = m.maxWaitCycles)
    (hraising : ∀ x, pc.raising = some x → pc'.raising = some x ∨ x ≤ m'.maxWaitCycles)
    (hplace : Place m'.cycles (h.began t) h.waits pc') : Marks t m m' h h' pc pc' where
  cycles := hcycles
  began u _ := by rw [hbegan]
  kept w hw := by rwa [hwaits]
  fresh w hw := Or.inl (by rwa [hwaits] at hw)
  raised := by
    rw [hmax]
    exact BitVec.le_refl _
  attained := Or.inl hmax
  raising := hraising
  place := by rwa [hbegan, hwaits]

/-- A `fetch_add` of what the thread owes. -/
theorem paid {a y : U64} {x n : ℕ} (hy : y = BitVec.ofNat 64 x) :
    a + y + BitVec.ofNat 64 (0 + n) = a + BitVec.ofNat 64 (x + n) := by
  rw [Nat.zero_add, hy, BitVec.add_assoc, BitVec.ofNat_add]

variable [DecidableEq Tid]

theorem raise_raising {waitCycles currentMax x : U64} (hx : waitCycles = x) :
    (raise waitCycles currentMax).raising = some x ∨ x ≤ currentMax := by
  subst hx
  rw [raise]
  split_ifs with hlt
  · exact Or.inl rfl
  · exact Or.inr (BitVec.not_lt.mp hlt)

theorem raise_place {now began waitCycles currentMax : U64} {waits : List Wait}
    (hw : ∃ w ∈ waits, w.cycles = waitCycles.toNat) :
    Place now began waits (raise waitCycles currentMax) := by
  rw [raise]
  split_ifs with hlt
  · exact ⟨hw, hlt⟩
  · trivial

theorem pays_of_run (hcalls : h.calls < 2 ^ 64) (hplace : Place m.cycles (h.began t) h.waits pc)
    (hok : Unmixed m h t .run pc) (hrun : run t m pc = some (m', pc')) :
    Pays m m' h (h.step t .run m pc) pc pc' := by
  cases pc with
  | idle => cases hrun
  | start | storeStart reading | endTime =>
      cases hrun
      exact ⟨rfl, rfl, rfl, rfl, le_rfl, hcalls⟩
  | tryLock =>
      rw [run, Option.some.injEq] at hrun
      rw [History.step]
      split_ifs at hrun with hfree
      · cases hrun
        rw [if_pos hfree]
        have htried : h.contended + 0 + h.calls ≤ h.contended + 1 + h.calls := by omega
        exact ⟨rfl, rfl, rfl, rfl, htried, hcalls⟩
      · cases hrun
        rw [if_neg hfree]
        have hcontended : h.contended + 1 + h.waits.length + 0 = h.contended + h.waits.length + 1 := by omega
        exact ⟨rfl, rfl, rfl, hcontended, le_rfl, hcalls⟩
  | success =>
      cases hrun
      exact ⟨paid rfl, rfl, rfl, rfl, le_rfl, hcalls⟩
  | lock =>
      rw [run, Option.ite_none_right_eq_some] at hrun
      obtain ⟨hfree, hrun⟩ := hrun
      cases hrun
      exact ⟨rfl, rfl, rfl, rfl, le_rfl, hcalls⟩
  | loadStart endTime =>
      cases hrun
      have hstart : m.startTime = h.began t := hok
      have hcycles : (endTime - m.startTime).toNat = (Wait.mk (h.began t) endTime).cycles := by
        rw [hstart]
        exact BitVec.toNat_sub_of_le hplace
      refine ⟨rfl, ?_, ?_, ?_, le_rfl, hcalls⟩
      · simp only [History.step, Pc.uncontended, List.length_append, List.length_singleton]
        rw [Nat.zero_add, Nat.add_comm]
      · simp only [History.step, Pc.owed, History.total, List.map_append, List.sum_append, List.map_cons,
          List.map_nil, List.sum_singleton, hcycles]
        rw [Nat.zero_add, Nat.add_comm]
      · simp only [History.step, Pc.waiting, List.length_append, List.length_singleton]
        omega
  | addTotal waitCycles =>
      cases hrun
      exact ⟨rfl, rfl, paid (by simp [Pc.owed]), rfl, le_rfl, hcalls⟩
  | addContention waitCycles =>
      cases hrun
      exact ⟨rfl, paid rfl, rfl, rfl, le_rfl, hcalls⟩
  | addAcquisition waitCycles =>
      cases hrun
      exact ⟨paid rfl, rfl, rfl, rfl, le_rfl, hcalls⟩
  | loadMax waitCycles =>
      cases hrun
      rw [raise]
      split_ifs <;> exact ⟨rfl, rfl, rfl, rfl, le_rfl, hcalls⟩
  | casMax waitCycles currentMax =>
      rw [run, Option.some.injEq, raise] at hrun
      split_ifs at hrun <;> cases hrun <;> exact ⟨rfl, rfl, rfl, rfl, le_rfl, hcalls⟩

theorem marks_of_run (hplace : Place m.cycles (h.began t) h.waits pc) (hok : Unmixed m h t .run pc)
    (hrun : run t m pc = some (m', pc')) : Marks t m m' h (h.step t .run m pc) pc pc' := by
  cases pc with
  | idle => cases hrun
  | start =>
      cases hrun
      refine ⟨BitVec.le_refl _, fun u hu => Function.update_of_ne hu _ _, fun _ hw => hw,
        fun _ hw => Or.inl hw, BitVec.le_refl _, Or.inl rfl, nofun, ?_⟩
      have hbegan : (h.step t .run m .start).began t = m.cycles := Function.update_self ..
      rw [hbegan]
      exact ⟨rfl, BitVec.le_refl _⟩
  | storeStart reading =>
      cases hrun
      exact .quiet rfl rfl (BitVec.le_refl _) rfl nofun hplace.2
  | tryLock =>
      rw [run, Option.some.injEq] at hrun
      rw [History.step]
      split_ifs at hrun with hfree
      · cases hrun
        rw [if_pos hfree]
        exact .quiet rfl rfl (BitVec.le_refl _) rfl nofun trivial
      · cases hrun
        rw [if_neg hfree]
        exact .quiet rfl rfl (BitVec.le_refl _) rfl nofun hplace
  | success =>
      cases hrun
      exact .quiet rfl rfl (BitVec.le_refl _) rfl nofun trivial
  | lock =>
      rw [run, Option.ite_none_right_eq_some] at hrun
      obtain ⟨hfree, hrun⟩ := hrun
      cases hrun
      exact .quiet rfl rfl (BitVec.le_refl _) rfl nofun hplace
  | endTime =>
      cases hrun
      exact .quiet rfl rfl (BitVec.le_refl _) rfl nofun hplace
  | loadStart endTime =>
      cases hrun
      have hstart : m.startTime = h.began t := hok
      have hcycles : (Wait.mk (h.began t) endTime).cycles = (endTime - m.startTime).toNat := by
        rw [hstart]
        exact (BitVec.toNat_sub_of_le hplace).symm
      refine ⟨BitVec.le_refl _, fun _ _ => rfl, fun _ hw => List.mem_append_left _ hw, fun w hw => ?_,
        BitVec.le_refl _, Or.inl rfl, nofun, _, List.mem_append_right _ (List.mem_singleton_self _), hcycles⟩
      rcases List.mem_append.mp hw with hold | hnew
      · exact Or.inl hold
      · rw [List.mem_singleton] at hnew
        subst hnew
        exact Or.inr ⟨hplace, _, rfl, hcycles⟩
  | addTotal waitCycles | addContention waitCycles | addAcquisition waitCycles =>
      cases hrun
      exact .quiet rfl rfl (BitVec.le_refl _) rfl (fun _ hx => Or.inl hx) hplace
  | loadMax waitCycles =>
      cases hrun
      exact .quiet rfl rfl (BitVec.le_refl _) rfl (fun _ hx => raise_raising (Option.some.inj hx)) (raise_place hplace)
  | casMax waitCycles currentMax =>
      rw [run, Option.some.injEq] at hrun
      split_ifs at hrun with heq
      · cases hrun
        refine ⟨BitVec.le_refl _, fun _ _ => rfl, fun _ hw => hw, fun _ hw => Or.inl hw, ?_,
          Or.inr hplace.1, fun x hx => Or.inr ?_, trivial⟩
        · rw [heq]
          exact BitVec.le_of_lt hplace.2
        · rw [← Option.some.inj hx]
          exact BitVec.le_refl _
      · cases hrun
        exact .quiet rfl rfl (BitVec.le_refl _) rfl (fun _ hx => raise_raising (Option.some.inj hx))
          (raise_place hplace.1)

theorem spec_of_step (hcalls : h.calls < 2 ^ 64) (hplace : Place m.cycles (h.began t) h.waits pc)
    (hok : Unmixed m h t l pc) (hstep : step t l m pc = some (m', pc')) :
    Pays m m' h (h.step t l m pc) pc pc' ∧ Marks t m m' h (h.step t l m pc) pc pc' := by
  cases l with
  | lock =>
      rw [step, Option.ite_none_right_eq_some] at hstep
      obtain ⟨rfl, hstep⟩ := hstep
      cases hstep
      have hcount : 1 + h.calls = 0 + (h.calls + 1) := by omega
      have htried : h.contended + 1 + h.calls ≤ h.contended + 0 + (h.calls + 1) := by omega
      refine ⟨⟨?_, rfl, rfl, rfl, htried, hok⟩, .quiet rfl rfl (BitVec.le_refl _) rfl nofun trivial⟩
      exact congrArg (fun n => m.acquisitionCount + BitVec.ofNat 64 n) hcount
  | unlock =>
      rw [step, Option.ite_none_right_eq_some] at hstep
      obtain ⟨⟨rfl, hown⟩, hstep⟩ := hstep
      cases hstep
      exact ⟨⟨rfl, rfl, rfl, rfl, le_rfl, hcalls⟩, .quiet rfl rfl (BitVec.le_refl _) rfl nofun trivial⟩
  | run => exact ⟨pays_of_run hcalls hplace hok hstep, marks_of_run hplace hok hstep⟩
  | spurious =>
      rw [step, Option.ite_none_right_eq_some] at hstep
      obtain ⟨rfl, hstep⟩ := hstep
      cases hstep
      have hcontended : h.contended + 1 + h.waits.length + 0 = h.contended + h.waits.length + 1 := by omega
      exact ⟨⟨rfl, rfl, rfl, hcontended, le_rfl, hcalls⟩,
        .quiet rfl rfl (BitVec.le_refl _) rfl nofun hplace⟩
  | tick now =>
      rw [step, Option.ite_none_right_eq_some] at hstep
      obtain ⟨hle, hstep⟩ := hstep
      cases hstep
      exact ⟨⟨rfl, rfl, rfl, rfl, le_rfl, hcalls⟩,
        .quiet rfl rfl hle rfl (fun _ hx => Or.inl hx) (hplace.mono hle fun _ hw => hw)⟩

/-! ### Runs -/

variable [Fintype Tid]

structure Inv (m : Mem Tid) (f : Tid → Pc) (h : History Tid) : Prop where
  acquisition : m.acquisitionCount + BitVec.ofNat 64 (tally Pc.uncounted f) = BitVec.ofNat 64 h.calls
  contention : m.totalContentionCount + BitVec.ofNat 64 (tally Pc.uncontended f) =
    BitVec.ofNat 64 h.waits.length
  total : m.totalWaitCycles + BitVec.ofNat 64 (tally Pc.owed f) = BitVec.ofNat 64 h.total
  contended : h.contended = h.waits.length + tally Pc.waiting f
  tried : h.contended + tally Pc.untried f ≤ h.calls
  calls : h.calls < 2 ^ 64
  ordered : ∀ w ∈ h.waits, w.began ≤ w.ended
  /-- A wait beyond the maximum is in the hands of a thread. -/
  largest : ∀ w ∈ h.waits, w.cycles ≤ m.maxWaitCycles.toNat ∨
    ∃ t x, (f t).raising = some x ∧ w.cycles = x.toNat
  attained : m.maxWaitCycles.toNat = 0 ∨ ∃ w ∈ h.waits, w.cycles = m.maxWaitCycles.toNat
  place : ∀ t, Place m.cycles (h.began t) h.waits (f t)

theorem Inv.step (hinv : Inv m f h) (hpays : Pays m m' h h' (f t) pc')
    (hmarks : Marks t m m' h h' (f t) pc') : Inv m' (Function.update f t pc') h' := by
  have hwaiting := tally_update (w := Pc.waiting) (f := f) t pc'
  have huntried := tally_update (w := Pc.untried) (f := f) t pc'
  have hcontended := hinv.contended
  have hcontended' := hpays.contended
  have htried := hinv.tried
  have htried' := hpays.tried
  refine ⟨word_tally_update hinv.acquisition hpays.acquisition,
    word_tally_update hinv.contention hpays.contention, word_tally_update hinv.total hpays.total,
    by omega, by omega, hpays.calls, fun w hw => ?_, fun w hw => ?_, ?_, fun u => ?_⟩
  · rcases hmarks.fresh w hw with hold | ⟨hordered, -⟩
    · exact hinv.ordered w hold
    · exact hordered
  · rcases hmarks.fresh w hw with hold | ⟨-, x, hx, hcycles⟩
    · rcases hinv.largest w hold with hle | ⟨u, x, hx, hcycles⟩
      · exact Or.inl (hle.trans hmarks.raised)
      · by_cases heq : u = t
        · subst heq
          rcases hmarks.raising x hx with hx' | hle
          · exact Or.inr ⟨u, x, by rwa [Function.update_self], hcycles⟩
          · exact Or.inl (hcycles.trans_le hle)
        · exact Or.inr ⟨u, x, by rwa [Function.update_of_ne heq], hcycles⟩
    · exact Or.inr ⟨t, x, by rwa [Function.update_self], hcycles⟩
  · rcases hmarks.attained with hsame | ⟨w, hw, hcycles⟩
    · rw [hsame]
      rcases hinv.attained with hzero | ⟨w, hw, hcycles⟩
      · exact Or.inl hzero
      · exact Or.inr ⟨w, hmarks.kept w hw, hcycles⟩
    · exact Or.inr ⟨w, hmarks.kept w hw, hcycles⟩
  · by_cases heq : u = t
    · subst heq
      rw [Function.update_self]
      exact hmarks.place
    · rw [Function.update_of_ne heq, hmarks.began u heq]
      exact (hinv.place u).mono hmarks.cycles hmarks.kept

variable {now : U64} {s : State Tid × History Tid}

theorem inv_of_reachable (hreach : (observed Tid now).Reachable unmixed s) :
    Inv s.1.mem s.1.thread s.2 := by
  refine hreach.induct (I := fun s => Inv s.1.mem s.1.thread s.2) ?_ fun _ ih hnext hok => ?_
  · have hnone : ∀ w : Pc → ℕ, w .idle = 0 → tally w (observed Tid now).init.1.thread = 0 :=
      fun w hw => tally_eq_zero.mpr fun _ => hw
    refine ⟨?_, ?_, ?_, ?_, ?_, Nat.two_pow_pos 64, nofun, nofun, Or.inl rfl, fun _ => trivial⟩
    · rw [hnone _ rfl]
      rfl
    · rw [hnone _ rfl]
      rfl
    · rw [hnone _ rfl]
      rfl
    · rw [hnone _ rfl]
      rfl
    · rw [hnone _ rfl]
      exact le_rfl
  · obtain ⟨t, l, m, pc, rfl, hstep, rfl⟩ := Program.observed_step_of_next _ (fun _ => rfl)
      (fun _ => rfl) (fun _ => rfl) hnext
    obtain ⟨hpays, hmarks⟩ := spec_of_step ih.calls (ih.place t) hok hstep
    exact ih.step hpays hmarks

/-- The collector accounts for all calls so far, each contended one by its own readings. -/
structure Accounted (m : Mem Tid) (h : History Tid) : Prop where
  /-- The waits are those of the contended calls. -/
  waits : h.waits.length = h.contended
  ordered : ∀ w ∈ h.waits, w.began ≤ w.ended
  total : m.totalWaitCycles = BitVec.ofNat 64 (h.waits.map Wait.cycles).sum
  largest : ∀ w ∈ h.waits, w.cycles ≤ m.maxWaitCycles.toNat
  attained : if h.waits = [] then m.maxWaitCycles = 0 else
    ∃ w ∈ h.waits, w.cycles = m.maxWaitCycles.toNat
  contention : m.totalContentionCount.toNat = h.contended
  acquisition : m.acquisitionCount.toNat = h.calls

/-- Whenever no call is in progress, every contended wait has been accounted by its own time. -/
theorem waits_accounted (hreach : (observed Tid now).Reachable unmixed s)
    (hidle : ∀ t, s.1.thread t = .idle) : Accounted s.1.mem s.2 := by
  have hinv := inv_of_reachable hreach
  have hnone : ∀ w : Pc → ℕ, w .idle = 0 → tally w s.1.thread = 0 := by
    intro w hw
    refine tally_eq_zero.mpr fun t => ?_
    rw [hidle t]
    exact hw
  have hacquisition := hinv.acquisition
  have hcontention := hinv.contention
  have htotal := hinv.total
  have hcontended := hinv.contended
  have hcalls := hinv.calls
  have htried := hinv.tried
  rw [hnone _ rfl, BitVec.add_zero] at hacquisition hcontention htotal
  rw [hnone _ rfl] at hcontended
  have hlargest : ∀ w ∈ s.2.waits, w.cycles ≤ s.1.mem.maxWaitCycles.toNat := by
    intro w hw
    rcases hinv.largest w hw with hle | ⟨t, x, hx, -⟩
    · exact hle
    · rw [hidle t] at hx
      cases hx
  refine ⟨hcontended.symm, hinv.ordered, htotal, hlargest, ?_, ?_, ?_⟩
  · split_ifs with hempty
    · rcases hinv.attained with hzero | ⟨w, hw, -⟩
      · exact BitVec.eq_of_toNat_eq hzero
      · rw [hempty] at hw
        cases hw
    · rcases hinv.attained with hzero | hattained
      · obtain ⟨w, hw⟩ := List.exists_mem_of_ne_nil _ hempty
        have hle := hlargest w hw
        exact ⟨w, hw, by omega⟩
      · exact hattained
  · rw [hcontention, BitVec.toNat_ofNat, Nat.mod_eq_of_lt (by omega)]
    omega
  · rw [hacquisition, BitVec.toNat_ofNat, Nat.mod_eq_of_lt hcalls]

/-! ### Examples -/

/-- Thread `c` has locked, and thread `a`, whose call began at 10, gets the lock at 110. -/
def contendedRun : List (Act Runner Label) :=
  .step .c .lock :: List.replicate 4 (.step .c .run) ++ [.step .c (.tick 10), .step .a .lock] ++
    List.replicate 3 (.step .a .run) ++ [.step .c .unlock, .step .c (.tick 110)] ++
    List.replicate 2 (.step .a .run)

theorem waits_accounted_alone : ∃ s : State Runner × History Runner,
    s.2.waits = [⟨10, 110⟩] ∧ s.1.mem.maxWaitCycles = 100 ∧ Accounted s.1.mem s.2 := by
  let M := observed Runner 0
  let labels : List (Act Runner Label) := contendedRun ++ List.replicate 6 (.step .a .run)
  exact ⟨(M.run unmixed M.init labels).get (by decide +kernel), by decide +kernel, by decide +kernel,
    waits_accounted (Machine.Reachable.of_run (M := M) labels _) (by decide +kernel)⟩

/-- Thread `b` begins at 120, before thread `a` has loaded `start_time_`. -/
def mixedRun : List (Act Runner Label) :=
  contendedRun ++ [.step .b (.tick 120), .step .b .lock] ++ List.replicate 2 (.step .b .run) ++
    List.replicate 6 (.step .a .run) ++ .step .a .unlock :: List.replicate 2 (.step .b .run)

/-- The wait of 100 cycles is counted as 2 ^ 64 - 10. -/
theorem waits_mixed : ∃ s : State Runner × History Runner,
    (observed Runner 0).Reachable anyStep s ∧ (∀ t, s.1.thread t = .idle) ∧ s.2.waits = [⟨10, 110⟩] ∧
    s.1.mem.totalWaitCycles = -10 ∧ s.1.mem.maxWaitCycles = -10 ∧ ¬ Accounted s.1.mem s.2 := by
  let M := observed Runner 0
  have htotal : ((M.run anyStep M.init mixedRun).get (by decide +kernel)).1.mem.totalWaitCycles ≠
      BitVec.ofNat 64 (((M.run anyStep M.init mixedRun).get (by decide +kernel)).2.waits.map
        Wait.cycles).sum := by decide +kernel
  exact ⟨(M.run anyStep M.init mixedRun).get (by decide +kernel),
    Machine.Reachable.of_run (M := M) mixedRun _, by decide +kernel, by decide +kernel, by decide +kernel,
    by decide +kernel, fun h => htotal h.total⟩

end Psync.TelemetryLock
