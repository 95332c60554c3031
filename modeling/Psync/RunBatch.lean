import Psync.RunFutex
import Psync.RunGuard

/-! Batches under a lock. A batch acquires a lock in some mode, runs a function on the data that the
lock protects, one atomic step after another, and releases the lock when the function has returned or
thrown. The lock is any program that has a call for each of the two ends; a mode may write, and then it
excludes every other thread.

Batches are serializable in the order in which their functions end: each of them has run as if it had been
alone on the data that the earlier ones have left. -/

namespace Concurrency

/-- Where a thread is in the calls of a lock. -/
inductive LockPhase (Mode : Type*)
  | out
  | acquiring (mode : Mode)
  | holding (mode : Mode)
  | releasing (mode : Mode)
  deriving DecidableEq

namespace LockPhase

variable {Mode : Type*}

/-- Inside a call. -/
def busy : LockPhase Mode → Bool
  | acquiring _ | releasing _ => true
  | _ => false

/-- What a step inside a call does: it stays in the call, or the call returns. -/
inductive Next : LockPhase Mode → LockPhase Mode → Prop
  | stay (p : LockPhase Mode) : Next p p
  | granted (mode : Mode) : Next (acquiring mode) (holding mode)
  | left (mode : Mode) : Next (releasing mode) out

variable {mode : Mode} {p : LockPhase Mode}

theorem Next.of_acquiring (h : (acquiring mode).Next p) : p = acquiring mode ∨ p = holding mode := by
  cases h with
  | stay => exact Or.inl rfl
  | granted => exact Or.inr rfl

theorem Next.of_releasing (h : (releasing mode).Next p) : p = releasing mode ∨ p = out := by
  cases h with
  | stay => exact Or.inl rfl
  | left => exact Or.inr rfl

end LockPhase

/-- The code of a lock, the labels with which its calls begin and go on, and whether a thread is outside every
call. The phase of a thread is what its position means; it has none in other calls, or when it nests them. -/
structure LockCode (Tid M Th Addr L Mode : Type*) where
  code : Program Tid M Th Addr L
  acquire : Mode → L
  release : Mode → L
  run : L
  idle : Th → Bool
  phase : Th → Option (LockPhase Mode)

variable {Tid M Th Addr L Mode K X : Type*}

/-- The stage of a thread: outside, or in a batch. Its function was called with the local state `first`, and
inside the lock it has come to `k`. -/
inductive BatchStage (Mode K : Type*)
  | outside
  | acquiring (mode : Mode) (first : K)
  | inside (mode : Mode) (first k : K)
  | releasing (mode : Mode)
  deriving DecidableEq

structure BatchThread (Th Mode K : Type*) where
  lock : Th
  stage : BatchStage Mode K
  deriving DecidableEq

inductive BatchLabel (Mode K : Type*)
  | batch (mode : Mode) (k : K)
  | run
  deriving DecidableEq

/-- A batch that has ended: its thread, and the local states of its function at the two ends. -/
structure Batch (Tid Mode K : Type*) where
  thread : Tid
  mode : Mode
  first : K
  last : K
  deriving DecidableEq

/-! ### Serial runs -/

section Serial

variable (func : Mode → K × X → Option (K × X))

/-- The function alone on the data. -/
def Alone (mode : Mode) : K × X → K × X → Prop :=
  Relation.ReflTransGen fun p q => func mode p = some q

/-- The batches run one after another lead from the data `x` to the last argument. -/
inductive Serial (x : X) : List (Batch Tid Mode K) → X → Prop
  | nil : Serial x [] x
  | concat {log : List (Batch Tid Mode K)} {b : Batch Tid Mode K} {y z : X} (before : Serial x log y)
      (alone : Alone func b.mode (b.first, y) (b.last, z)) (ended : func b.mode (b.last, z) = none) :
      Serial x (log ++ [b]) z

/-- Batches in a mode that does not write leave the data. -/
def ReadsOnly (writes : Mode → Bool) : Prop :=
  ∀ {mode k k' x x'}, writes mode = false → func mode (k, x) = some (k', x') → x' = x

/-- The batches in `log` ran one after another, and every function that runs now has so far run alone, on
the data that they have left; while no batch that writes runs these are the data. -/
def Serializable (writes : Mode → Bool) (x₀ : X) (stage : Tid → BatchStage Mode K) (x : X)
    (log : List (Batch Tid Mode K)) : Prop :=
  ∃ y, Serial func x₀ log y ∧
    (∀ t mode first k, stage t = .inside mode first k → Alone func mode (first, y) (k, x)) ∧
    ((∀ t mode first k, stage t = .inside mode first k → writes mode = false) → x = y)

/-- A batch that writes is alone inside. -/
def Exclusive (writes : Mode → Bool) (stage : Tid → BatchStage Mode K) : Prop :=
  ∀ ⦃t u a b first k first' k'⦄, t ≠ u → stage t = .inside a first k → stage u = .inside b first' k' →
    writes a = false

/-- What a step of a thread does to the data and to the log. -/
inductive Move (t : Tid) (x : X) :
    BatchStage Mode K → X → BatchStage Mode K → List (Batch Tid Mode K) → Prop
  | quiet {st st' : BatchStage Mode K} (hold : ∀ mode first k, st ≠ .inside mode first k)
      (hnew : ∀ mode first k, st' ≠ .inside mode first k) : Move t x st x st' []
  | enter {st : BatchStage Mode K} {mode : Mode} {first : K} (hold : ∀ mode first k, st ≠ .inside mode first k) :
      Move t x st x (.inside mode first first) []
  | work {mode : Mode} {first k k' : K} {x' : X} (hfunc : func mode (k, x) = some (k', x')) :
      Move t x (.inside mode first k) x' (.inside mode first k') []
  | finish {mode : Mode} {first k : K} (hfunc : func mode (k, x) = none) :
      Move t x (.inside mode first k) x (.releasing mode) [⟨t, mode, first, k⟩]

namespace Serializable

variable {func} {writes : Mode → Bool} {x₀ x x' : X} {stage : Tid → BatchStage Mode K}
  {log : List (Batch Tid Mode K)} {mode : Mode} {first k k' : K} {t : Tid}

theorem init : Serializable func writes x₀ (fun _ : Tid => .outside) x₀ ([] : List (Batch Tid Mode K)) :=
  ⟨x₀, .nil, nofun, fun _ => rfl⟩

/-- Only the functions that run matter. -/
theorem congr (h : Serializable func writes x₀ stage x log) {stage' : Tid → BatchStage Mode K}
    (hstage : ∀ t mode first k, stage' t = .inside mode first k ↔ stage t = .inside mode first k) :
    Serializable func writes x₀ stage' x log := by
  obtain ⟨y, hserial, halone, hdata⟩ := h
  refine ⟨y, hserial, fun t m f l ht => halone t m f l ((hstage t m f l).mp ht), fun hreads => ?_⟩
  exact hdata fun t m f l ht => hreads t m f l ((hstage t m f l).mpr ht)

variable [DecidableEq Tid]

theorem inside_update {st : BatchStage Mode K} {u : Tid} {m : Mode} {f l : K}
    (h : Function.update stage t st u = .inside m f l) :
    u = t ∧ st = .inside m f l ∨ u ≠ t ∧ stage u = .inside m f l := by
  rw [Function.update_apply] at h
  split_ifs at h with hut
  · exact Or.inl ⟨hut, h⟩
  · exact Or.inr ⟨hut, h⟩

/-- Outside the functions. -/
theorem quiet {st : BatchStage Mode K} (h : Serializable func writes x₀ stage x log)
    (hold : ∀ mode first k, stage t ≠ .inside mode first k) (hnew : ∀ mode first k, st ≠ .inside mode first k) :
    Serializable func writes x₀ (Function.update stage t st) x log := by
  obtain ⟨y, hserial, halone, hdata⟩ := h
  refine ⟨y, hserial, fun u m f l hu => ?_, fun hreads => hdata fun u m f l hu => ?_⟩
  · rcases inside_update hu with ⟨-, hst⟩ | ⟨-, hu⟩
    · exact absurd hst (hnew _ _ _)
    · exact halone u m f l hu
  · have hut : u ≠ t := by
      rintro rfl
      exact hold _ _ _ hu
    exact hreads u m f l (by rwa [Function.update_of_ne hut])

/-- A function is called. -/
theorem enter (h : Serializable func writes x₀ stage x log) (hold : ∀ mode first k, stage t ≠ .inside mode first k)
    (hexcl : Exclusive writes (Function.update stage t (.inside mode first first))) :
    Serializable func writes x₀ (Function.update stage t (.inside mode first first)) x log := by
  obtain ⟨y, hserial, halone, hdata⟩ := h
  have hothers : ∀ u m f l, stage u = .inside m f l → writes m = false := by
    intro u m f l hu
    have hut : u ≠ t := by
      rintro rfl
      exact hold _ _ _ hu
    exact hexcl hut (by rwa [Function.update_of_ne hut]) (Function.update_self ..)
  have hxy := hdata hothers
  refine ⟨y, hserial, fun u m f l hu => ?_, fun _ => hxy⟩
  rcases inside_update hu with ⟨-, hst⟩ | ⟨-, hu⟩
  · cases hst
    rw [hxy]
    exact .refl
  · exact halone u m f l hu

/-- A function takes a step. -/
theorem work (h : Serializable func writes x₀ stage x log) (hstage : stage t = .inside mode first k)
    (hfunc : func mode (k, x) = some (k', x')) (hreads : ReadsOnly func writes)
    (hexcl : Exclusive writes stage) :
    Serializable func writes x₀ (Function.update stage t (.inside mode first k')) x' log := by
  obtain ⟨y, hserial, halone, hdata⟩ := h
  refine ⟨y, hserial, fun u m f l hu => ?_, fun hnone => ?_⟩
  · rcases inside_update hu with ⟨-, hst⟩ | ⟨hut, hu⟩
    · cases hst
      exact (halone t _ _ _ hstage).tail hfunc
    · -- another function is at work, and so this one only reads
      rw [hreads (hexcl hut.symm hstage hu) hfunc]
      exact halone u m f l hu
  · have hread := hnone t mode first k' (Function.update_self ..)
    rw [hreads hread hfunc]
    refine hdata fun u m f l hu => ?_
    by_cases hut : u = t
    · rw [hut, hstage] at hu
      cases hu
      exact hread
    · exact hnone u m f l (by rwa [Function.update_of_ne hut])

/-- A function ends. -/
theorem finish {st : BatchStage Mode K} (h : Serializable func writes x₀ stage x log)
    (hstage : stage t = .inside mode first k) (hfunc : func mode (k, x) = none)
    (hnew : ∀ mode first k, st ≠ .inside mode first k) (hexcl : Exclusive writes stage) :
    Serializable func writes x₀ (Function.update stage t st) x (log ++ [⟨t, mode, first, k⟩]) := by
  obtain ⟨y, hserial, halone, hdata⟩ := h
  refine ⟨x, hserial.concat (halone t _ _ _ hstage) hfunc, fun u m f l hu => ?_, fun _ => rfl⟩
  rcases inside_update hu with ⟨-, hst⟩ | ⟨hut, hu⟩
  · exact absurd hst (hnew _ _ _)
  · have hxy : x = y := by
      refine hdata fun v m' f' l' hv => ?_
      by_cases hvt : v = t
      · rw [hvt] at hv
        exact hexcl hut.symm hv hu
      · exact hexcl hvt hv hstage
    have hrest := halone u m f l hu
    rwa [← hxy] at hrest

theorem move {st : BatchStage Mode K} {new : List (Batch Tid Mode K)}
    (h : Serializable func writes x₀ stage x log) (hmove : Move func t x (stage t) x' st new)
    (hreads : ReadsOnly func writes) (hexcl : Exclusive writes stage)
    (hexcl' : Exclusive writes (Function.update stage t st)) :
    Serializable func writes x₀ (Function.update stage t st) x' (log ++ new) := by
  generalize hstage : stage t = old at hmove
  cases hmove with
  | quiet hold hnew =>
      rw [List.append_nil]
      exact h.quiet (hstage ▸ hold) hnew
  | enter hold =>
      rw [List.append_nil]
      exact h.enter (hstage ▸ hold) hexcl'
  | work hfunc =>
      rw [List.append_nil]
      exact h.work hstage hfunc hreads hexcl
  | finish hfunc => exact h.finish hstage hfunc nofun hexcl

end Serializable
end Serial

namespace LockCode

variable (C : LockCode Tid M Th Addr L Mode)

/-- The calls of batches. -/
def Calls : Act Tid L → Prop
  | .step _ l => l = C.run ∨ ∃ mode, l = C.acquire mode ∨ l = C.release mode
  | _ => True

section Program

variable (func : Mode → K × X → Option (K × X))

/-- A step of the lock's code, with the stage that follows. -/
def lockStep (t : Tid) (l : L) (m : M × X) (th : Th) (stage : BatchStage Mode K) :
    Option ((M × X) × BatchThread Th Mode K) :=
  (C.code.step t l m.1 th).map fun r => ((r.1, m.2), ⟨r.2, stage⟩)

/-- The function is called once the code of the acquiring call has returned. -/
def batchStep (t : Tid) (l : BatchLabel Mode K) (m : M × X) (th : BatchThread Th Mode K) :
    Option ((M × X) × BatchThread Th Mode K) :=
  match l, th.stage with
  | .batch mode first, .outside => C.lockStep t (C.acquire mode) m th.lock (.acquiring mode first)
  | .run, .acquiring mode first =>
      if C.idle th.lock then some (m, ⟨th.lock, .inside mode first first⟩)
      else C.lockStep t C.run m th.lock (.acquiring mode first)
  | .run, .inside mode first k => match func mode (k, m.2) with
    | some (k', x) => some ((m.1, x), ⟨th.lock, .inside mode first k'⟩)
    | none => C.lockStep t (C.release mode) m th.lock (.releasing mode)
  | .run, .releasing mode => if C.idle th.lock then some (m, ⟨th.lock, .outside⟩)
      else C.lockStep t C.run m th.lock (.releasing mode)
  | _, _ => none

/-- The threads that run batches on the data `x`. -/
def batches (x : X) : Program Tid (M × X) (BatchThread Th Mode K) Addr (BatchLabel Mode K) where
  mem := (C.code.mem, x)
  start := ⟨C.code.start, .outside⟩
  step := C.batchStep func
  wait th := (C.code.wait th.lock).map fun w =>
    ⟨w.addr, fun m => w.holds m.1, ⟨w.after, th.stage⟩⟩
  wake th := (C.code.wake th.lock).map fun w => ⟨w.addr, w.count, ⟨w.after, th.stage⟩⟩

/-- A batch has ended when its function has, at the step that begins to release the lock. -/
def ended (t : Tid) : BatchStage Mode K → BatchStage Mode K → List (Batch Tid Mode K)
  | .inside mode first k, .releasing _ => [⟨t, mode, first, k⟩]
  | _, _ => []

def record (log : List (Batch Tid Mode K)) (s : Config Tid (M × X) (BatchThread Th Mode K) Addr)
    (a : Act Tid (BatchLabel Mode K)) (s' : Config Tid (M × X) (BatchThread Th Mode K) Addr) :
    List (Batch Tid Mode K) :=
  match a with
  | .step t _ => log ++ ended t (s.thread t).stage (s'.thread t).stage
  | _ => log

/-- The runs of batches, with the batches that have ended. -/
def observed [DecidableEq Tid] [Fintype Tid] [DecidableEq Addr] (x : X) :
    Machine (Config Tid (M × X) (BatchThread Th Mode K) Addr × List (Batch Tid Mode K))
      (Act Tid (BatchLabel Mode K)) :=
  (C.batches func x).machine.observe [] record

end Program

/-- What batches need of a lock: the calls go through their phases, the kernel is called inside calls only,
and of two threads that hold the lock neither writes. -/
structure Lawful (writes : Mode → Bool) (fits : Config Tid M Th Addr → Prop) [DecidableEq Tid]
    [Fintype Tid] [DecidableEq Addr] : Prop where
  start : C.phase C.code.start = some .out
  idle : ∀ {th p}, C.phase th = some p → C.idle th = !p.busy
  acquire : ∀ {t m th m' th' mode}, C.phase th = some .out →
    C.code.step t (C.acquire mode) m th = some (m', th') → C.phase th' = some (.acquiring mode)
  release : ∀ {t m th m' th' mode}, C.phase th = some (.holding mode) →
    C.code.step t (C.release mode) m th = some (m', th') → C.phase th' = some (.releasing mode)
  run : ∀ {t m th m' th' p}, C.phase th = some p → p.busy = true →
    C.code.step t C.run m th = some (m', th') → ∃ p', C.phase th' = some p' ∧ p.Next p'
  afterWait : ∀ th, C.phase (C.code.afterWait th) = C.phase th
  wake : ∀ {th w p}, C.phase th = some p → C.code.wake th = some w →
    p.busy = true ∧ ∃ p', C.phase w.after = some p' ∧ p.Next p'
  requeue : ∀ th, C.code.requeue th = none
  exclusive : ∀ {s t u a b}, C.code.machine.Reachable (fun _ act s' => C.Calls act ∧ fits s') s → t ≠ u →
    C.phase (s.thread t) = some (.holding a) → C.phase (s.thread u) = some (.holding b) → writes a = false

/-! ### The lock on its own -/

section Runs

variable {C} {K X : Type*} {func : Mode → K × X → Option (K × X)} {x : X}

/-- What the lock sees of a state. -/
def lockState (s : Config Tid (M × X) (BatchThread Th Mode K) Addr) : Config Tid M Th Addr :=
  ⟨s.mem.1, fun t => (s.thread t).lock, s.asleep⟩

/-- What the stage of a thread tells about its phase. -/
def Coherent (C : LockCode Tid M Th Addr L Mode) (th : BatchThread Th Mode K) : Prop :=
  match th.stage with
  | .outside => C.phase th.lock = some .out
  | .acquiring mode _ => ∃ p, C.phase th.lock = some p ∧ (LockPhase.acquiring mode).Next p
  | .inside mode _ _ => C.phase th.lock = some (.holding mode)
  | .releasing mode => ∃ p, C.phase th.lock = some p ∧ (LockPhase.releasing mode).Next p

variable {t : Tid} {m m' : M × X} {th th' : BatchThread Th Mode K} {l : BatchLabel Mode K}
  {stage : BatchStage Mode K} {l' : L}

theorem lockStep_eq_some {lock : Th} (h : C.lockStep t l' m lock stage = some (m', th')) :
    C.code.step t l' m.1 lock = some (m'.1, th'.lock) ∧ m'.2 = m.2 ∧ th'.stage = stage := by
  rw [lockStep, Option.map_eq_some_iff] at h
  obtain ⟨r, hr, heq⟩ := h
  cases heq
  exact ⟨hr, rfl, rfl⟩

theorem batchStep_move (h : C.batchStep func t l m th = some (m', th')) :
    Move func t m.2 th.stage m'.2 th'.stage (ended t th.stage th'.stage) := by
  obtain ⟨lock, st⟩ := th
  cases l with
  | batch mode first =>
      cases st with
      | outside =>
          obtain ⟨-, hdata, hstage⟩ := lockStep_eq_some h
          rw [hdata, hstage]
          exact .quiet nofun nofun
      | acquiring | inside | releasing => cases h
  | run =>
      cases st with
      | outside => cases h
      | acquiring mode first =>
          simp only [batchStep] at h
          split_ifs at h
          · cases h
            exact .enter nofun
          · obtain ⟨-, hdata, hstage⟩ := lockStep_eq_some h
            rw [hdata, hstage]
            exact .quiet nofun nofun
      | inside mode first k =>
          simp only [batchStep] at h
          cases hfunc : func mode (k, m.2) with
          | some q =>
              rw [hfunc] at h
              cases h
              exact .work hfunc
          | none =>
              rw [hfunc] at h
              obtain ⟨-, hdata, hstage⟩ := lockStep_eq_some h
              rw [hdata, hstage]
              exact .finish hfunc
      | releasing mode =>
          simp only [batchStep] at h
          split_ifs at h
          · cases h
            exact .quiet nofun nofun
          · obtain ⟨-, hdata, hstage⟩ := lockStep_eq_some h
            rw [hdata, hstage]
            exact .quiet nofun nofun

/-- A step of a batch is a step of the lock's code, or leaves the lock alone. -/
theorem batchStep_lock (h : C.batchStep func t l m th = some (m', th')) :
    m'.1 = m.1 ∧ th'.lock = th.lock ∨
      ∃ l', (l' = C.run ∨ ∃ mode, l' = C.acquire mode ∨ l' = C.release mode) ∧
        C.code.step t l' m.1 th.lock = some (m'.1, th'.lock) := by
  obtain ⟨lock, st⟩ := th
  cases l with
  | batch mode first =>
      cases st with
      | outside => exact Or.inr ⟨_, Or.inr ⟨mode, Or.inl rfl⟩, (lockStep_eq_some h).1⟩
      | acquiring | inside | releasing => cases h
  | run =>
      cases st with
      | outside => cases h
      | acquiring mode first =>
          simp only [batchStep] at h
          split_ifs at h
          · cases h
            exact Or.inl ⟨rfl, rfl⟩
          · exact Or.inr ⟨_, Or.inl rfl, (lockStep_eq_some h).1⟩
      | inside mode first k =>
          simp only [batchStep] at h
          split at h
          · cases h
            exact Or.inl ⟨rfl, rfl⟩
          · exact Or.inr ⟨_, Or.inr ⟨mode, Or.inr rfl⟩, (lockStep_eq_some h).1⟩
      | releasing mode =>
          simp only [batchStep] at h
          split_ifs at h
          · cases h
            exact Or.inl ⟨rfl, rfl⟩
          · exact Or.inr ⟨_, Or.inl rfl, (lockStep_eq_some h).1⟩

theorem next_of_batchStep [DecidableEq Tid] [Fintype Tid] [DecidableEq Addr]
    {s : Config Tid (M × X) (BatchThread Th Mode K) Addr} (x : X) (log : List (Batch Tid Mode K))
    (awake : s.asleep t = none) (h : C.batchStep func t l s.mem (s.thread t) = some (m', th')) :
    (C.observed func x).next (s, log) (.step t l) =
      some (s.move t m' th', log ++ ended t (s.thread t).stage th'.stage) := by
  have hnext := (C.batches func x).next_of_step awake h
  change ((C.batches func x).machine.next s (.step t l)).map _ = _
  rw [hnext]
  simp only [Option.map_some, record, Config.move_thread, Function.update_self]

theorem leads_of_batchStep [DecidableEq Tid] [Fintype Tid] [DecidableEq Addr]
    {s : Config Tid (M × X) (BatchThread Th Mode K) Addr} (x : X) (log : List (Batch Tid Mode K))
    (awake : s.asleep t = none) (h : C.batchStep func t l s.mem (s.thread t) = some (m', th')) :
    (C.observed func x).Leads anyStep (s, log)
      (s.move t m' th', log ++ ended t (s.thread t).stage th'.stage) :=
  .single ⟨.step t l, next_of_batchStep x log awake h, trivial⟩

/-- Outside its function a batch neither reads nor writes the data. -/
theorem batchStep_data (h : C.batchStep func t l m th = some (m', th'))
    (hout : ∀ mode first k, th.stage ≠ .inside mode first k) (x : X) :
    m'.2 = m.2 ∧ C.batchStep func t l (m.1, x) th = some ((m'.1, x), th') := by
  obtain ⟨lock, st⟩ := th
  have hlock : ∀ {l' : L} {st' : BatchStage Mode K}, C.lockStep t l' m lock st' = some (m', th') →
      m'.2 = m.2 ∧ C.lockStep t l' (m.1, x) lock st' = some ((m'.1, x), th') := by
    intro l' st' hstep
    rw [lockStep, Option.map_eq_some_iff] at hstep
    obtain ⟨r, hr, heq⟩ := hstep
    cases heq
    refine ⟨rfl, ?_⟩
    rw [lockStep]
    simp only [hr, Option.map_some]
  cases l with
  | batch mode first =>
      cases st with
      | outside => exact hlock h
      | acquiring | inside | releasing => cases h
  | run =>
      cases st with
      | outside => cases h
      | inside mode first k => exact absurd rfl (hout mode first k)
      | acquiring | releasing =>
          simp only [batchStep] at h ⊢
          split_ifs at h ⊢
          · cases h
            exact ⟨rfl, rfl⟩
          · exact hlock h

theorem afterWait_eq (th : BatchThread Th Mode K) :
    (C.batches func x).afterWait th = ⟨C.code.afterWait th.lock, th.stage⟩ := by
  rw [Program.afterWait, Program.afterWait, batches]
  cases hwait : C.code.wait th.lock <;> simp [hwait]

theorem wake_eq_some {w : WakeCall (BatchThread Th Mode K) Addr} (h : (C.batches func x).wake th = some w) :
    ∃ w', C.code.wake th.lock = some w' ∧ w = ⟨w'.addr, w'.count, ⟨w'.after, th.stage⟩⟩ := by
  rw [batches, Option.map_eq_some_iff] at h
  obtain ⟨w', hw', rfl⟩ := h
  exact ⟨w', hw', rfl⟩

theorem wait_eq_some {w : WaitCall (M × X) (BatchThread Th Mode K) Addr}
    (h : (C.batches func x).wait th = some w) :
    ∃ w', C.code.wait th.lock = some w' ∧
      w = ⟨w'.addr, fun m => w'.holds m.1, ⟨w'.after, th.stage⟩⟩ := by
  rw [batches, Option.map_eq_some_iff] at h
  obtain ⟨w', hw', rfl⟩ := h
  exact ⟨w', hw', rfl⟩

variable [DecidableEq Tid]
  {s s' : Config Tid (M × X) (BatchThread Th Mode K) Addr} {a : Act Tid (BatchLabel Mode K)}

theorem lockState_move : lockState (s.move t m th) = (lockState s).move t m.1 th.lock := by
  have hthread : (fun u => (Function.update s.thread t th u).lock) =
      Function.update (fun u => (s.thread u).lock) t th.lock := by
    funext u
    simp only [Function.update_apply]
    split_ifs <;> rfl
  simp only [lockState, Config.move, hthread]

theorem lockState_resume (woken : Finset Tid) :
    lockState ((C.batches func x).resume s woken) = C.code.resume (lockState s) woken := by
  have hthread : (fun u => (((C.batches func x).resume s woken).thread u).lock) =
      fun u => if u ∈ woken then C.code.afterWait (s.thread u).lock else (s.thread u).lock := by
    funext u
    rw [Program.resume_thread, afterWait_eq]
    split_ifs <;> rfl
  rw [lockState, hthread]
  rfl

variable [DecidableEq Addr] [Fintype Tid]

/-- Seen from the lock, a step is a step of its code, or none. -/
theorem lockState_next (h : (C.batches func x).machine.next s a = some s') :
    lockState s' = lockState s ∨
      ∃ a', C.Calls a' ∧ C.code.machine.next (lockState s) a' = some (lockState s') := by
  cases Program.transition_of_next _ h with
  | @step t l m th awake hstep =>
      rw [lockState_move]
      rcases batchStep_lock hstep with ⟨hm, hth⟩ | ⟨l', hcalls, hcode⟩
      · left
        have hsame : Function.update (fun u => (s.thread u).lock) t (s.thread t).lock =
          fun u => (s.thread u).lock := Function.update_eq_self t _
        rw [hm, hth, lockState, Config.move, hsame]
      · exact Or.inr ⟨.step t l', hcalls, Program.next_of_step _ awake hcode⟩
  | @sleep t w awake hwait holds =>
      obtain ⟨w', hw', rfl⟩ := wait_eq_some hwait
      exact Or.inr ⟨.sleep t, trivial, C.code.next_of_sleep (s := lockState s) awake hw' holds⟩
  | @ret t w hwait =>
      obtain ⟨w', hw', rfl⟩ := wait_eq_some hwait
      refine Or.inr ⟨.ret t, trivial, ?_⟩
      rw [lockState_resume]
      exact C.code.next_of_ret (s := lockState s) hw'
  | @wake t w woken awake hwake chosen =>
      obtain ⟨w', hw', rfl⟩ := wake_eq_some hwake
      refine Or.inr ⟨.wake t woken, trivial, ?_⟩
      rw [lockState_move, lockState_resume]
      exact C.code.next_of_wake (s := lockState s) awake hw' chosen
  | requeue awake hrequeue => cases hrequeue
  | refused awake hrequeue => cases hrequeue

theorem lockState_reachable (fits : Config Tid M Th Addr → Prop)
    (h : (C.batches func x).machine.Reachable (fun _ _ s' => fits (lockState s')) s) :
    C.code.machine.Reachable (fun _ a s' => C.Calls a ∧ fits s') (lockState s) := by
  refine h.induct (I := fun s => C.code.machine.Reachable (fun _ a s' => C.Calls a ∧ fits s') (lockState s))
    .refl fun _ ih hnext hfits => ?_
  rcases lockState_next hnext with heq | ⟨a', hcalls, hcode⟩
  · rwa [heq]
  · exact ih.next hcode ⟨hcalls, hfits⟩

/-! ### Serializability -/

variable {writes : Mode → Bool} {fits : Config Tid M Th Addr → Prop}

theorem Lawful.coherent_step (hC : C.Lawful writes fits) (h : Coherent C th)
    (hstep : C.batchStep func t l m th = some (m', th')) : Coherent C th' := by
  obtain ⟨lock, st⟩ := th
  cases l with
  | batch mode first =>
      cases st with
      | outside =>
          obtain ⟨hcode, -, hstage⟩ := lockStep_eq_some hstep
          rw [Coherent, hstage]
          exact ⟨_, hC.acquire h hcode, .stay _⟩
      | acquiring | inside | releasing => cases hstep
  | run =>
      cases st with
      | outside => cases hstep
      | acquiring mode first =>
          simp only [batchStep] at hstep
          obtain ⟨p, hphase, hp⟩ := h
          split_ifs at hstep with hidle <;> rw [hC.idle hphase] at hidle
          · cases hstep
            rcases hp.of_acquiring with rfl | rfl
            · cases hidle
            · exact hphase
          · obtain ⟨hcode, -, hstage⟩ := lockStep_eq_some hstep
            obtain rfl : p = .acquiring mode := hp.of_acquiring.resolve_right fun hheld => hidle (by rw [hheld]; rfl)
            rw [Coherent, hstage]
            exact hC.run hphase rfl hcode
      | inside mode first k =>
          simp only [batchStep] at hstep
          split at hstep
          · cases hstep
            exact h
          · obtain ⟨hcode, -, hstage⟩ := lockStep_eq_some hstep
            rw [Coherent, hstage]
            exact ⟨_, hC.release h hcode, .stay _⟩
      | releasing mode =>
          simp only [batchStep] at hstep
          obtain ⟨p, hphase, hp⟩ := h
          split_ifs at hstep with hidle <;> rw [hC.idle hphase] at hidle
          · cases hstep
            rcases hp.of_releasing with rfl | rfl
            · cases hidle
            · exact hphase
          · obtain ⟨hcode, -, hstage⟩ := lockStep_eq_some hstep
            obtain rfl : p = .releasing mode := hp.of_releasing.resolve_right fun hout => hidle (by rw [hout]; rfl)
            rw [Coherent, hstage]
            exact hC.run hphase rfl hcode

theorem Lawful.coherent_wake (hC : C.Lawful writes fits) (h : Coherent C th)
    {w : WakeCall (BatchThread Th Mode K) Addr} (hwake : (C.batches func x).wake th = some w) :
    Coherent C w.after := by
  obtain ⟨w', hw', rfl⟩ := wake_eq_some hwake
  obtain ⟨lock, st⟩ := th
  cases st with
  | outside => cases (hC.wake h hw').1
  | inside mode first k => cases (hC.wake h hw').1
  | acquiring mode first =>
      obtain ⟨p, hphase, hp⟩ := h
      obtain ⟨hbusy, hnext⟩ := hC.wake hphase hw'
      rcases hp.of_acquiring with rfl | rfl
      · exact hnext
      · cases hbusy
  | releasing mode =>
      obtain ⟨p, hphase, hp⟩ := h
      obtain ⟨hbusy, hnext⟩ := hC.wake hphase hw'
      rcases hp.of_releasing with rfl | rfl
      · exact hnext
      · cases hbusy

theorem Lawful.coherent (hC : C.Lawful writes fits) {ok : StepCond _ (Act Tid (BatchLabel Mode K))}
    (h : (C.batches func x).machine.Reachable ok s) (t : Tid) : Coherent C (s.thread t) := by
  refine h.induct (I := fun s => ∀ t, Coherent C (s.thread t)) ?_ (fun _ ih hnext _ => ?_) t
  · exact fun _ => hC.start
  refine Program.thread_of_next _ ih hnext (fun hth hstep => hC.coherent_step hth hstep) (fun hth => ?_)
    (fun hth hwake => hC.coherent_wake hth hwake) (fun _ hrequeue => by cases hrequeue)
  rw [afterWait_eq]
  revert hth
  simp only [Coherent, hC.afterWait]
  exact id

/-- Of two threads inside, neither writes. -/
theorem Lawful.inside_exclusive (hC : C.Lawful writes fits)
    (h : (C.batches func x).machine.Reachable (fun _ _ s' => fits (lockState s')) s) :
    Exclusive writes fun t => (s.thread t).stage := by
  have hholds : ∀ {t mode first k}, (s.thread t).stage = .inside mode first k →
      C.phase (s.thread t).lock = some (.holding mode) := by
    intro t mode first k hstage
    have hcoherent := hC.coherent h t
    rwa [Coherent, hstage] at hcoherent
  intro t u a b first k first' k' hne ht hu
  exact hC.exclusive (lockState_reachable _ h) hne (hholds ht) (hholds hu)

omit [DecidableEq Addr] [Fintype Tid] in
theorem stages_move : (fun u => ((s.move t m th).thread u).stage) =
    Function.update (fun u => (s.thread u).stage) t th.stage := by
  funext u
  simp only [Config.move_thread, Function.update_apply]
  split_ifs <;> rfl

omit [DecidableEq Addr] [Fintype Tid] in
theorem stages_resume (woken : Finset Tid) :
    (fun u => (((C.batches func x).resume s woken).thread u).stage) = fun u => (s.thread u).stage := by
  funext u
  exact Program.resume_same _ (p := BatchThread.stage) (fun th => by rw [afterWait_eq]) s woken u

theorem Lawful.serializable_next (hC : C.Lawful writes fits) (hreads : ReadsOnly func writes)
    {log : List (Batch Tid Mode K)} {x₀ : X}
    (hreach : (C.batches func x).machine.Reachable (fun _ _ s' => fits (lockState s')) s)
    (hnext : (C.batches func x).machine.next s a = some s') (hfits : fits (lockState s'))
    (h : Serializable func writes x₀ (fun t => (s.thread t).stage) s.mem.2 log) :
    Serializable func writes x₀ (fun t => (s'.thread t).stage) s'.mem.2 (record log s a s') := by
  have hexcl := hC.inside_exclusive hreach
  have hexcl' := hC.inside_exclusive (hreach.next hnext hfits)
  cases Program.transition_of_next _ hnext with
  | @step t l m th awake hstep =>
      have hmove := batchStep_move (C := C) hstep
      simp only [stages_move] at hexcl' ⊢
      rw [record, Config.move_thread, Function.update_self]
      exact h.move hmove hreads hexcl hexcl'
  | sleep awake hwait holds => exact h
  | @ret t w hwait =>
      rw [stages_resume]
      exact h
  | @wake t w woken awake hwake chosen =>
      obtain ⟨w', hw', rfl⟩ := wake_eq_some hwake
      have hstages : (fun u => ((((C.batches func x).resume s woken).move t s.mem
          ⟨w'.after, (s.thread t).stage⟩).thread u).stage) = fun u => (s.thread u).stage := by
        rw [stages_move, stages_resume]
        exact Function.update_eq_self ..
      rw [hstages]
      exact h
  | requeue awake hrequeue => cases hrequeue
  | refused awake hrequeue => cases hrequeue

/-- **Batches are serializable.** -/
theorem Lawful.serializable (hC : C.Lawful writes fits) (hreads : ReadsOnly func writes)
    {w : Config Tid (M × X) (BatchThread Th Mode K) Addr × List (Batch Tid Mode K)}
    (h : (C.observed func x).Reachable (fun _ _ w' => fits (lockState w'.1)) w) :
    Serializable func writes x (fun t => (w.1.thread t).stage) w.1.mem.2 w.2 := by
  refine (h.induct (I := fun w => (C.batches func x).machine.Reachable (fun _ _ s' => fits (lockState s')) w.1 ∧
    Serializable func writes x (fun t => (w.1.thread t).stage) w.1.mem.2 w.2) ⟨.refl, .init⟩ ?_).2
  rintro ⟨s, log⟩ a ⟨s', log'⟩ - ⟨hreach, ih⟩ hnext hfits
  obtain ⟨hnext, hlog⟩ := Machine.observe_next hnext
  refine ⟨hreach.next hnext hfits, ?_⟩
  rw [hlog]
  exact hC.serializable_next hreads hreach hnext hfits ih

end Runs

end LockCode
end Concurrency
