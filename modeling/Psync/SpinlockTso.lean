import Psync.BatchSerial
import Psync.RunSimulation
import Psync.RunTso

/-! Batches under the spinlock on a processor with store buffers (x86-TSO). The stores of a function and
the store of `unlock` are plain: they may wait in the buffer of their thread while it goes on, and reach
memory in their order. The CAS that acquires is locked.

A run is followed by one without buffers, which makes the stores of the functions at once and that of
`unlock` when it reaches memory; and so the batches are serializable. -/

namespace Psync.SpinLock

open Concurrency

set_option linter.unusedSectionVars false

variable {Tid ι V K : Type*}

/-- The next step of a function on the words. -/
inductive Instr (ι V K : Type*)
  | load (i : ι) (next : V → K)
  | store (i : ι) (v : V) (next : K)
  /-- The function has returned or thrown. -/
  | done

/-- A plain store. -/
inductive Write (ι V : Type*)
  | word (i : ι) (v : V)
  /-- The store of `unlock`. -/
  | release

def Write.releases : Write ι V → Bool
  | .release => true
  | .word .. => false

abbrev BatchState (K : Type*) := BatchThread Thread Unit K

variable [DecidableEq ι] (code : K → Instr ι V K)

/-- The function of a batch. -/
def func (_ : Unit) (p : K × (ι → V)) : Option (K × (ι → V)) :=
  match code p.1 with
  | .load i next => some (next (p.2 i), p.2)
  | .store i v next => some (next, Function.update p.2 i v)
  | .done => none

def Write.apply (w : Write ι V) (m : U32 × (ι → V)) : U32 × (ι → V) :=
  match w with
  | .word i v => (m.1, Function.update m.2 i v)
  | .release => (0, m.2)

def Pc.access : Pc → Access (Write ι V)
  | .lockFast | .lockCas _ | .tryCas => .locked
  | .unlock => .store .release
  | .idle | .load _ | .tried _ => .load

def Instr.access : Instr ι V K → Access (Write ι V)
  | .store i v _ => .store (.word i v)
  | .load .. | .done => .load

def access (l : BatchLabel Unit K) (th : BatchState K) : Access (Write ι V) :=
  match l, th.stage with
  | .run, .inside _ _ k => (code k).access
  | .run, _ => th.lock.pc.access
  | .batch .., _ => .load

section Steps

variable {code} {t : Tid} {l : BatchLabel Unit K} {m m' : U32 × (ι → V)} {th th' : BatchState K}

theorem run_does {state state' : U32} {lock lock' : Thread} (h : run state lock = some (state', lock'))
    (x : ι → V) : lock.pc.access.Does Write.apply (state, x) (state', x) := by
  obtain ⟨held, pc⟩ := lock
  cases pc with
  | idle => cases h
  | lockFast | lockCas | tryCas => trivial
  | load | unlock | tried =>
      cases h
      rfl

/-- A step of the lock's code in a batch. -/
theorem lockStep_run {st : BatchStage Unit K} {lock : Thread}
    (h : (Batch.spinLockGuard Tid).lockStep t .run m lock st = some (m', th')) :
    run m.1 lock = some (m'.1, th'.lock) ∧ m'.2 = m.2 ∧ th'.stage = st :=
  LockCode.lockStep_eq_some h

theorem batchStep_does (h : (Batch.spinLockGuard Tid).batchStep (func code) t l m th = some (m', th')) :
    (access code l th).Does Write.apply m m' := by
  obtain ⟨lock, stage⟩ := th
  have hrun : ∀ {st}, (Batch.spinLockGuard Tid).lockStep t .run m lock st = some (m', th') →
      lock.pc.access.Does Write.apply m m' := by
    intro st hstep
    obtain ⟨hlock, hdata, -⟩ := lockStep_run hstep
    have hdoes := run_does hlock m.2
    rwa [← hdata, Prod.mk.eta, hdata] at hdoes
  cases l with
  | batch mode first =>
      cases stage with
      | outside =>
          obtain ⟨hlock, hdata, -⟩ := LockCode.lockStep_eq_some h
          simp only [Batch.spinLockGuard, program, step, Option.ite_none_right_eq_some] at hlock
          obtain ⟨-, hlock⟩ := hlock
          exact Prod.ext (Prod.mk.inj (Option.some.inj hlock)).1.symm hdata
      | acquiring | inside | releasing => cases h
  | run =>
      cases stage with
      | outside => cases h
      | acquiring mode first =>
          simp only [LockCode.batchStep] at h
          split_ifs at h with hidle
          · cases h
            simp only [access, show lock.pc = .idle from of_decide_eq_true hidle]
            rfl
          · exact hrun h
      | releasing mode =>
          simp only [LockCode.batchStep] at h
          split_ifs at h with hidle
          · cases h
            simp only [access, show lock.pc = .idle from of_decide_eq_true hidle]
            rfl
          · exact hrun h
      | inside mode first k =>
          simp only [LockCode.batchStep, func] at h
          simp only [access]
          cases hcode : code k with
          | load i next | store i v next =>
              simp only [hcode] at h
              cases h
              rfl
          | done =>
              simp only [hcode] at h
              obtain ⟨hlock, hdata, -⟩ := LockCode.lockStep_eq_some h
              simp only [Batch.spinLockGuard, program, step, Option.ite_none_right_eq_some] at hlock
              obtain ⟨-, hlock⟩ := hlock
              exact Prod.ext (Prod.mk.inj (Option.some.inj hlock)).1.symm hdata

end Steps

/-- The threads that run batches on the words `x`, with their store buffers. -/
def buffered (Tid : Type*) (x : ι → V) :
    TsoProgram Tid (U32 × (ι → V)) (Write ι V) (BatchState K) (BatchLabel Unit K) where
  mem := (0, x)
  start := ⟨⟨false, .idle⟩, .outside⟩
  apply := Write.apply
  step := (Batch.spinLockGuard Tid).batchStep (func code)
  access := access code
  does := batchStep_does

abbrev TsoState (Tid ι V K : Type*) := TsoConfig Tid (U32 × (ι → V)) (Write ι V) (BatchState K)

variable [DecidableEq Tid]

def recordTso (log : List (Concurrency.Batch Tid Unit K)) (s : TsoState Tid ι V K)
    (a : TsoAct Tid (BatchLabel Unit K)) (s' : TsoState Tid ι V K) : List (Concurrency.Batch Tid Unit K) :=
  match a with
  | .step t _ => log ++ LockCode.ended t (s.thread t).stage (s'.thread t).stage
  | .drain _ => log

/-- The runs with the batches that have ended. -/
def observedTso (x : ι → V) : Machine (TsoState Tid ι V K × List (Concurrency.Batch Tid Unit K))
    (TsoAct Tid (BatchLabel Unit K)) :=
  (buffered code Tid x).machine.observe [] recordTso

/-! ### The run without buffers -/

abbrev DirectState (Tid ι V K : Type*) := Config Tid (U32 × (ι → V)) (BatchState K) Empty

/-- The store of `unlock` waits, and the thread may have gone on to its next `lock`. -/
inductive Late : BatchState K → Prop
  | released : Late ⟨⟨false, .idle⟩, .releasing ()⟩
  | outside : Late ⟨⟨false, .idle⟩, .outside⟩
  | acquiring (first : K) : Late ⟨⟨false, .lockFast⟩, .acquiring () first⟩

/-- Where a thread is without its buffer `ws`. -/
inductive Lag : List (Write ι V) → BatchState K → BatchState K → Prop
  | same {ws : List (Write ι V)} {th : BatchState K} (hwords : ∀ w ∈ ws, w.releases = false) : Lag ws th th
  | late {ws : List (Write ι V)} {th : BatchState K} (hwords : ∀ w ∈ ws, w.releases = false) (hlate : Late th) :
      Lag (ws ++ [.release]) ⟨⟨true, .unlock⟩, .releasing ()⟩ th

theorem Lag.inv {ws : List (Write ι V)} {th th' : BatchState K} (h : Lag ws th th') :
    (th = th' ∧ ∀ w ∈ ws, w.releases = false) ∨ ∃ words : List (Write ι V), ws = words ++ [.release] ∧
      (∀ w ∈ words, w.releases = false) ∧ th = ⟨⟨true, .unlock⟩, .releasing ()⟩ ∧ Late th' := by
  cases h with
  | same hwords => exact Or.inl ⟨rfl, hwords⟩
  | late hwords hlate => exact Or.inr ⟨_, rfl, hwords, rfl, hlate⟩

/-- A run without buffers that has come to `c` follows the one that has come to `s`. -/
structure Follows (x : ι → V) (s : TsoState Tid ι V K) (c : DirectState Tid ι V K) : Prop where
  awake : ∀ t, c.asleep t = none
  word : c.mem.1 = s.mem.1
  lag : ∀ t, Lag (s.buffer t) (c.thread t) (s.thread t)
  /-- Only the owner has stores that wait. -/
  owner : ∀ t, (c.thread t).lock.held = false → s.buffer t = []
  data : ∀ t, (∀ u, u ≠ t → s.buffer u = []) → c.mem.2 = ((buffered code Tid x).view s t).2

variable {code} {x : ι → V} {s s' : TsoState Tid ι V K} {c : DirectState Tid ι V K} {t : Tid}
  {l : BatchLabel Unit K} {m : U32 × (ι → V)} {th : BatchState K} {ws : List (Write ι V)} {w : Write ι V}

theorem flush_word (m : U32 × (ι → V)) (hwords : ∀ w ∈ ws, w.releases = false) :
    ((buffered code Tid x).flush ws m).1 = m.1 := by
  induction ws using List.reverseRecOn with
  | nil => rfl
  | append_singleton ws w ih =>
      have hlast := hwords w (by simp)
      rw [TsoProgram.flush_concat]
      cases w with
      | release => cases hlast
      | word i v => exact ih fun w hw => hwords w (by simp [hw])

/-- The words after the stores that wait do not depend on the word of the lock. -/
theorem flush_data {m m' : U32 × (ι → V)} (hdata : m'.2 = m.2) :
    ((buffered code Tid x).flush ws m').2 = ((buffered code Tid x).flush ws m).2 := by
  induction ws using List.reverseRecOn with
  | nil => exact hdata
  | append_singleton ws w ih =>
      rw [TsoProgram.flush_concat, TsoProgram.flush_concat]
      cases w with
      | release => exact ih
      | word i v => exact congrArg (fun y => Function.update y i v) ih

/-- What is known about a run without buffers. -/
structure Known (c : DirectState Tid ι V K) : Prop where
  inv : Inv (LockCode.lockState c)
  coherent : ∀ t, LockCode.Coherent (Batch.spinLockGuard Tid) (c.thread t)

theorem Known.held (hc : Known c) {mode : Unit} {first k : K} (hstage : (c.thread t).stage = .inside mode first k) :
    (c.thread t).lock.held = true := by
  have hcoherent := hc.coherent t
  rw [LockCode.Coherent, hstage] at hcoherent
  exact Batch.resting_holding (congrArg some (Batch.spinLock_idle hcoherent rfl).2)

namespace Follows

theorem others_empty (h : Follows code x s c) (hc : Known c) (hheld : (c.thread t).lock.held = true) {u : Tid}
    (hne : u ≠ t) : s.buffer u = [] := by
  refine h.owner u ?_
  cases hu : (c.thread u).lock.held with
  | false => rfl
  | true => exact absurd (hc.inv.guards.unique u t hu hheld) hne

theorem owns (h : Follows code x s c) (hbuffer : s.buffer t ≠ []) : (c.thread t).lock.held = true := by
  cases hheld : (c.thread t).lock.held with
  | true => rfl
  | false => exact absurd (h.owner t hheld) hbuffer

variable (m th) in
/-- A step of thread `t` in both runs. -/
theorem move (h : Follows code x s c) (hstep : (buffered code Tid x).Transition s (.step t l) s')
    (hword : m.1 = s'.mem.1) (hlag : Lag (s'.buffer t) th (s'.thread t))
    (howner : th.lock.held = false → s'.buffer t = [])
    (hdata : ∀ u, (∀ v, v ≠ u → s'.buffer v = []) → m.2 = ((buffered code Tid x).view s' u).2) :
    Follows code x s' (c.move t m th) := by
  refine ⟨h.awake, hword, fun u => ?_, fun u hu => ?_, hdata⟩
  · rw [Config.move_thread, Function.update_apply]
    split_ifs with hut
    · rw [hut]
      exact hlag
    · rw [(hstep.others hut).1, (hstep.others hut).2]
      exact h.lag u
  · rw [Config.move_thread, Function.update_apply] at hu
    split_ifs at hu with hut
    · rw [hut]
      exact howner hu
    · rw [(hstep.others hut).2]
      exact h.owner u hu

/-- A step of thread `t` that the other run does not take yet. -/
theorem stay (h : Follows code x s c) (hstep : (buffered code Tid x).Transition s (.step t l) s')
    (hword : s'.mem.1 = s.mem.1) (hlag : Lag (s'.buffer t) (c.thread t) (s'.thread t))
    (hheld : (c.thread t).lock.held = true)
    (hdata : ∀ u, (∀ v, v ≠ u → s'.buffer v = []) → c.mem.2 = ((buffered code Tid x).view s' u).2) :
    Follows code x s' c := by
  have hmove := h.move c.mem (c.thread t) hstep (h.word.trans hword.symm) hlag
    (fun hfree => by rw [hheld] at hfree; cases hfree) hdata
  rwa [Config.move, Function.update_eq_self] at hmove

end Follows

/-! ### The steps -/

theorem run_held {state state' : U32} {lock lock' : Thread} (h : run state lock = some (state', lock'))
    (hload : (lock.pc.access : Access (Write ι V)) = .load) : lock'.held = lock.held := by
  obtain ⟨held, pc⟩ := lock
  cases pc with
  | idle => cases h
  | lockFast | lockCas | tryCas | unlock => cases hload
  | load | tried =>
      cases h
      rfl

/-- A step that only loads keeps the lock where it is. -/
theorem load_held {m m' : U32 × (ι → V)} {th' : BatchState K} (hload : access code l th = .load)
    (h : (Batch.spinLockGuard Tid).batchStep (func code) t l m th = some (m', th')) :
    th'.lock.held = th.lock.held := by
  obtain ⟨lock, stage⟩ := th
  have hbegin : ∀ {l'} {st}, (l' = .lock ∨ l' = .unlock) →
      (Batch.spinLockGuard Tid).lockStep t l' m lock st = some (m', th') → th'.lock.held = lock.held := by
    intro l' st hl' hstep
    have hlock := (LockCode.lockStep_eq_some hstep).1
    rcases hl' with rfl | rfl
    · simp only [Batch.spinLockGuard, program, step, Option.ite_none_right_eq_some] at hlock
      rw [← (Prod.mk.inj (Option.some.inj hlock.2)).2]
      rfl
    · simp only [Batch.spinLockGuard, program, step, Option.ite_none_right_eq_some] at hlock
      rw [← (Prod.mk.inj (Option.some.inj hlock.2)).2]
      rfl
  cases l with
  | batch mode first =>
      cases stage with
      | outside => exact hbegin (Or.inl rfl) h
      | acquiring | inside | releasing => cases h
  | run =>
      cases stage with
      | outside => cases h
      | acquiring | releasing =>
          simp only [LockCode.batchStep] at h
          split_ifs at h
          · cases h
            rfl
          · exact run_held (lockStep_run h).1 hload
      | inside mode first k =>
          simp only [LockCode.batchStep, func] at h
          cases hcode : code k with
          | load i next | store i v next =>
              simp only [hcode] at h
              cases h
              rfl
          | done =>
              simp only [hcode] at h
              exact hbegin (Or.inr rfl) h

namespace Follows

/-- A thread that is not late takes the step that it would take without buffers. -/
theorem direct_step (h : Follows code x s c) (hc : Known c) (hsame : c.thread t = s.thread t)
    (hwords : ∀ w ∈ s.buffer t, w.releases = false)
    (hstep : (buffered code Tid x).step t l ((buffered code Tid x).view s t) (s.thread t) = some (m, th)) :
    ∃ y, (Batch.spinLockGuard Tid).batchStep (func code) t l c.mem (c.thread t) = some ((m.1, y), th) ∧
      ((∃ mode first k, (s.thread t).stage = .inside mode first k) → y = m.2 ∧
        c.mem.2 = ((buffered code Tid x).view s t).2) ∧
      ((∀ mode first k, (s.thread t).stage ≠ .inside mode first k) → y = c.mem.2 ∧
        m.2 = ((buffered code Tid x).view s t).2) := by
  have hword : ((buffered code Tid x).view s t).1 = c.mem.1 := (flush_word s.mem hwords).trans h.word.symm
  by_cases hin : ∃ mode first k, (s.thread t).stage = .inside mode first k
  · obtain ⟨mode, first, k, hstage⟩ := hin
    have hheld := hc.held (t := t) (by rw [hsame]; exact hstage)
    have hdata := h.data t fun u hne => h.others_empty hc hheld hne
    have hview : (buffered code Tid x).view s t = c.mem := Prod.ext hword hdata.symm
    rw [hview] at hstep ⊢
    refine ⟨m.2, by rw [hsame]; exact hstep, fun _ => ⟨rfl, rfl⟩, fun hout => ?_⟩
    exact absurd hstage (hout mode first k)
  · have hout : ∀ mode first k, (s.thread t).stage ≠ .inside mode first k :=
      fun mode first k hstage => hin ⟨mode, first, k, hstage⟩
    obtain ⟨hdata, hdirect⟩ := LockCode.batchStep_data hstep hout c.mem.2
    rw [hword, Prod.mk.eta, ← hsame] at hdirect
    exact ⟨c.mem.2, hdirect, fun hin' => absurd hin' hin, fun _ => ⟨rfl, hdata⟩⟩

/-- A store is one of the function, or that of `unlock`. -/
theorem store_cases {m' : U32 × (ι → V)} {th' : BatchState K}
    (hcoherent : LockCode.Coherent (Batch.spinLockGuard Tid) th) (haccess : access code l th = .store w)
    (h : (Batch.spinLockGuard Tid).batchStep (func code) t l m th = some (m', th')) :
    ((∃ mode first k, th.stage = .inside mode first k) ∧ w.releases = false ∧ th'.lock = th.lock) ∨
      w = .release ∧ th'.stage = th.stage ∧ ∃ held, th = ⟨⟨held, .unlock⟩, .releasing ()⟩ ∧
        th' = ⟨⟨false, .idle⟩, .releasing ()⟩ := by
  obtain ⟨⟨held, pc⟩, stage⟩ := th
  cases l with
  | batch mode first => cases haccess
  | run =>
      cases stage with
      | outside => cases h
      | inside mode first k =>
          simp only [access] at haccess
          simp only [LockCode.batchStep, func] at h
          cases hcode : code k with
          | load i next | done =>
              rw [hcode] at haccess
              cases haccess
          | store i v next =>
              simp only [hcode] at h haccess
              cases haccess
              cases h
              exact Or.inl ⟨⟨mode, first, k, rfl⟩, rfl, rfl⟩
      | acquiring mode first =>
          cases pc with
          | idle | lockFast | load | lockCas | tryCas | tried => cases haccess
          | unlock =>
              obtain ⟨p, hphase, hp⟩ := hcoherent
              obtain ⟨-, rfl⟩ := Batch.releasing_eq_some hphase
              rcases hp.of_acquiring with hp | hp <;> cases hp
      | releasing mode =>
          cases pc with
          | idle | lockFast | load | lockCas | tryCas | tried => cases haccess
          | unlock =>
              cases haccess
              simp only [LockCode.batchStep] at h
              split_ifs at h with hidle
              · cases hidle
              · cases h
                exact Or.inr ⟨rfl, rfl, held, rfl, rfl⟩

/-- A thread whose `unlock` still waits goes at most to its next CAS. -/
theorem late_step (hlate : Late th) {m' : U32 × (ι → V)} {th' : BatchState K}
    (h : (Batch.spinLockGuard Tid).batchStep (func code) t l m th = some (m', th'))
    (hplain : access code l th ≠ .locked) :
    access code l th = .load ∧ Late th' ∧ LockCode.ended t th.stage th'.stage = [] := by
  cases hlate with
  | released =>
      cases l with
      | batch mode first => cases h
      | run =>
          cases h
          exact ⟨rfl, .outside, rfl⟩
  | outside =>
      cases l with
      | batch mode first =>
          cases h
          exact ⟨rfl, .acquiring first, rfl⟩
      | run => cases h
  | acquiring first =>
      cases l with
      | batch mode first => cases h
      | run => exact absurd rfl hplain

variable [Fintype Tid] {log : List (Concurrency.Batch Tid Unit K)}

abbrev direct (code : K → Instr ι V K) (Tid : Type*) [DecidableEq Tid] [Fintype Tid] (x : ι → V) :
    Machine (DirectState Tid ι V K × List (Concurrency.Batch Tid Unit K)) (Act Tid (BatchLabel Unit K)) :=
  (Batch.spinLockGuard Tid).observed (func code) x

theorem load_step (h : Follows code x s c) (hc : Known c) (haccess : access code l (s.thread t) = .load)
    (hstep : (buffered code Tid x).step t l ((buffered code Tid x).view s t) (s.thread t) =
      some ((buffered code Tid x).view s t, th)) :
    ∃ c', (direct code Tid x).Leads anyStep (c, log) (c', log ++ LockCode.ended t (s.thread t).stage th.stage) ∧
      Follows code x { s with thread := Function.update s.thread t th } c' := by
  have htrans : (buffered code Tid x).Transition s (.step t l) _ := .load haccess hstep
  rcases (h.lag t).inv with ⟨hsame, hwords⟩ | ⟨ws, hbuffer, hwords, hthread, hlate⟩
  · obtain ⟨y, hdirect, hin, hout⟩ := h.direct_step hc hsame hwords hstep
    have hy : y = c.mem.2 := by
      by_cases hinside : ∃ mode first k, (s.thread t).stage = .inside mode first k
      · obtain ⟨hy, hdata⟩ := hin hinside
        rw [hy, hdata]
      · exact (hout fun mode first k hstage => hinside ⟨mode, first, k, hstage⟩).1
    refine ⟨_, ?_, h.move (((buffered code Tid x).view s t).1, y) th htrans (flush_word s.mem hwords)
      ?_ (fun hfree => ?_) fun u hu => ?_⟩
    · have hlead := LockCode.leads_of_batchStep x log (h.awake t) hdirect
      rwa [hsame] at hlead
    · simp only [Function.update_self]
      exact .same hwords
    · rw [load_held haccess hstep, ← hsame] at hfree
      exact h.owner t hfree
    · rw [hy]
      exact h.data u hu
  · obtain ⟨-, hlate', hended⟩ := late_step hlate hstep (fun hlocked => by rw [haccess] at hlocked; cases hlocked)
    refine ⟨c, ?_, h.stay htrans rfl ?_ (by rw [hthread]) h.data⟩
    · rw [hended, List.append_nil]
      exact .refl
    · simp only [Function.update_self, hbuffer, hthread]
      exact .late hwords hlate'

theorem store_step (h : Follows code x s c) (hc : Known c) (haccess : access code l (s.thread t) = .store w)
    (hstep : (buffered code Tid x).step t l ((buffered code Tid x).view s t) (s.thread t) =
      some (w.apply ((buffered code Tid x).view s t), th)) :
    ∃ c', (direct code Tid x).Leads anyStep (c, log) (c', log ++ LockCode.ended t (s.thread t).stage th.stage) ∧
      Follows code x { s with
        buffer := Function.update s.buffer t (s.buffer t ++ [w])
        thread := Function.update s.thread t th } c' := by
  have htrans : (buffered code Tid x).Transition s (.step t l) _ := .store haccess hstep
  have hview : ∀ {y : ι → V}, y = (w.apply ((buffered code Tid x).view s t)).2 →
      ∀ u, (∀ v, v ≠ u → Function.update s.buffer t (s.buffer t ++ [w]) v = []) →
        y = ((buffered code Tid x).view { s with
          buffer := Function.update s.buffer t (s.buffer t ++ [w])
          thread := Function.update s.thread t th } u).2 := by
    intro y hy u hu
    have hut : u = t := by
      by_contra hne
      have hnone := hu t (Ne.symm hne)
      rw [Function.update_self] at hnone
      exact List.append_ne_nil_of_right_ne_nil _ (List.cons_ne_nil _ _) hnone
    rw [hut, hy]
    simp only [TsoProgram.view, Function.update_self, TsoProgram.flush_concat]
    rfl
  rcases (h.lag t).inv with ⟨hsame, hwords⟩ | ⟨ws, hbuffer, hwords, hthread, hlate⟩
  · rcases store_cases (hsame ▸ hc.coherent t) haccess hstep with
      ⟨hinside, hword, hlock⟩ | ⟨rfl, hstage, held, hth, rfl⟩
    · -- a store of the function
      obtain ⟨y, hdirect, hin, -⟩ := h.direct_step hc hsame hwords hstep
      obtain ⟨rfl, -⟩ := hin hinside
      obtain ⟨mode, first, k, hstage⟩ := hinside
      have hheld := hc.held (t := t) (by rw [hsame]; exact hstage)
      have hall : ∀ w' ∈ s.buffer t ++ [w], w'.releases = false := by
        intro w' hw'
        rcases List.mem_append.mp hw' with hw' | hw'
        · exact hwords w' hw'
        · rwa [List.mem_singleton.mp hw']
      have hfirst : (w.apply ((buffered code Tid x).view s t)).1 = s.mem.1 := by
        have hflush : ((buffered code Tid x).flush (s.buffer t ++ [w]) s.mem).1 = s.mem.1 := flush_word s.mem hall
        rwa [TsoProgram.flush_concat] at hflush
      refine ⟨_, ?_, h.move (w.apply ((buffered code Tid x).view s t)) th htrans hfirst ?_
        (fun hfree => ?_) (hview rfl)⟩
      · have hlead := LockCode.leads_of_batchStep x log (h.awake t) hdirect
        rwa [hsame] at hlead
      · simp only [Function.update_self]
        exact .same hall
      · rw [hlock, ← hsame, hheld] at hfree
        cases hfree
    · -- the store of `unlock`
      have hheld : (c.thread t).lock.held = true := hc.inv.owns t (by
        change (c.thread t).lock.pc.owns = true
        rw [hsame, hth]
        rfl)
      rw [hsame, hth] at hheld
      obtain rfl : held = true := hheld
      refine ⟨c, ?_, h.stay htrans rfl ?_ (by rw [hsame, hth]) fun u hu => ?_⟩
      · rw [hth]
        simp only [LockCode.ended, List.append_nil]
        exact .refl
      · simp only [Function.update_self, hsame, hth]
        exact .late hwords .released
      · refine hview (h.data t fun v hv => ?_) u hu
        exact h.others_empty hc (by rw [hsame, hth]) hv
  · have hload := (late_step hlate hstep (fun hlocked => by rw [haccess] at hlocked; cases hlocked)).1
    rw [haccess] at hload
    cases hload

theorem not_inside_of_locked (haccess : access code l th = .locked) (mode : Unit) (first k : K) :
    th.stage ≠ .inside mode first k := by
  intro hstage
  obtain ⟨lock, stage⟩ := th
  cases hstage
  cases l with
  | batch => cases haccess
  | run =>
      simp only [access] at haccess
      cases hcode : code k <;> rw [hcode] at haccess <;> cases haccess

theorem locked_step (h : Follows code x s c) (hc : Known c) (haccess : access code l (s.thread t) = .locked)
    (hempty : s.buffer t = []) (hstep : (buffered code Tid x).step t l s.mem (s.thread t) = some (m, th)) :
    ∃ c', (direct code Tid x).Leads anyStep (c, log) (c', log ++ LockCode.ended t (s.thread t).stage th.stage) ∧
      Follows code x { s with mem := m, thread := Function.update s.thread t th } c' := by
  have htrans : (buffered code Tid x).Transition s (.step t l) _ := .locked haccess hempty hstep
  have hwords : ∀ w ∈ s.buffer t, w.releases = false := by
    rw [hempty]
    nofun
  rcases (h.lag t).inv with ⟨hsame, -⟩ | ⟨ws, hbuffer, -, -, -⟩
  · rw [← (buffered code Tid x).view_of_empty hempty] at hstep
    obtain ⟨y, hdirect, -, hout⟩ := h.direct_step hc hsame hwords hstep
    obtain ⟨rfl, hdata⟩ := hout (not_inside_of_locked haccess)
    rw [(buffered code Tid x).view_of_empty hempty] at hdata
    refine ⟨_, ?_, h.move (m.1, c.mem.2) th htrans rfl ?_ (fun _ => hempty) fun u hu => ?_⟩
    · have hlead := LockCode.leads_of_batchStep x log (h.awake t) hdirect
      rwa [hsame] at hlead
    · simp only [Function.update_self]
      exact .same hwords
    · rw [h.data u hu]
      exact (flush_data hdata).symm
  · rw [hempty] at hbuffer
    exact absurd hbuffer.symm (List.append_ne_nil_of_right_ne_nil _ (List.cons_ne_nil _ _))

/-- The words of a thread do not change when the oldest store of the owner reaches memory. -/
theorem data_drain (h : Follows code x s c) (hc : Known c) (hbuffer : s.buffer t = w :: ws) (u : Tid)
    (hu : ∀ v, v ≠ u → Function.update s.buffer t ws v = []) :
    c.mem.2 = ((buffered code Tid x).view
      { s with mem := w.apply s.mem, buffer := Function.update s.buffer t ws } u).2 := by
  have hheld := h.owns (t := t) (by rw [hbuffer]; exact List.cons_ne_nil _ _)
  have hothers : ∀ v, v ≠ t → s.buffer v = [] := fun v hv => h.others_empty hc hheld hv
  have hview := h.data t hothers
  by_cases hut : u = t
  · rw [hut, hview, ← TsoProgram.view_drain hbuffer]
    rfl
  · have hlast := hu t (Ne.symm hut)
    rw [Function.update_self] at hlast
    have hnone : Function.update s.buffer t ws u = [] := by rw [Function.update_of_ne hut, hothers u hut]
    rw [hview, TsoProgram.view, TsoProgram.view, hbuffer, hlast]
    simp only [← hlast, hnone]
    rfl

/-- A thread whose `unlock` has reached memory goes where it already is with its buffer. -/
theorem catch_up (awake : c.asleep t = none) (y : ι → V) (hlate : Late th) :
    (direct code Tid x).Leads anyStep
      (c.move t (0, y) ⟨⟨false, .idle⟩, .releasing ()⟩, log) (c.move t (0, y) th, log) := by
  have hstep : ∀ th₁ th₂ l, (Batch.spinLockGuard Tid).batchStep (func code) t l (0, y) th₁ = some ((0, y), th₂) →
      LockCode.ended t th₁.stage th₂.stage = [] →
      (direct code Tid x).Leads anyStep (c.move t (0, y) th₁, log) (c.move t (0, y) th₂, log) := by
    intro th₁ th₂ l hdirect hended
    have hthread : (c.move t (0, y) th₁).thread t = th₁ := by rw [Config.move_thread, Function.update_self]
    have hlead := LockCode.leads_of_batchStep x log (s := c.move t (0, y) th₁) awake (hthread ▸ hdirect)
    rw [hthread, hended, List.append_nil] at hlead
    simp only [Config.move, Function.update_idem] at hlead ⊢
    exact hlead
  have hout := hstep ⟨⟨false, .idle⟩, .releasing ()⟩ ⟨⟨false, .idle⟩, .outside⟩ .run rfl rfl
  cases hlate with
  | released => exact .refl
  | outside => exact hout
  | acquiring first => exact hout.trans (hstep _ _ (.batch () first) rfl rfl)

theorem drain_step (h : Follows code x s c) (hc : Known c) (hbuffer : s.buffer t = w :: ws) :
    ∃ c', (direct code Tid x).Leads anyStep (c, log) (c', log) ∧
      Follows code x { s with mem := w.apply s.mem, buffer := Function.update s.buffer t ws } c' := by
  have hheld := h.owns (t := t) (by rw [hbuffer]; exact List.cons_ne_nil _ _)
  have hdata := h.data_drain hc hbuffer
  -- the store of a word changes nothing without buffers
  have hword : w.releases = false → Lag ws (c.thread t) (s.thread t) →
      Follows code x { s with mem := w.apply s.mem, buffer := Function.update s.buffer t ws } c := by
    intro hw hlag
    refine ⟨h.awake, ?_, fun u => ?_, fun u hu => ?_, hdata⟩
    · cases w with
      | word i v => exact h.word
      | release => cases hw
    · by_cases hut : u = t
      · rw [hut]
        simp only [Function.update_self]
        exact hlag
      · simp only [Function.update_of_ne hut]
        exact h.lag u
    · have hut : u ≠ t := by
        rintro rfl
        rw [hheld] at hu
        cases hu
      simp only [Function.update_of_ne hut]
      exact h.owner u hu
  rcases (h.lag t).inv with ⟨hsame, hwords⟩ | ⟨words, hlast, hwords, hthread, hlate⟩
  · rw [hbuffer] at hwords
    refine ⟨c, .refl, hword (hwords w List.mem_cons_self) ?_⟩
    rw [hsame]
    exact .same fun w' hw' => hwords w' (List.mem_cons_of_mem _ hw')
  · rw [hbuffer] at hlast
    cases words with
    | cons w' words =>
        obtain ⟨rfl, rfl⟩ := List.cons_eq_cons.mp hlast
        refine ⟨c, .refl, hword (hwords w List.mem_cons_self) ?_⟩
        rw [hthread]
        exact .late (fun w' hw' => hwords w' (List.mem_cons_of_mem _ hw')) hlate
    | nil =>
        -- the store of `unlock`
        obtain ⟨rfl, rfl⟩ := List.cons_eq_cons.mp hlast
        have hunlock : (Batch.spinLockGuard Tid).batchStep (func code) t .run c.mem (c.thread t) =
            some ((0, c.mem.2), ⟨⟨false, .idle⟩, .releasing ()⟩) := by
          rw [hthread]
          rfl
        have hlead := LockCode.leads_of_batchStep x log (h.awake t) hunlock
        rw [hthread] at hlead
        simp only [LockCode.ended, List.append_nil] at hlead
        refine ⟨c.move t (0, c.mem.2) (s.thread t), hlead.trans (catch_up (h.awake t) _ hlate),
          h.awake, rfl, fun u => ?_, fun u hu => ?_, hdata⟩
        · by_cases hut : u = t
          · rw [hut]
            simp only [Config.move_thread, Function.update_self]
            exact .same nofun
          · simp only [Config.move_thread, Function.update_of_ne hut]
            exact h.lag u
        · by_cases hut : u = t
          · rw [hut]
            simp only [Function.update_self]
          · simp only [Config.move_thread, Function.update_of_ne hut] at hu ⊢
            exact h.owner u hu

theorem next (h : Follows code x s c) (hc : Known c) {a : TsoAct Tid (BatchLabel Unit K)}
    (hnext : (buffered code Tid x).machine.next s a = some s') :
    ∃ c', (direct code Tid x).Leads anyStep (c, log) (c', recordTso log s a s') ∧ Follows code x s' c' := by
  cases TsoProgram.transition_of_next hnext with
  | load haccess hstep =>
      simp only [recordTso, Function.update_self]
      exact h.load_step hc haccess hstep
  | store haccess hstep =>
      simp only [recordTso, Function.update_self]
      exact h.store_step hc haccess hstep
  | locked haccess hempty hstep =>
      simp only [recordTso, Function.update_self]
      exact h.locked_step hc haccess hempty hstep
  | drain hbuffer => exact h.drain_step hc hbuffer

end Follows

/-! ### Batches -/

variable [Fintype Tid]

theorem Follows.init : Follows code x (buffered code Tid x).machine.init
    ((Batch.spinLockGuard Tid).batches (func code) x).machine.init := by
  refine ⟨fun _ => rfl, rfl, fun t => .same nofun, fun _ _ => rfl, fun t _ => ?_⟩
  have hview := (buffered code Tid x).view_of_empty (s := (buffered code Tid x).machine.init) (t := t) rfl
  exact (congrArg Prod.snd hview).symm

theorem known_of_reachable {d : DirectState Tid ι V K × List (Concurrency.Batch Tid Unit K)}
    (h : (Follows.direct code Tid x).Reachable anyStep d) : Known d.1 := by
  have hreach : ((Batch.spinLockGuard Tid).batches (func code) x).machine.Reachable anyStep d.1 :=
    h.of_observed fun _ => trivial
  exact ⟨inv_of_reachable (LockCode.lockState_reachable (fun _ => True) hreach),
    Batch.spinLockGuard_lawful.coherent hreach⟩

theorem Follows.inside (h : Follows code x s c) {mode : Unit} {first k : K} :
    (s.thread t).stage = .inside mode first k ↔ (c.thread t).stage = .inside mode first k := by
  rcases (h.lag t).inv with ⟨hsame, -⟩ | ⟨-, -, -, hthread, hlate⟩
  · rw [hsame]
  · rw [hthread]
    generalize s.thread t = th at hlate
    cases hlate <;> exact ⟨nofun, nofun⟩

/-- What batches promise with store buffers: a thread sees the words that the batches have come to, as soon
as no store of another one waits; and for the thread inside none does. -/
structure TsoLaw (code : K → Instr ι V K) (x : ι → V)
    (w : TsoState Tid ι V K × List (Concurrency.Batch Tid Unit K)) : Prop where
  exclusive : ∀ t u mode mode' first first' k k', (w.1.thread t).stage = .inside mode first k →
    (w.1.thread u).stage = .inside mode' first' k' → t = u
  alone : ∀ t mode first k, (w.1.thread t).stage = .inside mode first k → ∀ u, u ≠ t → w.1.buffer u = []
  serial : ∃ y, Serializable (func code) (fun _ => true) x (fun t => (w.1.thread t).stage) y w.2 ∧
    ∀ t, (∀ u, u ≠ t → w.1.buffer u = []) → ((buffered code Tid x).view w.1 t).2 = y

/-- **Batches under the spinlock are serializable with store buffers.** -/
theorem spin_lock_tso {w : TsoState Tid ι V K × List (Concurrency.Batch Tid Unit K)}
    (h : (observedTso code x).Reachable anyStep w) : TsoLaw code x w := by
  obtain ⟨⟨c, log⟩, hreach, hfollows, hlog⟩ := h.follow (Follows.direct code Tid x) anyStep
    (fun w d => Follows code x w.1 d.1 ∧ d.2 = w.2) ⟨Follows.init, rfl⟩ (by
      rintro ⟨s, log⟩ a ⟨s', log'⟩ ⟨c, _⟩ - hreach ⟨hfollows, rfl⟩ hnext -
      obtain ⟨hnext, hlog⟩ := Machine.observe_next hnext
      obtain ⟨c', hlead, hfollows'⟩ := hfollows.next (known_of_reachable hreach) hnext
      exact ⟨_, hlead, hfollows', hlog.symm⟩)
  have hc := known_of_reachable hreach
  refine ⟨fun t u mode mode' first first' k k' ht hu => ?_, fun t mode first k ht u hne => ?_, c.mem.2, ?_,
    fun t ht => (hfollows.data t ht).symm⟩
  · exact hc.inv.guards.unique t u (hc.held (hfollows.inside.mp ht)) (hc.held (hfollows.inside.mp hu))
  · exact hfollows.others_empty hc (hc.held (hfollows.inside.mp ht)) hne
  · have hserial := Batch.spinLockGuard_lawful.serializable nofun hreach
    rw [hlog] at hserial
    exact hserial.congr fun t mode first k => hfollows.inside

/-- The function that makes a list of stores. -/
def storeAll : List (Bool × ℕ) → Instr Bool ℕ (List (Bool × ℕ))
  | (i, v) :: rest => .store i v rest
  | [] => .done

/-- Thread `a` has left its batch, and neither its store nor that of `unlock` has reached memory. -/
theorem spin_lock_tso_waiting :
    ∃ w : TsoState Runner Bool ℕ (List (Bool × ℕ)) × List (Concurrency.Batch Runner Unit (List (Bool × ℕ))),
      TsoLaw storeAll (fun _ => 0) w ∧ w.2 = [⟨.a, (), [(true, 7)], []⟩] ∧ (w.1.thread .a).stage = .outside ∧
        (w.1.thread .b).lock.pc = .load 1 ∧ w.1.mem.1 = 1 ∧ w.1.mem.2 true = 0 := by
  refine ⟨_, @spin_lock_tso _ _ _ _ _ storeAll _ (fun _ => 0) _ _ (.of_run
    [.step .a (.batch () [(true, 7)]), .step .a .run, .step .a .run, .step .a .run, .step .a .run,
      .step .a .run, .step .a .run, .step .b (.batch () []), .step .b .run] (by decide)), ?_⟩
  decide

end Psync.SpinLock
