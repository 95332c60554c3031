import Psync.Platform
import Psync.RunGuard

/-! The spinlock: `lock`, `try_lock` and `unlock` on one word. The word is 1 exactly while a thread holds
the lock, and then only one thread does. -/

namespace Psync.SpinLock

open Concurrency

def maxBackoff : ℕ := 64

/-- The next atomic step of a thread. -/
inductive Pc
  /-- Outside every call. -/
  | idle
  /-- `lock`: the CAS of the fast path. -/
  | lockFast
  /-- `lock`: the load of the inner loop. -/
  | load (backoff : ℕ)
  /-- `lock`: the CAS after that loop. -/
  | lockCas (backoff : ℕ)
  /-- `try_lock`: its CAS. -/
  | tryCas
  /-- `try_lock` has returned `result`. -/
  | tried (result : Bool)
  /-- `unlock`: the store. -/
  | unlock
  deriving DecidableEq

/-- A thread: whether it holds the lock, and where it is. It holds the lock from its CAS to the store of
`unlock`. -/
structure Thread where
  held : Bool
  pc : Pc
  deriving DecidableEq

def Thread.at (th : Thread) (pc : Pc) : Thread := { th with pc := pc }

inductive Label
  | lock
  | tryLock
  | unlock
  | run
  deriving DecidableEq

/-- `backoff` after the pauses of one round; from `maxBackoff` on the thread yields instead. -/
def nextBackoff (backoff : ℕ) : ℕ := if backoff < maxBackoff then backoff <<< 1 else backoff

/-- The CAS of every acquisition. -/
def cas (state : U32) (th : Thread) (won lost : Pc) : U32 × Thread :=
  if state = 0 then (1, ⟨true, won⟩) else (state, th.at lost)

/-- One atomic step of the code. -/
def run (state : U32) (th : Thread) : Option (U32 × Thread) :=
  match th.pc with
  | .idle => none
  | .lockFast => some (cas state th .idle (.load 1))
  | .load backoff =>
      some (state, th.at (if state ≠ 0 then .load (nextBackoff backoff) else .lockCas backoff))
  | .lockCas backoff => some (cas state th .idle (.load backoff))
  | .tryCas => some (cas state th (.tried true) (.tried false))
  | .tried _ => some (state, th.at .idle)
  | .unlock => some (0, ⟨false, .idle⟩)

/-- A client begins a call only outside every call, and `unlock` only while it holds the lock. -/
def step (l : Label) (state : U32) (th : Thread) : Option (U32 × Thread) :=
  match l with
  | .lock => if th.pc = .idle then some (state, th.at .lockFast) else none
  | .tryLock => if th.pc = .idle then some (state, th.at .tryCas) else none
  | .unlock => if th.pc = .idle ∧ th.held = true then some (state, th.at .unlock) else none
  | .run => run state th

def program (Tid : Type*) : Program Tid U32 Thread Empty Label where
  mem := 0
  start := ⟨false, .idle⟩
  step _ := step

abbrev State (Tid : Type*) := Config Tid U32 Thread Empty

/-! ### Exclusion -/

/-- The positions at which a thread holds the lock for certain. -/
def Pc.owns : Pc → Bool
  | .unlock | .tried true => true
  | _ => false

/-- The ways in which one step changes the word and the thread that takes it. -/
inductive Effect (state : U32) (th : Thread) : U32 → Thread → Prop
  | keep {th' : Thread} (held : th'.held = th.held) (owns : th'.pc.owns = true → th.held = true) :
      Effect state th state th'
  | acquire {pc : Pc} (free : state = 0) : Effect state th 1 ⟨true, pc⟩
  | release (unlock : th.pc = .unlock) : Effect state th 0 ⟨false, .idle⟩

variable {state state' : U32} {th th' : Thread}

theorem effect_of_cas {won lost : Pc} (hlost : lost.owns = false) :
    Effect state th (cas state th won lost).1 (cas state th won lost).2 := by
  rw [cas]
  split_ifs with hfree
  · exact .acquire hfree
  · refine .keep rfl fun howns => ?_
    rw [Thread.at, hlost] at howns
    cases howns

theorem effect_of_run (h : run state th = some (state', th')) : Effect state th state' th' := by
  obtain ⟨held, pc⟩ := th
  cases pc with
  | idle => cases h
  | lockFast | lockCas | tryCas =>
      obtain ⟨rfl, rfl⟩ := Prod.mk.inj (Option.some.inj h)
      exact effect_of_cas rfl
  | tried result =>
      cases h
      exact .keep rfl nofun
  | load backoff =>
      cases h
      refine .keep rfl fun howns => ?_
      simp only [Thread.at] at howns
      split_ifs at howns <;> cases howns
  | unlock =>
      cases h
      exact .release rfl

theorem effect_of_step {l : Label} (h : step l state th = some (state', th')) :
    Effect state th state' th' := by
  cases l with
  | run => exact effect_of_run h
  | lock | tryLock =>
      simp only [step, Option.ite_none_right_eq_some] at h
      obtain ⟨-, h⟩ := h
      cases h
      exact .keep rfl nofun
  | unlock =>
      simp only [step, Option.ite_none_right_eq_some] at h
      obtain ⟨⟨-, hheld⟩, h⟩ := h
      cases h
      exact .keep rfl fun _ => hheld

variable {Tid : Type*} {s : State Tid}

structure Inv (s : State Tid) : Prop where
  word : s.mem = 0 ∨ s.mem = 1
  guards : Guards (s.mem = 1) (fun th => th.held = true) s.thread
  owns : ∀ t, (s.thread t).pc.owns = true → (s.thread t).held = true

theorem Inv.init : Inv (⟨0, fun _ => ⟨false, .idle⟩, fun _ => none⟩ : State Tid) where
  word := Or.inl rfl
  guards := ⟨⟨nofun, nofun⟩, nofun⟩
  owns _ h := by cases h

variable [DecidableEq Tid]

theorem Inv.move {t : Tid} (h : Inv s) (heff : Effect s.mem (s.thread t) state' th') :
    Inv (s.move t state' th') := by
  have howns : (th'.pc.owns = true → th'.held = true) →
      ∀ u, ((s.move t state' th').thread u).pc.owns = true → ((s.move t state' th').thread u).held = true := by
    intro hth u hu
    rw [Config.move_thread, Function.update_apply] at hu ⊢
    split_ifs at hu ⊢
    · exact hth hu
    · exact h.owns u hu
  cases heff with
  | keep held owns =>
      refine ⟨h.word, h.guards.same Iff.rfl (by rw [held]), howns fun hpc => ?_⟩
      rw [held]
      exact owns hpc
  | acquire free =>
      refine ⟨Or.inr rfl, h.guards.enter ?_ rfl rfl, howns fun _ => rfl⟩
      rw [free]
      decide
  | release unlock =>
      have hheld := h.owns t (by rw [unlock]; rfl)
      exact ⟨Or.inl rfl, h.guards.leave hheld (show (0 : U32) ≠ 1 by decide) nofun, howns nofun⟩

theorem inv_of_reachable [Fintype Tid] {ok : StepCond (State Tid) (Act Tid Label)}
    (h : (program Tid).machine.Reachable ok s) : Inv s := by
  refine h.induct Inv.init fun _ ih hnext _ => ?_
  obtain ⟨t, l, m, th, -, hstep, rfl⟩ := (program Tid).step_of_next (fun _ => rfl) (fun _ => rfl)
    (fun _ => rfl) hnext
  exact ih.move (effect_of_step hstep)

end Psync.SpinLock
