import Mathlib.Logic.Relation
import Mathlib.Tactic.Common

/-! Machines with labelled steps and the states their runs reach. A label resolves every choice of
a step, so that `next` is a function and a finite run can be evaluated. A run may be restricted by
a step condition, which sees the state before, the label and the state after. -/

namespace Concurrency

/-- An initial state and a partial step function. -/
structure Machine (σ α : Type*) where
  init : σ
  next : σ → α → Option σ

/-- A condition on the steps of a run. -/
abbrev StepCond (σ α : Type*) := σ → α → σ → Prop

def anyStep {σ α : Type*} : StepCond σ α := fun _ _ _ => True

namespace Machine

variable {σ α ω : Type*} (M : Machine σ α)

def Step (ok : StepCond σ α) (s s' : σ) : Prop := ∃ a, M.next s a = some s' ∧ ok s a s'

/-- The states of the runs from `init` all of whose steps meet `ok`. -/
def Reachable (ok : StepCond σ α) (s : σ) : Prop := Relation.ReflTransGen (M.Step ok) M.init s

variable {M} {ok ok' : StepCond σ α}

theorem Reachable.refl : M.Reachable ok M.init := Relation.ReflTransGen.refl

theorem Reachable.next {s s' : σ} {a : α} (h : M.Reachable ok s) (hs : M.next s a = some s')
    (hok : ok s a s') : M.Reachable ok s' :=
  Relation.ReflTransGen.tail h ⟨a, hs, hok⟩

/-- The invariant rule. The step case may use that the state before is reachable, and so every
invariant proved earlier. -/
theorem Reachable.induct {I : σ → Prop} {s : σ} (h : M.Reachable ok s) (init : I M.init)
    (step : ∀ {s a s'}, M.Reachable ok s → I s → M.next s a = some s' → ok s a s' → I s') : I s := by
  unfold Reachable at h
  induction h with
  | refl => exact init
  | tail hreach hstep ih =>
      obtain ⟨a, hs, hok⟩ := hstep
      exact step hreach ih hs hok

/-- A weaker condition has more runs. -/
theorem Reachable.mono {s : σ} (h : M.Reachable ok s) (hok : ∀ {u a u'}, ok u a u' → ok' u a u') :
    M.Reachable ok' s :=
  Relation.ReflTransGen.mono (fun _ _ ⟨a, hs, ha⟩ => ⟨a, hs, hok ha⟩) _ _ h

/-! ### Later states -/

variable (M) in
/-- A run all of whose steps meet `ok` leads from `s` to `s'`. -/
def Leads (ok : StepCond σ α) (s s' : σ) : Prop := Relation.ReflTransGen (M.Step ok) s s'

/-- The invariant rule for a later state. -/
theorem Leads.induct {I : σ → Prop} {s s' : σ} (h : M.Leads ok s s') (init : I s)
    (step : ∀ {u a u'}, M.Leads ok s u → I u → M.next u a = some u' → ok u a u' → I u') : I s' := by
  unfold Leads at h
  induction h with
  | refl => exact init
  | tail hlead hstep ih =>
      obtain ⟨a, hs, hok⟩ := hstep
      exact step hlead ih hs hok

/-! ### Runs that can be evaluated -/

variable (M)

/-- The state after the labels `as`, provided every step is enabled and meets `ok`. -/
def run (ok : StepCond σ α) [∀ s a s', Decidable (ok s a s')] : σ → List α → Option σ
  | s, [] => some s
  | s, a :: as => match M.next s a with
    | some s' => if ok s a s' then run ok s' as else none
    | none => none

instance (s : σ) (a : α) (s' : σ) : Decidable (anyStep s a s') := instDecidableTrue

variable {M}

theorem Leads.run [∀ s a s', Decidable (ok s a s')] {s s' : σ} {as : List α}
    (h : M.run ok s as = some s') : M.Leads ok s s' := by
  induction as generalizing s with
  | nil =>
      cases h
      exact .refl
  | cons a as ih =>
      rw [Machine.run] at h
      split at h
      · rename_i u hs
        split at h
        · rename_i hok
          exact .head ⟨a, hs, hok⟩ (ih h)
        · cases h
      · cases h

theorem Reachable.run [∀ s a s', Decidable (ok s a s')] {s s' : σ} {as : List α}
    (h : M.Reachable ok s) (hrun : M.run ok s as = some s') : M.Reachable ok s' :=
  h.trans (Leads.run hrun)

/-- The last state of a run that can be evaluated. -/
theorem Reachable.of_run [∀ s a s', Decidable (ok s a s')] (as : List α)
    (h : (M.run ok M.init as).isSome) : M.Reachable ok ((M.run ok M.init as).get h) :=
  Reachable.refl.run (Option.some_get h).symm

/-! ### History

`observe` adds a history to the states of a machine. The history is written at every step and
read by none. -/

variable (M)

def observe (h₀ : ω) (record : ω → σ → α → σ → ω) : Machine (σ × ω) α where
  init := (M.init, h₀)
  next s a := (M.next s.1 a).map fun s' => (s', record s.2 s.1 a s')

variable {M} {h₀ : ω} {record : ω → σ → α → σ → ω}

theorem observe_next {s s' : σ × ω} {a : α} (h : (M.observe h₀ record).next s a = some s') :
    M.next s.1 a = some s'.1 ∧ s'.2 = record s.2 s.1 a s'.1 := by
  simp only [observe, Option.map_eq_some_iff] at h
  obtain ⟨u, hu, rfl⟩ := h
  exact ⟨hu, rfl⟩

theorem Leads.of_observed {okw : StepCond (σ × ω) α} {x y : σ × ω} (h : (M.observe h₀ record).Leads okw x y)
    (hok : ∀ {u a u'}, okw u a u' → ok u.1 a u'.1) : M.Leads ok x.1 y.1 := by
  refine h.induct (I := fun y : σ × ω => M.Leads ok x.1 y.1) .refl ?_
  intro u a u' _ ih hs ha
  exact ih.tail ⟨a, (observe_next hs).1, hok ha⟩

theorem Reachable.of_observed {okw : StepCond (σ × ω) α} {x : σ × ω}
    (h : (M.observe h₀ record).Reachable okw x) (hok : ∀ {u a u'}, okw u a u' → ok u.1 a u'.1) :
    M.Reachable ok x.1 :=
  Leads.of_observed h hok

/-- Every run has a history. -/
theorem Reachable.exists_observed {s : σ} (h : M.Reachable ok s) {okw : StepCond (σ × ω) α}
    (hok : ∀ {u a u' w}, M.Reachable ok u → M.next u a = some u' → ok u a u' →
      (M.observe h₀ record).Reachable okw (u, w) → okw (u, w) a (u', record w u a u')) :
    ∃ w, (M.observe h₀ record).Reachable okw (s, w) := by
  refine h.induct (I := fun s => ∃ w, (M.observe h₀ record).Reachable okw (s, w)) ⟨h₀, .refl⟩ ?_
  rintro u a u' hreach ⟨w, hw⟩ hs ha
  refine ⟨record w u a u', hw.next ?_ (hok hreach hs ha hw)⟩
  change (M.next u a).map _ = _
  rw [hs]
  rfl

end Machine
end Concurrency
