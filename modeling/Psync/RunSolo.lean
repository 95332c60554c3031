import Mathlib.Tactic.Common

/-! Runs of one thread alone, from a position of a function to its return. A step may emit a value;
the run collects them. `Solo` is the relation and `exec` the evaluation with a bound on the number
of steps: a bound exists for every run, and the bound does not change the outcome. -/

namespace Concurrency

/-- Where a step leads: to another position of the function, or back to its caller. -/
inductive Next (M P R : Type*)
  | at (m : M) (pc : P)
  | ret (m : M) (r : R)

/-- The memory changes, and the position does not. -/
def Next.map {M P R : Type*} (f : M → M) : Next M P R → Next M P R
  | .at m pc => .at (f m) pc
  | .ret m r => .ret (f m) r

variable {M P R E : Type*} {step : M → P → Option (Next M P R)} {emit : P → List E}

/-- The run from `pc` ends with memory `m'` and result `r`, having emitted `es`. -/
inductive Solo (step : M → P → Option (Next M P R)) (emit : P → List E) :
    M → P → List E → M → R → Prop
  | ret {m m' : M} {pc : P} {r : R} (h : step m pc = some (.ret m' r)) : Solo step emit m pc (emit pc) m' r
  | at {m m' m'' : M} {pc pc' : P} {es : List E} {r : R} (h : step m pc = some (.at m' pc'))
      (rest : Solo step emit m' pc' es m'' r) : Solo step emit m pc (emit pc ++ es) m'' r

/-- A step that emits nothing. -/
theorem Solo.quiet {m m' m'' : M} {pc pc' : P} {es : List E} {r : R}
    (h : step m pc = some (.at m' pc')) (hq : emit pc = []) (rest : Solo step emit m' pc' es m'' r) :
    Solo step emit m pc es m'' r := by
  have hrun : Solo step emit m pc (emit pc ++ es) m'' r := .at h rest
  rwa [hq, List.nil_append] at hrun

theorem Solo.done {m m' : M} {pc : P} {r : R} (h : step m pc = some (.ret m' r)) (hq : emit pc = []) :
    Solo step emit m pc [] m' r := by
  have hrun : Solo step emit m pc (emit pc) m' r := .ret h
  rwa [hq] at hrun

/-- At most `fuel` steps. -/
def exec (step : M → P → Option (Next M P R)) (emit : P → List E) :
    ℕ → M → P → Option (List E × M × R)
  | 0, _, _ => none
  | fuel + 1, m, pc => match step m pc with
    | some (.at m' pc') => (exec step emit fuel m' pc').map fun o => (emit pc ++ o.1, o.2)
    | some (.ret m' r) => some (emit pc, m', r)
    | none => none

theorem Solo.exec {m m' : M} {pc : P} {es : List E} {r : R} (h : Solo step emit m pc es m' r) :
    ∃ fuel, exec step emit fuel m pc = some (es, m', r) := by
  induction h with
  | ret h => exact ⟨1, by simp only [Concurrency.exec, h]⟩
  | «at» h rest ih =>
      obtain ⟨fuel, hfuel⟩ := ih
      exact ⟨fuel + 1, by simp only [Concurrency.exec, h, hfuel, Option.map_some]⟩

/-- What a bounded evaluation returns is what the run returns. -/
theorem Solo.eq_of_exec {m m' : M} {pc : P} {es : List E} {r : R} (h : Solo step emit m pc es m' r)
    {fuel : ℕ} {o : List E × M × R} (ho : Concurrency.exec step emit fuel m pc = some o) :
    o = (es, m', r) := by
  induction h generalizing fuel o with
  | ret h =>
      cases fuel with
      | zero => cases ho
      | succ fuel =>
          simp only [Concurrency.exec, h] at ho
          exact (Option.some.inj ho).symm
  | «at» h rest ih =>
      cases fuel with
      | zero => cases ho
      | succ fuel =>
          simp only [Concurrency.exec, h, Option.map_eq_some_iff] at ho
          obtain ⟨o', ho', rfl⟩ := ho
          rw [ih ho']

end Concurrency
