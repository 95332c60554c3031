import Mathlib.Logic.Function.Basic
import Mathlib.Tactic.Common

/-! A flag that guards a section of the code: it is set exactly while a thread is inside, and then
only one thread is. One thread moves by `Function.update`. -/

namespace Concurrency

variable {Tid β : Type*} {flag flag' : Prop} {p : β → Prop} {f : Tid → β}

/-- A move that keeps `g` of the moving thread keeps it of every thread. -/
theorem apply_update_same {γ : Type*} [DecidableEq Tid] {g : β → γ} {t : Tid} {b : β}
    (h : g b = g (f t)) (u : Tid) : g (Function.update f t b u) = g (f u) := by
  rw [Function.update_apply]
  split_ifs with hut
  · rw [h, hut]
  · rfl

structure Guards (flag : Prop) (p : β → Prop) (f : Tid → β) : Prop where
  iff : flag ↔ ∃ t, p (f t)
  unique : ∀ t u, p (f t) → p (f u) → t = u

namespace Guards

/-- Every thread is inside exactly when it was before. -/
theorem congr (h : Guards flag p f) {g : Tid → β} (hflag : flag' ↔ flag)
    (hall : ∀ u, p (g u) ↔ p (f u)) : Guards flag' p g := by
  refine ⟨?_, fun u v hu hv => h.unique u v ((hall u).mp hu) ((hall v).mp hv)⟩
  rw [hflag, h.iff]
  exact exists_congr fun u => (hall u).symm

variable [DecidableEq Tid] {t : Tid} {b : β}

/-- A move that neither enters nor leaves the section. -/
theorem same (h : Guards flag p f) (hflag : flag' ↔ flag) (hp : p b ↔ p (f t)) :
    Guards flag' p (Function.update f t b) := by
  refine h.congr hflag fun u => ?_
  rw [Function.update_apply]
  split_ifs with heq
  · rw [hp, heq]
  · exact Iff.rfl

theorem enter (h : Guards flag p f) (free : ¬ flag) (hflag : flag') (hp : p b) :
    Guards flag' p (Function.update f t b) := by
  have honly : ∀ u, p (Function.update f t b u) → u = t := by
    intro u hu
    by_contra hne
    rw [Function.update_of_ne hne] at hu
    exact free (h.iff.mpr ⟨u, hu⟩)
  refine ⟨⟨fun _ => ⟨t, by rwa [Function.update_self]⟩, fun _ => hflag⟩, fun u v hu hv => ?_⟩
  rw [honly u hu, honly v hv]

theorem leave (h : Guards flag p f) (inside : p (f t)) (hflag : ¬ flag') (hp : ¬ p b) :
    Guards flag' p (Function.update f t b) := by
  have hnone : ∀ u, ¬ p (Function.update f t b u) := by
    intro u hu
    by_cases heq : u = t
    · rw [heq, Function.update_self] at hu
      exact hp hu
    · rw [Function.update_of_ne heq] at hu
      exact heq (h.unique u t hu inside)
  exact ⟨⟨fun hf => absurd hf hflag, fun ⟨u, hu⟩ => absurd hu (hnone u)⟩,
    fun u _ hu => absurd hu (hnone u)⟩

end Guards
end Concurrency
