import Mathlib.Data.List.Basic
import Mathlib.Tactic.Common

/-! Neighbours in a list, for chains of nodes that grow at one end and shrink at the other. -/

namespace Concurrency

variable {α : Type*} {l : List α} {a b c x e : α}

/-- `b` comes right after `a`. -/
def Consecutive : List α → α → α → Prop
  | x :: y :: l, a, b => (a = x ∧ b = y) ∨ Consecutive (y :: l) a b
  | _, _, _ => False

namespace Consecutive

theorem mem_left (h : Consecutive l a b) : a ∈ l := by
  induction l with
  | nil => exact h.elim
  | cons x l ih =>
      cases l with
      | nil => exact h.elim
      | cons y l =>
          rcases h with ⟨rfl, -⟩ | h
          · exact List.mem_cons_self
          · exact List.mem_cons_of_mem _ (ih h)

theorem mem_right (h : Consecutive l a b) : b ∈ l := by
  induction l with
  | nil => exact h.elim
  | cons x l ih =>
      cases l with
      | nil => exact h.elim
      | cons y l =>
          rcases h with ⟨-, rfl⟩ | h
          · exact List.mem_cons_of_mem _ List.mem_cons_self
          · exact List.mem_cons_of_mem _ (ih h)

theorem cons (x : α) (h : Consecutive l a b) : Consecutive (x :: l) a b := by
  cases l with
  | nil => exact h.elim
  | cons y l => exact Or.inr h

/-- The first node leaves the chain. -/
theorem of_cons (h : Consecutive (x :: l) a b) (hne : a ≠ x) : Consecutive l a b := by
  cases l with
  | nil => exact h.elim
  | cons y l =>
      rcases h with ⟨rfl, -⟩ | h
      · exact absurd rfl hne
      · exact h

theorem right_unique (hl : l.Nodup) (hb : Consecutive l a b) (hc : Consecutive l a c) : b = c := by
  induction l with
  | nil => exact hb.elim
  | cons x l ih =>
      cases l with
      | nil => exact hb.elim
      | cons y l =>
          obtain ⟨hnot, hl⟩ := List.nodup_cons.mp hl
          rcases hb with ⟨rfl, rfl⟩ | hb
          · rcases hc with ⟨-, rfl⟩ | hc
            · rfl
            · exact absurd hc.mem_left hnot
          · rcases hc with ⟨rfl, -⟩ | hc
            · exact absurd hb.mem_left hnot
            · exact ih hl hb hc

/-- The last node has no successor. -/
theorem ne_last (hl : l.Nodup) (h : Consecutive l a b) (hlast : l.getLast? = some c) : a ≠ c := by
  induction l with
  | nil => exact h.elim
  | cons x l ih =>
      cases l with
      | nil => exact h.elim
      | cons y l =>
          obtain ⟨hnot, hl⟩ := List.nodup_cons.mp hl
          rw [List.getLast?_cons_cons] at hlast
          rcases h with ⟨rfl, -⟩ | h
          · rintro rfl
            exact hnot (List.mem_of_getLast? hlast)
          · exact ih hl h hlast

/-- The first node has no predecessor. -/
theorem ne_first (hl : l.Nodup) (h : Consecutive l a b) (hfirst : l.head? = some c) : b ≠ c := by
  cases l with
  | nil => exact h.elim
  | cons x l =>
      cases hfirst
      cases l with
      | nil => exact h.elim
      | cons y l =>
          obtain ⟨hnot, hl⟩ := List.nodup_cons.mp hl
          rcases h with ⟨-, rfl⟩ | h
          · rintro rfl
            exact hnot List.mem_cons_self
          · rintro rfl
            exact hnot h.mem_right

theorem append (r : List α) (h : Consecutive l a b) : Consecutive (l ++ r) a b := by
  induction l with
  | nil => exact h.elim
  | cons x l ih =>
      cases l with
      | nil => exact h.elim
      | cons y l =>
          rcases h with ⟨rfl, rfl⟩ | h
          · exact Or.inl ⟨rfl, rfl⟩
          · exact Or.inr (ih h)

/-- A new node comes after the last one. -/
theorem concat (hlast : l.getLast? = some a) : Consecutive (l ++ [e]) a e := by
  induction l with
  | nil => cases hlast
  | cons x l ih =>
      cases l with
      | nil =>
          cases hlast
          exact Or.inl ⟨rfl, rfl⟩
      | cons y l =>
          rw [List.getLast?_cons_cons] at hlast
          exact Or.inr (ih hlast)

theorem of_concat (h : Consecutive (l ++ [e]) a b) :
    Consecutive l a b ∨ l.getLast? = some a ∧ b = e := by
  induction l with
  | nil => exact h.elim
  | cons x l ih =>
      cases l with
      | nil =>
          rcases h with ⟨rfl, rfl⟩ | h
          · exact Or.inr ⟨rfl, rfl⟩
          · exact h.elim
      | cons y l =>
          rw [List.getLast?_cons_cons]
          rcases h with ⟨rfl, rfl⟩ | h
          · exact Or.inl (Or.inl ⟨rfl, rfl⟩)
          · exact (ih h).imp_left Or.inr

end Consecutive

/-- A chain that begins and ends with the same node has no other. -/
theorem eq_singleton_of_ends (hl : l.Nodup) (hhead : l.head? = some a) (hlast : l.getLast? = some a) :
    l = [a] := by
  cases l with
  | nil => cases hhead
  | cons x l =>
      cases hhead
      cases l with
      | nil => rfl
      | cons y l =>
          rw [List.getLast?_cons_cons] at hlast
          exact absurd (List.mem_of_getLast? hlast) (List.nodup_cons.mp hl).1

end Concurrency
