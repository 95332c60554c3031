import Mathlib.Logic.Function.Basic
import Mathlib.Data.List.Basic
import Mathlib.Tactic.Common

/-! Segments of a singly linked list. `Segment next p l q` holds when the links lead from the pointer
`p` through the nodes of `l` to the pointer `q`; `q = none` ends the list. One link changes by
`Function.update`. -/

namespace Concurrency

variable {Node : Type*} {next next' : Node → Option Node} {p q : Option Node} {l l' : List Node}
  {n : Node}

def Segment (next : Node → Option Node) : Option Node → List Node → Option Node → Prop
  | p, [], q => p = q
  | p, n :: l, q => p = some n ∧ Segment next (next n) l q

namespace Segment

@[simp] theorem nil : Segment next p [] q ↔ p = q := Iff.rfl

@[simp] theorem cons : Segment next p (n :: l) q ↔ p = some n ∧ Segment next (next n) l q := Iff.rfl

/-- A segment can be cut anywhere. -/
theorem append : Segment next p (l ++ l') q ↔ ∃ r, Segment next p l r ∧ Segment next r l' q := by
  induction l generalizing p with
  | nil => simp
  | cons n l ih => simp [ih, and_assoc]

theorem concat : Segment next p (l ++ [n]) q ↔ Segment next p l (some n) ∧ next n = q := by
  rw [append]
  constructor
  · rintro ⟨r, hl, rfl, hn⟩
    exact ⟨hl, hn⟩
  · rintro ⟨hl, hn⟩
    exact ⟨some n, hl, rfl, hn⟩

/-- Links outside the segment do not matter. -/
theorem congr (h : Segment next p l q) (hsame : ∀ n ∈ l, next' n = next n) :
    Segment next' p l q := by
  induction l generalizing p with
  | nil => exact h
  | cons n l ih =>
      refine ⟨h.1, ?_⟩
      rw [hsame n List.mem_cons_self]
      exact ih h.2 fun m hm => hsame m (List.mem_cons_of_mem n hm)

/-- The first pointer of a list is its first node. -/
theorem head (h : Segment next p l none) : p = l.head? := by
  cases l with
  | nil => exact h
  | cons n l => exact h.1

/-- The link of a node leads to the rest of the list. -/
theorem next_eq (h : Segment next p (l ++ n :: l') none) : next n = l'.head? := by
  obtain ⟨r, -, -, hl'⟩ := append.mp h
  exact hl'.head

/-- No link leads out of a list. -/
theorem next_mem {m : Node} (h : Segment next p l none) (hn : n ∈ l) (hm : next n = some m) : m ∈ l := by
  obtain ⟨a, b, rfl⟩ := List.append_of_mem hn
  rw [h.next_eq] at hm
  exact List.mem_append_right a (List.mem_cons_of_mem n (List.mem_of_mem_head? hm))

/-- The pointer determines the list. -/
theorem unique (h : Segment next p l none) (h' : Segment next p l' none) : l = l' := by
  induction l generalizing p l' with
  | nil =>
      cases l' with
      | nil => rfl
      | cons n' l' => cases h.symm.trans h'.1
  | cons n l ih =>
      cases l' with
      | nil => cases h.1.symm.trans h'
      | cons n' l' =>
          obtain rfl := Option.some.inj (h.1.symm.trans h'.1)
          rw [ih h.2 h'.2]

/-- A list that ends is acyclic. -/
theorem nodup (h : Segment next p l none) : l.Nodup := by
  induction l generalizing p with
  | nil => exact List.nodup_nil
  | cons n l ih =>
      refine List.nodup_cons.mpr ⟨fun hmem => ?_, ih h.2⟩
      obtain ⟨a, b, rfl⟩ := List.append_of_mem hmem
      obtain ⟨r, -, -, hb⟩ := append.mp h.2
      -- the rest after the second occurrence would be the rest after the first
      have hlen := congrArg List.length (unique h.2 hb)
      simp at hlen
      omega

variable [DecidableEq Node]

theorem update_of_notMem (h : Segment next p l q) (hn : n ∉ l) (r : Option Node) :
    Segment (Function.update next n r) p l q :=
  h.congr fun _ hm => Function.update_of_ne (ne_of_mem_of_not_mem hm hn) ..

/-- The last link of a segment is set. -/
theorem redirect (h : Segment next p (l ++ [n]) q) (hn : n ∉ l) (r : Option Node) :
    Segment (Function.update next n r) p (l ++ [n]) r :=
  concat.mpr ⟨(concat.mp h).1.update_of_notMem hn r, Function.update_self ..⟩

end Segment
end Concurrency
