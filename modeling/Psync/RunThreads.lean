import Mathlib.Algebra.BigOperators.Group.Finset.Basic
import Mathlib.Algebra.Order.BigOperators.Group.Finset
import Mathlib.Data.Fintype.BigOperators
import Mathlib.Tactic.Common

/-! Counting threads. A family of threads is a function `f` from thread names to local states,
`tally w f` adds up a weight over the threads and `count p f` is the number of threads whose local
state satisfies `p`. One thread moves by `Function.update`. -/

namespace Concurrency

/-- The threads of runs that are evaluated. -/
inductive Runner
  | a
  | b
  | c
  deriving DecidableEq

instance : Fintype Runner := ⟨{.a, .b, .c}, fun t => by cases t <;> decide⟩

variable {Tid β : Type*} [Fintype Tid] {w v : β → ℕ} {p q : β → Bool} {f g : Tid → β}

def tally (w : β → ℕ) (f : Tid → β) : ℕ := ∑ t, w (f t)

def count (p : β → Bool) (f : Tid → β) : ℕ := (Finset.univ.filter fun t => p (f t) = true).card

theorem count_eq_tally : count p f = tally (fun b => (p b).toNat) f := by
  rw [count, Finset.card_filter]
  refine Finset.sum_congr rfl fun t _ => ?_
  cases h : p (f t) <;> simp [h]

theorem tally_congr (h : ∀ t, w (f t) = v (g t)) : tally w f = tally v g :=
  Finset.sum_congr rfl fun t _ => h t

theorem count_congr (h : ∀ t, p (f t) = q (g t)) : count p f = count q g := by
  simp only [count, h]

theorem count_mono (h : ∀ t, p (f t) = true → q (g t) = true) : count p f ≤ count q g :=
  Finset.card_le_card fun t => by simpa using h t

theorem le_tally (t : Tid) : w (f t) ≤ tally w f :=
  Finset.single_le_sum (f := fun t => w (f t)) (fun _ _ => Nat.zero_le _) (Finset.mem_univ t)

theorem tally_eq_zero : tally w f = 0 ↔ ∀ t, w (f t) = 0 := by
  simp [tally, Finset.sum_eq_zero_iff]

/-- A bound that the sum attains is attained by every thread. -/
theorem eq_of_tally_eq {b : ℕ} (hle : ∀ t, w (f t) ≤ b) (h : tally w f = Fintype.card Tid * b)
    (t : Tid) : w (f t) = b := by
  have hsum : ∑ t, w (f t) = ∑ _t : Tid, b := by
    rw [Finset.sum_const_nat fun _ _ => rfl]
    exact h
  exact (Finset.sum_eq_sum_iff_of_le fun t _ => hle t).mp hsum t (Finset.mem_univ t)

theorem count_le_card : count p f ≤ Fintype.card Tid := Finset.card_le_univ _

theorem count_eq_zero : count p f = 0 ↔ ∀ t, p (f t) = false := by
  simp [count, Finset.filter_eq_empty_iff]

theorem count_pos : 0 < count p f ↔ ∃ t, p (f t) = true := by
  simp [count, Finset.card_pos, Finset.Nonempty]

theorem count_pos_of {t : Tid} (h : p (f t) = true) : 0 < count p f := count_pos.mpr ⟨t, h⟩

theorem count_le_one (h : ∀ t u, p (f t) = true → p (f u) = true → t = u) : count p f ≤ 1 :=
  Finset.card_le_one.mpr fun t ht u hu => h t u (by simpa using ht) (by simpa using hu)

/-- Two different threads at `p` are counted twice. -/
theorem eq_of_count_le_one (h : count p f ≤ 1) {t u : Tid} (ht : p (f t) = true)
    (hu : p (f u) = true) : t = u := by
  have hone := Finset.card_le_one.mp h
  exact hone t (by simpa using ht) u (by simpa using hu)

theorem tally_mono (h : ∀ t, w (f t) ≤ v (g t)) : tally w f ≤ tally v g :=
  Finset.sum_le_sum fun t _ => h t

/-- The weight of one thread sinks. -/
theorem tally_lt {t : Tid} (hlt : w (g t) < v (f t)) (hrest : ∀ u, u ≠ t → w (g u) = v (f u)) :
    tally w g < tally v f := by
  refine Finset.sum_lt_sum (fun u _ => ?_) ⟨t, Finset.mem_univ t, hlt⟩
  by_cases hut : u = t
  · rw [hut]
    exact hlt.le
  · exact (hrest u hut).le

theorem tally_add : tally (fun b => w b + v b) f = tally w f + tally v f := Finset.sum_add_distrib

variable [DecidableEq Tid]

/-- The weight of some threads grows by one each. -/
theorem tally_add_card {moved : Finset Tid} (hin : ∀ t ∈ moved, w (g t) = w (f t) + 1)
    (hout : ∀ t, t ∉ moved → w (g t) = w (f t)) : tally w g = tally w f + moved.card := by
  have hsum : ∀ t, w (g t) = w (f t) + if t ∈ moved then 1 else 0 := by
    intro t
    split_ifs with ht
    · exact hin t ht
    · exact hout t ht
  have hcard : ∑ t, (if t ∈ moved then 1 else 0) = moved.card := by
    rw [← Finset.card_filter, Finset.filter_univ_mem]
  rw [tally, Finset.sum_congr rfl fun t _ => hsum t, Finset.sum_add_distrib, hcard, tally]

/-- How a sum changes when thread `t` moves to `b`. -/
theorem tally_update (t : Tid) (b : β) :
    tally w (Function.update f t b) + w (f t) = tally w f + w b := by
  have hrest : ∑ u ∈ Finset.univ.erase t, w (Function.update f t b u) =
      ∑ u ∈ Finset.univ.erase t, w (f u) := by
    refine Finset.sum_congr rfl fun u hu => ?_
    rw [Function.update_of_ne (Finset.ne_of_mem_erase hu)]
  have hnew := Finset.add_sum_erase Finset.univ (fun u => w (Function.update f t b u))
    (Finset.mem_univ t)
  have hold := Finset.add_sum_erase Finset.univ (fun u => w (f u)) (Finset.mem_univ t)
  simp only [Function.update_self] at hnew
  rw [tally, tally]
  omega

theorem count_update (t : Tid) (b : β) :
    count p (Function.update f t b) + (p (f t)).toNat = count p f + (p b).toNat := by
  rw [count_eq_tally, count_eq_tally]
  exact tally_update t b

theorem tally_update_same {t : Tid} {b : β} (h : w b = w (f t)) :
    tally w (Function.update f t b) = tally w f := by
  have := tally_update (w := w) (f := f) t b
  omega

/-- A move that does not change `p` of the moving thread keeps the count. -/
theorem count_update_same {t : Tid} {b : β} (h : p b = p (f t)) :
    count p (Function.update f t b) = count p f := by
  have := count_update (p := p) (f := f) t b
  rw [h] at this
  omega

/-- A counter to which `n` contributions go, less what the threads still owe it, when one thread moves and
pays. -/
theorem word_tally_update {k n n' : ℕ} {a a' : BitVec k} {t : Tid} {b : β}
    (h : a + BitVec.ofNat k (tally w f) = BitVec.ofNat k n)
    (hpay : a' + BitVec.ofNat k (w b + n) = a + BitVec.ofNat k (w (f t) + n')) :
    a' + BitVec.ofNat k (tally w (Function.update f t b)) = BitVec.ofNat k n' := by
  have htally := congrArg (BitVec.ofNat k) (tally_update (w := w) (f := f) t b)
  simp only [BitVec.ofNat_add] at htally hpay
  grind

end Concurrency
