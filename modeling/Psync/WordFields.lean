import Mathlib.Data.Nat.Bitwise
import Mathlib.Tactic.Common
import Mathlib.Tactic.Ring

/-! Fields packed into one machine word, read through the number the word stands for. A mask of the
`k` low bits keeps the remainder by `2 ^ k`, the complementary mask the multiple of `2 ^ k`. -/

namespace MachineWord

variable {n k : ℕ}

theorem toNat_and_low (w : BitVec n) (hk : k ≤ n) :
    (w &&& BitVec.ofNat n (2 ^ k - 1)).toNat = w.toNat % 2 ^ k := by
  have hlt : 2 ^ k - 1 < 2 ^ n :=
    lt_of_lt_of_le (Nat.sub_lt (Nat.two_pow_pos k) Nat.one_pos) (Nat.pow_le_pow_right (by omega) hk)
  rw [BitVec.toNat_and, BitVec.toNat_ofNat, Nat.mod_eq_of_lt hlt, Nat.and_two_pow_sub_one_eq_mod]

theorem toNat_and_high (w : BitVec n) (hk : k ≤ n) :
    (w &&& ~~~BitVec.ofNat n (2 ^ k - 1)).toNat = w.toNat / 2 ^ k * 2 ^ k := by
  have hsplit : w = (w &&& BitVec.ofNat n (2 ^ k - 1)) + (w &&& ~~~BitVec.ofNat n (2 ^ k - 1)) := by
    rw [BitVec.add_eq_or_of_and_eq_zero]
    · ext i
      simp only [BitVec.getElem_or, BitVec.getElem_and, BitVec.getElem_not]
      cases w[i] <;> simp
    · ext i
      simp only [BitVec.getElem_and, BitVec.getElem_not, BitVec.getElem_zero]
      cases w[i] <;> simp
  have hle : (w &&& ~~~BitVec.ofNat n (2 ^ k - 1)).toNat ≤ w.toNat := by
    rw [BitVec.toNat_and]
    exact Nat.and_le_left
  have hsum := congrArg BitVec.toNat hsplit
  rw [BitVec.toNat_add, toNat_and_low w hk] at hsum
  have hdiv := Nat.div_add_mod w.toNat (2 ^ k)
  have hw := w.isLt
  rw [Nat.mul_comm] at hdiv
  by_cases hover : w.toNat % 2 ^ k + (w &&& ~~~BitVec.ofNat n (2 ^ k - 1)).toNat < 2 ^ n
  · rw [Nat.mod_eq_of_lt hover] at hsum
    omega
  · exfalso
    have hmod : w.toNat % 2 ^ k ≤ w.toNat := Nat.mod_le _ _
    rw [Nat.mod_eq_sub_mod (by omega), Nat.mod_eq_of_lt (by omega)] at hsum
    omega

theorem eq_zero_iff (w : BitVec n) : w = 0 ↔ w.toNat = 0 := by
  rw [BitVec.toNat_eq, BitVec.ofNat_eq_ofNat, BitVec.toNat_ofNat, Nat.zero_mod]

theorem and_twoPow_ne_zero {i : ℕ} (w : BitVec n) (hi : i < n) :
    w &&& BitVec.twoPow n i ≠ 0 ↔ w.getLsbD i = true := by
  rw [BitVec.and_twoPow]
  split_ifs with hbit
  · refine ⟨fun _ => hbit, fun _ hzero => ?_⟩
    have hone := congrArg (BitVec.getLsbD · i) hzero
    simp [hi] at hone
  · exact ⟨fun h => absurd rfl h, fun h => absurd h hbit⟩

/-- Setting the lowest bit of an even word. -/
theorem toNat_or_one (w : BitVec n) (hn : 0 < n) (heven : w.toNat % 2 = 0) :
    (w ||| 1#n).toNat = w.toNat + 1 := by
  have hone : 1 % 2 ^ n = 1 := Nat.mod_eq_of_lt (Nat.one_lt_two_pow (by omega))
  rw [BitVec.toNat_or, BitVec.toNat_ofNat, hone]
  have := Nat.two_pow_add_eq_or_of_lt (i := 1) (b := 1) (by norm_num) (w.toNat / 2)
  rw [pow_one, show 2 * (w.toNat / 2) = w.toNat by omega] at this
  exact this.symm

end MachineWord
