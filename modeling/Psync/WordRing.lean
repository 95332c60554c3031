import Mathlib.Data.Nat.Size
import Mathlib.Data.Nat.ModEq
import Mathlib.Tactic.Common
import Psync.WordFields

/-! Positions on a ring of `2 ^ k` cells, counted in machine words that wrap around. A position is a
natural number; the word that stands for it keeps the remainder by `2 ^ n`, and the mask of the `k`
low bits finds its cell. Positions less than one lap apart lie in different cells. -/

namespace MachineWord

variable {n k : ℕ}

/-- The cell of position `p`. -/
def cell (n k p : ℕ) : BitVec n := BitVec.ofNat n p &&& BitVec.ofNat n (2 ^ k - 1)

theorem cell_toNat (hk : k ≤ n) (p : ℕ) : (cell n k p).toNat = p % 2 ^ k := by
  rw [cell, toNat_and_low _ hk, BitVec.toNat_ofNat]
  exact Nat.mod_mod_of_dvd p (Nat.pow_dvd_pow 2 hk)

theorem cell_eq_iff (hk : k ≤ n) {p q : ℕ} : cell n k p = cell n k q ↔ p % 2 ^ k = q % 2 ^ k := by
  rw [BitVec.toNat_eq, cell_toNat hk, cell_toNat hk]

/-- Two numbers in one window of `c` that agree modulo `c` are equal. -/
theorem eq_of_mod_eq {c r p q : ℕ} (hp : r ≤ p) (hp' : p < r + c) (hq : r ≤ q) (hq' : q < r + c)
    (h : p % c = q % c) : p = q := by
  have hmod : p ≡ q [MOD c] := h
  rcases Nat.le_total p q with hle | hle
  · have hdvd := (Nat.modEq_iff_dvd' hle).mp hmod
    have := Nat.eq_zero_of_dvd_of_lt hdvd (by omega)
    omega
  · have hdvd := (Nat.modEq_iff_dvd' hle).mp hmod.symm
    have := Nat.eq_zero_of_dvd_of_lt hdvd (by omega)
    omega

theorem cell_inj (hk : k ≤ n) {r p q : ℕ} (hp : r ≤ p) (hp' : p < r + 2 ^ k) (hq : r ≤ q)
    (hq' : q < r + 2 ^ k) (h : cell n k p = cell n k q) : p = q :=
  eq_of_mod_eq hp hp' hq hq' ((cell_eq_iff hk).mp h)

theorem cell_add (hk : k ≤ n) (p : ℕ) : cell n k (p + 2 ^ k) = cell n k p := by
  rw [cell_eq_iff hk, Nat.add_mod_right]

/-- Every position has a representative in each window of one lap. -/
theorem exists_cell_eq (hk : k ≤ n) (r p : ℕ) :
    ∃ q, r ≤ q ∧ q < r + 2 ^ k ∧ cell n k q = cell n k p := by
  have hpos := Nat.two_pow_pos k
  have hr := Nat.mod_lt r hpos
  have hp := Nat.mod_lt p hpos
  have hdiv := Nat.div_add_mod r (2 ^ k)
  by_cases hle : r % 2 ^ k ≤ p % 2 ^ k
  · refine ⟨2 ^ k * (r / 2 ^ k) + p % 2 ^ k, by omega, by omega, ?_⟩
    rw [cell_eq_iff hk, Nat.mul_add_mod, Nat.mod_mod]
  · refine ⟨2 ^ k * (r / 2 ^ k + 1) + p % 2 ^ k, ?_, ?_, ?_⟩
    · rw [Nat.mul_add]
      omega
    · rw [Nat.mul_add]
      omega
    · rw [cell_eq_iff hk, Nat.mul_add_mod, Nat.mod_mod]

theorem ofNat_inj {r p q : ℕ} (hp : r ≤ p) (hp' : p < r + 2 ^ n) (hq : r ≤ q) (hq' : q < r + 2 ^ n)
    (h : BitVec.ofNat n p = BitVec.ofNat n q) : p = q := by
  refine eq_of_mod_eq hp hp' hq hq' ?_
  rw [← BitVec.toNat_ofNat, ← BitVec.toNat_ofNat, h]

theorem ofNat_succ (p : ℕ) : BitVec.ofNat n (p + 1) = BitVec.ofNat n p + 1#n :=
  BitVec.ofNat_add p 1

/-- The signed difference of two words that stand for small numbers. -/
theorem toInt_sub_ofNat {x y : ℕ} (hx : 2 * x < 2 ^ n) (hy : 2 * y < 2 ^ n) :
    (BitVec.ofNat n x - BitVec.ofNat n y).toInt = (x : ℤ) - y := by
  have hpow : ((2 ^ n : ℕ) : ℤ) = 2 ^ n := by norm_cast
  rw [BitVec.toInt_sub, BitVec.toInt_ofNat', BitVec.toInt_ofNat', Int.bmod_sub_bmod,
    Int.sub_bmod_bmod]
  exact Int.bmod_eq_of_le_mul_two (by omega) (by omega)

/-! ### Rounding up to a power of two -/

/-- `z` has exactly the bits of `x` and of the `w - 1` shifts of `x` to the right. -/
def Smears (x z : BitVec n) (w : ℕ) : Prop :=
  ∀ i, z.getLsbD i = true ↔ ∃ j < w, x.getLsbD (i + j) = true

theorem Smears.refl (x : BitVec n) : Smears x x 1 := by
  intro i
  constructor
  · intro h
    exact ⟨0, Nat.one_pos, h⟩
  · rintro ⟨j, hj, h⟩
    obtain rfl : j = 0 := by omega
    exact h

theorem Smears.double {x z : BitVec n} {w : ℕ} (h : Smears x z w) :
    Smears x (z ||| z >>> w) (w + w) := by
  intro i
  rw [BitVec.getLsbD_or, BitVec.getLsbD_ushiftRight, Bool.or_eq_true, h i, h (w + i)]
  constructor
  · rintro (⟨j, hj, hx⟩ | ⟨j, hj, hx⟩)
    · exact ⟨j, by omega, hx⟩
    · exact ⟨w + j, by omega, by rwa [show i + (w + j) = w + i + j by omega]⟩
  · rintro ⟨j, hj, hx⟩
    by_cases hjw : j < w
    · exact Or.inl ⟨j, hjw, hx⟩
    · exact Or.inr ⟨j - w, by omega, by rwa [show w + i + (j - w) = i + j by omega]⟩

/-- All bits below the highest bit of `x` are set. -/
theorem Smears.toNat_eq {x z : BitVec n} (h : Smears x z n) :
    z.toNat = 2 ^ Nat.size x.toNat - 1 := by
  refine Nat.eq_of_testBit_eq fun i => ?_
  rw [Nat.testBit_two_pow_sub_one, Bool.eq_iff_iff, decide_eq_true_iff, ← BitVec.getLsbD, h i]
  constructor
  · rintro ⟨j, -, hx⟩
    have hle := Nat.ge_two_pow_of_testBit hx
    exact lt_of_le_of_lt (Nat.le_add_right i j) (Nat.lt_size.mpr hle)
  · intro hi
    have hsize : Nat.size x.toNat ≤ n := Nat.size_le.mpr x.isLt
    refine ⟨Nat.size x.toNat - 1 - i, by omega, ?_⟩
    rw [show i + (Nat.size x.toNat - 1 - i) = Nat.size x.toNat - 1 by omega, BitVec.getLsbD]
    refine Nat.testBit_of_two_pow_le_and_two_pow_add_one_gt (Nat.lt_size.mp (by omega)) ?_
    rw [show Nat.size x.toNat - 1 + 1 = Nat.size x.toNat by omega]
    exact Nat.lt_size_self _

end MachineWord
