import Psync.MpscFifo
import Psync.SpscModel
import Mathlib.Order.Bounds.Basic

/-! The constructors of the two queues. Both round the requested capacity up to a power of two and
allocate that many elements: `SPSCQueue` computes the number of bytes itself, in a machine word, and
`MPSCQueue` leaves it to `new` and then initialises the slots in a loop. Rounding fails beyond 2 ^ 63,
where the capacity becomes 0, and the number of bytes of `SPSCQueue` may wrap around. -/

namespace Psync

open MachineWord
open MPSCQueue (ringBits ringMask maskOf_eq ringBits_le capacity_toNat)

/-- `operator new[]`: the size of the block for a number of bytes, or `none` when it throws. -/
structure Allocator where
  alloc : U64 → Option ℕ
  enough : ∀ bytes size, alloc bytes = some size → bytes.toNat ≤ size

/-- `new T[n]` for elements of `elementSize` bytes. -/
def Allocator.newArray (A : Allocator) (n elementSize : U64) : Option ℕ :=
  if n.toNat * elementSize.toNat < 2 ^ 64 then A.alloc (n * elementSize) else none

/-- `mask_`, and the size of the block at `buffer_`. -/
structure Ring where
  mask : U64
  size : ℕ

/-- The element at `buffer_[i]` lies inside the block. -/
def Ring.Inside (r : Ring) (elementSize i : U64) : Prop := (i.toNat + 1) * elementSize.toNat ≤ r.size

instance (r : Ring) (elementSize i : U64) : Decidable (r.Inside elementSize i) := Nat.decLe _ _

/-- A queue that was asked for `capacity` elements. -/
structure Ring.Safe (r : Ring) (capacity elementSize : U64) : Prop where
  capacity : IsLeast {n | (∃ k, n = 2 ^ k) ∧ max capacity.toNat 2 ≤ n} (MPSCQueue.capacity r.mask).toNat
  storage : (MPSCQueue.capacity r.mask).toNat * elementSize.toNat ≤ r.size
  inside : ∀ i, r.Inside elementSize (i &&& r.mask)

namespace SPSCQueue

/-- The constructor; `none` when it throws. -/
def construct (A : Allocator) (elementSize capacity : U64) : Option Ring :=
  (A.alloc ((maskOf capacity + 1) * elementSize)).map fun size => ⟨maskOf capacity, size⟩

def ConstructsSafely (elementSize capacity : U64) : Prop :=
  ∀ A ring, construct A elementSize capacity = some ring → ring.Safe capacity elementSize

end SPSCQueue

namespace MPSCQueue

/-- How a constructor ends. -/
inductive Construction
  | threw
  /-- It has stored outside the block. -/
  | outside
  /-- It is still in its loop. -/
  | running
  | built (ring : Ring) (sequence : U64 → Option U64)

/-- `for (usize i = 0; i <= mask_; ++i) buffer_[i].sequence.store(i)`, from `i` on. -/
def initSequences (ring : Ring) (slotSize : U64) : ℕ → U64 → (U64 → Option U64) → Construction
  | 0, _, _ => .running
  | fuel + 1, i, sequence =>
      if i ≤ ring.mask then
        if ring.Inside slotSize i then
          initSequences ring slotSize fuel (i + 1) (Function.update sequence i (some i))
        else .outside
      else .built ring sequence

/-- The constructor, whose loop may run for `fuel` rounds. -/
def construct (A : Allocator) (slotSize capacity : U64) (fuel : ℕ) : Construction :=
  match A.newArray (maskOf capacity + 1) slotSize with
  | none => .threw
  | some size => initSequences ⟨maskOf capacity, size⟩ slotSize fuel 0 fun _ => none

/-- The constructor throws, or ends with every slot initialised. -/
def ConstructsSafely (slotSize capacity : U64) : Prop :=
  ∀ A, ∃ fuel, construct A slotSize capacity fuel = .threw ∨
    ∃ ring sequence, construct A slotSize capacity fuel = .built ring sequence ∧
      ring.Safe capacity slotSize ∧ ∀ i, i ≤ ring.mask → sequence i = some i

end MPSCQueue

/-! ### Rounding -/

variable {capacity elementSize : U64}

theorem ringBits_isLeast (capacity : U64) :
    IsLeast {n | (∃ k, n = 2 ^ k) ∧ max capacity.toNat 2 ≤ n} (2 ^ ringBits capacity) := by
  refine ⟨⟨⟨_, rfl⟩, ?_⟩, ?_⟩
  · have hlt := Nat.lt_size_self (max 2 capacity.toNat - 1)
    rw [← ringBits] at hlt
    omega
  · rintro n ⟨⟨k, rfl⟩, hle⟩
    refine Nat.pow_le_pow_right (by omega) (Nat.size_le.mpr ?_)
    omega

theorem maskOf_of_gt (h : 2 ^ 63 < capacity.toNat) : MPSCQueue.maskOf capacity = -1 := by
  have hle : ringBits capacity ≤ 64 := ringBits_le (by decide) capacity.isLt.le
  have hge : 63 < ringBits capacity := Nat.lt_size.mpr (by omega)
  rw [maskOf_eq, show ringBits capacity = 64 by omega]
  rfl

theorem capacity_isLeast_iff : IsLeast {n | (∃ k, n = 2 ^ k) ∧ max capacity.toNat 2 ≤ n}
    (MPSCQueue.capacity (MPSCQueue.maskOf capacity)).toNat ↔ capacity.toNat ≤ 2 ^ 63 := by
  constructor
  · intro hleast
    by_contra hgt
    rw [maskOf_of_gt (by omega)] at hleast
    have hle : max capacity.toNat 2 ≤ 0 := hleast.1.2
    omega
  · intro hle
    rw [capacity_toNat capacity hle]
    exact ringBits_isLeast capacity

/-- A block is safe for the queue if and only if it has room for the rounded capacity. -/
theorem ring_safe_iff (size : ℕ) : (Ring.mk (MPSCQueue.maskOf capacity) size).Safe capacity elementSize ↔
    capacity.toNat ≤ 2 ^ 63 ∧ 2 ^ ringBits capacity * elementSize.toNat ≤ size := by
  constructor
  · intro hsafe
    have hle := capacity_isLeast_iff.mp hsafe.capacity
    have hstorage := hsafe.storage
    rw [capacity_toNat capacity hle] at hstorage
    exact ⟨hle, hstorage⟩
  · rintro ⟨hle, hroom⟩
    refine ⟨capacity_isLeast_iff.mpr hle, ?_, fun i => ?_⟩
    · rwa [capacity_toNat capacity hle]
    · have hk : ringBits capacity ≤ 64 := (ringBits_le (by decide) hle).trans (by decide)
      have hmod := Nat.mod_lt i.toNat (Nat.two_pow_pos (ringBits capacity))
      rw [Ring.Inside, maskOf_eq, ringMask, toNat_and_low _ hk]
      exact (Nat.mul_le_mul_right _ hmod).trans hroom

/-- The allocator whose blocks are no larger than asked for. -/
def Allocator.tight : Allocator where
  alloc bytes := some bytes.toNat
  enough _ _ h := (Option.some.inj h).le

theorem SPSCQueue.constructsSafely_iff : SPSCQueue.ConstructsSafely elementSize capacity ↔
    capacity.toNat ≤ 2 ^ 63 ∧ 2 ^ ringBits capacity * elementSize.toNat < 2 ^ 64 := by
  constructor
  · intro hsafe
    obtain ⟨hle, hroom⟩ := (ring_safe_iff _).mp (hsafe .tight _ rfl)
    exact ⟨hle, hroom.trans_lt (BitVec.isLt _)⟩
  · rintro ⟨hle, hlt⟩ A ring hring
    obtain ⟨size, halloc, rfl⟩ := Option.map_eq_some_iff.mp hring
    refine (ring_safe_iff size).mpr ⟨hle, ?_⟩
    have hbytes : ((maskOf capacity + 1) * elementSize).toNat = 2 ^ ringBits capacity * elementSize.toNat := by
      rw [BitVec.toNat_mul, ← capacity_toNat capacity hle, Nat.mod_eq_of_lt]
      · rfl
      · rwa [← capacity_toNat capacity hle] at hlt
    rw [← hbytes]
    exact A.enough _ _ halloc

namespace MPSCQueue

variable {ring : Ring} {slotSize : U64}

/-- With room for all `n` slots the loop reaches its end and initialises every slot. -/
theorem initSequences_built (ring : Ring) {n : ℕ} (hn : ring.mask.toNat + 1 = n) (hlt : n < 2 ^ 64)
    (hroom : n * slotSize.toNat ≤ ring.size) (d : ℕ) (i : U64) (sequence : U64 → Option U64)
    (hi : i.toNat + d = n) : ∃ sequence', initSequences ring slotSize (d + 1) i sequence =
      .built ring sequence' ∧ ∀ j, sequence' j = if i ≤ j ∧ j ≤ ring.mask then some j else sequence j := by
  induction d generalizing i sequence with
  | zero =>
      have hend : ¬ i ≤ ring.mask := by
        rw [BitVec.le_def]
        omega
      refine ⟨sequence, ?_, fun j => ?_⟩
      · rw [initSequences, if_neg hend]
      · rw [if_neg fun hj => hend (BitVec.le_trans hj.1 hj.2)]
  | succ d ih =>
      have hmask : i ≤ ring.mask := by
        rw [BitVec.le_def]
        omega
      have hinside : ring.Inside slotSize i := (Nat.mul_le_mul_right _ (by omega)).trans hroom
      have hnext : (i + 1).toNat = i.toNat + 1 := BitVec.toNat_add_of_lt (by simp; omega)
      obtain ⟨sequence', hbuilt, hsequence⟩ := ih (i + 1) (Function.update sequence i (some i)) (by omega)
      refine ⟨sequence', ?_, fun j => ?_⟩
      · rw [initSequences, if_pos hmask, if_pos hinside, hbuilt]
      · rw [hsequence j, Function.update_apply]
        by_cases hj : j = i
        · subst hj
          rw [if_neg (by rw [BitVec.le_def]; omega), if_pos rfl, if_pos ⟨BitVec.le_refl _, hmask⟩]
        · have hiff : i + 1 ≤ j ↔ i ≤ j := by
            rw [BitVec.le_def, BitVec.le_def, hnext]
            have hne : i.toNat ≠ j.toNat := fun h => hj (BitVec.eq_of_toNat_eq h.symm)
            omega
          simp only [hiff, if_neg hj]

/-- With a mask of all ones the loop never reaches its end. -/
theorem initSequences_endless (hmask : ring.mask = -1) (slotSize : U64) (fuel : ℕ) (i : U64)
    (sequence : U64 → Option U64) :
    initSequences ring slotSize fuel i sequence = .running ∨
      initSequences ring slotSize fuel i sequence = .outside := by
  induction fuel generalizing i sequence with
  | zero => exact Or.inl rfl
  | succ fuel ih =>
      have hle : i ≤ ring.mask := by
        have hlt := i.isLt
        rw [hmask, BitVec.le_def, show (-1 : U64).toNat = 2 ^ 64 - 1 from rfl]
        omega
      rw [initSequences, if_pos hle]
      split_ifs
      · exact ih _ _
      · exact Or.inr rfl

theorem construct_endless (hgt : 2 ^ 63 < capacity.toNat) (slotSize : U64) (fuel : ℕ) :
    construct .tight slotSize capacity fuel = .running ∨
      construct .tight slotSize capacity fuel = .outside := by
  have hmask : maskOf capacity = -1 := maskOf_of_gt hgt
  have harray : Allocator.tight.newArray (maskOf capacity + 1) slotSize = some 0 := by
    rw [hmask, Allocator.newArray, if_pos (by simp), Allocator.tight]
    simp
  have hconstruct : construct .tight slotSize capacity fuel =
      initSequences ⟨maskOf capacity, 0⟩ slotSize fuel 0 fun _ => none := by
    rw [construct, harray]
  rw [hconstruct]
  exact initSequences_endless hmask slotSize fuel 0 _

theorem constructsSafely_iff : ConstructsSafely slotSize capacity ↔ capacity.toNat ≤ 2 ^ 63 := by
  constructor
  · intro hsafe
    by_contra hgt
    obtain ⟨fuel, hend⟩ := hsafe .tight
    rcases construct_endless (Nat.lt_of_not_le hgt) slotSize fuel with h | h
    · rw [h] at hend
      rcases hend with hend | ⟨ring, sequence, hend, -⟩ <;> cases hend
    · rw [h] at hend
      rcases hend with hend | ⟨ring, sequence, hend, -⟩ <;> cases hend
  · intro hle A
    cases harray : A.newArray (maskOf capacity + 1) slotSize with
    | none => exact ⟨0, Or.inl (by rw [construct, harray])⟩
    | some size =>
        obtain ⟨hlt, halloc⟩ := Option.ite_none_right_eq_some.mp harray
        have hcapacity : (maskOf capacity + 1).toNat = 2 ^ ringBits capacity := capacity_toNat capacity hle
        have hroom := A.enough _ _ halloc
        rw [BitVec.toNat_mul, Nat.mod_eq_of_lt hlt, hcapacity] at hroom
        have hbits : 2 ^ ringBits capacity ≤ 2 ^ 63 :=
          Nat.pow_le_pow_right (by omega) (ringBits_le (by decide) hle)
        have hmask : (maskOf capacity).toNat + 1 = 2 ^ ringBits capacity := by
          have hpos := Nat.two_pow_pos (ringBits capacity)
          have hmask := (maskOf capacity).isLt
          rw [BitVec.toNat_add, show (1 : U64).toNat = 1 from rfl] at hcapacity
          omega
        obtain ⟨sequence, hbuilt, hsequence⟩ := initSequences_built ⟨maskOf capacity, size⟩ hmask
          (by omega) hroom _ 0 (fun _ => none) (Nat.zero_add _)
        refine ⟨2 ^ ringBits capacity + 1, Or.inr ⟨⟨maskOf capacity, size⟩, sequence, ?_,
          (ring_safe_iff size).mpr ⟨hle, hroom⟩, fun i hi => ?_⟩⟩
        · rw [construct, harray]
          exact hbuilt
        · rw [hsequence i, if_pos ⟨Nat.zero_le _, hi⟩]

end MPSCQueue

/-- A queue is constructed safely, whatever the allocator does, exactly for these requests. -/
theorem queue_construction_safe (elementSize slotSize capacity : U64) :
    (SPSCQueue.ConstructsSafely elementSize capacity ↔
      capacity.toNat ≤ 2 ^ 63 ∧ 2 ^ ringBits capacity * elementSize.toNat < 2 ^ 64) ∧
    (MPSCQueue.ConstructsSafely slotSize capacity ↔ capacity.toNat ≤ 2 ^ 63) :=
  ⟨SPSCQueue.constructsSafely_iff, MPSCQueue.constructsSafely_iff⟩

/-- 2 ^ 61 elements of 8 bytes are given a block of 0 bytes, and 2 ^ 63 + 1 elements a capacity of 0; the
loop of `MPSCQueue` then stores outside its block at once. -/
theorem queue_construction_unsafe :
    SPSCQueue.construct .tight 8 0x2000000000000000 = some ⟨0x1FFFFFFFFFFFFFFF, 0⟩ ∧
    ¬ (Ring.mk 0x1FFFFFFFFFFFFFFF 0).Inside 8 0 ∧
    SPSCQueue.construct .tight 8 0x8000000000000001 = some ⟨-1, 0⟩ ∧ MPSCQueue.capacity (-1) = 0 ∧
    MPSCQueue.construct .tight 16 0x8000000000000001 1 = .outside ∧
    ¬ SPSCQueue.ConstructsSafely 8 0x2000000000000000 ∧
    ¬ SPSCQueue.ConstructsSafely 8 0x8000000000000001 ∧
    ¬ MPSCQueue.ConstructsSafely 16 0x8000000000000001 := by
  refine ⟨rfl, by decide, rfl, by decide, rfl, fun h => ?_, fun h => ?_, fun h => ?_⟩
  · have hstorage := (h .tight _ rfl).storage
    revert hstorage
    decide
  · exact absurd (SPSCQueue.constructsSafely_iff.mp h).1 (by decide)
  · exact absurd (MPSCQueue.constructsSafely_iff.mp h) (by decide)

end Psync
