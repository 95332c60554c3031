import Psync.Platform

/-! The timeouts that `futex::wait_for` hands to the operating system. On Linux they are exact. On
Windows and on Darwin a timeout beyond the 32 bits of the interface is cut down to its low bits, where it
should be as long as the interface allows; on Windows it can become `INFINITE`, and on Darwin a timeout
of zero becomes no timeout. -/

namespace Psync.futex

/-- The largest value of a `DWORD`, which waits for ever. -/
def INFINITE : U32 := 0xFFFFFFFF

structure Timespec where
  tvSec : BitVec 64
  tvNsec : BitVec 64
  deriving DecidableEq

/-- `wait_for` on Linux: the timeout of `FUTEX_WAIT`. -/
def linuxTimeout (timeoutNs : U64) : Timespec where
  tvSec := timeoutNs / 1000000000
  tvNsec := timeoutNs % 1000000000

/-- `wait_for` on Windows: `dwMilliseconds`. -/
def windowsTimeout (timeoutNs : U64) : U32 :=
  let ms := ((timeoutNs + 999999) / 1000000).setWidth 32
  if ms = 0 ∧ timeoutNs > 0 then 1 else ms

/-- `wait_for` on Darwin: `timeout_us`. -/
def darwinTimeout (timeoutNs : U64) : U32 :=
  let timeoutUs := (timeoutNs / 1000).setWidth 32
  if timeoutUs = 0 ∧ timeoutNs > 0 then 1 else timeoutUs

/-- The time that a `timespec` stands for, in nanoseconds. -/
def Timespec.nanos (ts : Timespec) : ℤ := ts.tvSec.toInt * 1000000000 + ts.tvNsec.toInt

structure LinuxFaithful (timeoutNs : U64) : Prop where
  nonneg : 0 ≤ (linuxTimeout timeoutNs).tvNsec.toInt
  lt : (linuxTimeout timeoutNs).tvNsec.toInt < 1000000000
  exact : (linuxTimeout timeoutNs).nanos = timeoutNs.toNat

/-- `sent` units of `unit` nanoseconds are `timeoutNs` to within one unit, or the largest finite value
`last` where `timeoutNs` is beyond it. -/
def Expresses (unit last sent timeoutNs : ℕ) : Prop :=
  (timeoutNs ≤ sent * unit + unit ∧ sent * unit ≤ timeoutNs + unit) ∨
    (last * unit ≤ timeoutNs ∧ sent = last)

structure WindowsFaithful (timeoutNs : U64) : Prop where
  finite : windowsTimeout timeoutNs ≠ INFINITE
  expresses : Expresses 1000000 0xFFFFFFFE (windowsTimeout timeoutNs).toNat timeoutNs.toNat

structure DarwinFaithful (timeoutNs : U64) : Prop where
  finite : darwinTimeout timeoutNs ≠ 0
  expresses : Expresses 1000 0xFFFFFFFF (darwinTimeout timeoutNs).toNat timeoutNs.toNat

theorem linux_faithful (timeoutNs : U64) : LinuxFaithful timeoutNs := by
  have hlt := timeoutNs.isLt
  have hsec : (linuxTimeout timeoutNs).tvSec.toNat = timeoutNs.toNat / 1000000000 := BitVec.toNat_udiv
  have hnsec : (linuxTimeout timeoutNs).tvNsec.toNat = timeoutNs.toNat % 1000000000 := BitVec.toNat_umod
  have hsecInt := BitVec.toInt_eq_toNat_of_lt (x := (linuxTimeout timeoutNs).tvSec) (by omega)
  have hnsecInt := BitVec.toInt_eq_toNat_of_lt (x := (linuxTimeout timeoutNs).tvNsec) (by omega)
  constructor
  · omega
  · omega
  · rw [Timespec.nanos, hsecInt, hnsecInt]
    omega

/-- A count of units that is cut down to 32 bits, with 0 replaced by 1 unless the timeout is 0. -/
theorem toNat_atLeastOne (timeoutNs q : U64) :
    (if q.setWidth 32 = 0 ∧ timeoutNs > 0 then 1 else q.setWidth 32 : U32).toNat =
      if q.toNat % 2 ^ 32 = 0 ∧ 0 < timeoutNs.toNat then 1 else q.toNat % 2 ^ 32 := by
  have hzero : q.setWidth 32 = 0 ↔ q.toNat % 2 ^ 32 = 0 := by
    rw [← BitVec.toNat_inj, BitVec.toNat_setWidth]
    rfl
  have hpos : timeoutNs > 0 ↔ 0 < timeoutNs.toNat := Iff.rfl
  simp only [hzero, hpos]
  split_ifs
  · rfl
  · exact BitVec.toNat_setWidth ..

theorem windows_faithful_iff (timeoutNs : U64) : WindowsFaithful timeoutNs ↔
    timeoutNs.toNat ≤ 0xFFFFFFFE * 1000000 ∨ timeoutNs.toNat + 999999 < 2 ^ 64 ∧
      (timeoutNs.toNat + 999999) / 1000000 % 2 ^ 32 = 0xFFFFFFFE := by
  have hlt := timeoutNs.isLt
  have hms : (windowsTimeout timeoutNs).toNat = _ := toNat_atLeastOne ..
  rw [BitVec.toNat_udiv, BitVec.toNat_add, show (999999 : U64).toNat = 999999 from rfl,
    show (1000000 : U64).toNat = 1000000 from rfl] at hms
  have hfinite : windowsTimeout timeoutNs ≠ INFINITE ↔ (windowsTimeout timeoutNs).toNat ≠ 0xFFFFFFFF := by
    rw [ne_eq, ← BitVec.toNat_inj]
    rfl
  have hiff : WindowsFaithful timeoutNs ↔ (windowsTimeout timeoutNs).toNat ≠ 0xFFFFFFFF ∧
      Expresses 1000000 0xFFFFFFFE (windowsTimeout timeoutNs).toNat timeoutNs.toNat :=
    ⟨fun h => ⟨hfinite.mp h.finite, h.expresses⟩, fun h => ⟨hfinite.mpr h.1, h.2⟩⟩
  rw [hiff, Expresses]
  -- the rounding addition wraps around only for the last 999999 timeouts, and leaves less than one unit
  rcases lt_or_ge (timeoutNs.toNat + 999999) (2 ^ 64) with hwrap | hwrap
  · rw [Nat.mod_eq_of_lt hwrap] at hms
    split_ifs at hms <;> omega
  · have hzero : (timeoutNs.toNat + 999999) % 2 ^ 64 / 1000000 % 2 ^ 32 = 0 := by omega
    rw [if_pos ⟨hzero, by omega⟩] at hms
    omega

theorem darwin_faithful_iff (timeoutNs : U64) : DarwinFaithful timeoutNs ↔
    0 < timeoutNs.toNat ∧ (timeoutNs.toNat < 2 ^ 32 * 1000 ∨
      timeoutNs.toNat / 1000 % 2 ^ 32 = 0xFFFFFFFF) := by
  have hlt := timeoutNs.isLt
  have hus : (darwinTimeout timeoutNs).toNat = _ := toNat_atLeastOne ..
  rw [BitVec.toNat_udiv, show (1000 : U64).toNat = 1000 from rfl] at hus
  have hfinite : darwinTimeout timeoutNs ≠ 0 ↔ (darwinTimeout timeoutNs).toNat ≠ 0 := by
    rw [ne_eq, ← BitVec.toNat_inj]
    rfl
  have hiff : DarwinFaithful timeoutNs ↔ (darwinTimeout timeoutNs).toNat ≠ 0 ∧
      Expresses 1000 0xFFFFFFFF (darwinTimeout timeoutNs).toNat timeoutNs.toNat :=
    ⟨fun h => ⟨hfinite.mp h.finite, h.expresses⟩, fun h => ⟨hfinite.mpr h.1, h.2⟩⟩
  rw [hiff, Expresses]
  split_ifs at hus <;> omega

/-- The timeout is faithful on Linux, and exactly in these cases on Windows and on Darwin. -/
theorem timeout_faithful (timeoutNs : U64) : LinuxFaithful timeoutNs ∧
    (WindowsFaithful timeoutNs ↔
      timeoutNs.toNat ≤ 0xFFFFFFFE * 1000000 ∨ timeoutNs.toNat + 999999 < 2 ^ 64 ∧
        (timeoutNs.toNat + 999999) / 1000000 % 2 ^ 32 = 0xFFFFFFFE) ∧
    (DarwinFaithful timeoutNs ↔
      0 < timeoutNs.toNat ∧ (timeoutNs.toNat < 2 ^ 32 * 1000 ∨
        timeoutNs.toNat / 1000 % 2 ^ 32 = 0xFFFFFFFF)) :=
  ⟨linux_faithful timeoutNs, windows_faithful_iff timeoutNs, darwin_faithful_iff timeoutNs⟩

/-- On Windows 2 ^ 32 - 1 milliseconds become `INFINITE` and 2 ^ 32 milliseconds become one; on Darwin 0
becomes 0, and 2 ^ 32 microseconds become one. -/
theorem timeout_unfaithful :
    windowsTimeout 4294967295000000 = INFINITE ∧ windowsTimeout 4294967296000000 = 1 ∧
    ¬ WindowsFaithful 4294967296000000 ∧ darwinTimeout 0 = 0 ∧ darwinTimeout 4294967296000 = 1 ∧
    ¬ DarwinFaithful 4294967296000 := by
  refine ⟨by decide, by decide, fun h => ?_, by decide, by decide, fun h => ?_⟩
  · rcases h.expresses with h | h <;> revert h <;> decide
  · rcases h.expresses with h | h <;> revert h <;> decide

end Psync.futex
