import Psync.MpscEnd
import Psync.MpscFifo
import Mathlib.Order.Interval.Finset.Nat

/-! The size counter. `size_approx_` is updated after the slot has been published or recycled, so it
counts what waits in the queue, less the items whose producers have yet to count them, plus the item
that the consumer has yet to count off. It leaves the bounds of the queue when the consumer counts off an
item before the queue has been counted up that far, and when the last producer counts a full queue up
before the consumer has counted off the item it has taken. -/

namespace Psync.MPSCQueue

open Concurrency MachineWord

set_option linter.unusedSectionVars false

variable {V Tid : Type*} [DecidableEq Tid] {k n n' : ℕ} {consumer t : Tid} {m m' : Mem V}
  {f : Tid → Pc V} {h h' : History V Tid} {pc pc' : Pc V} {c : Push V} {head : U64}

/-- The items published and not yet popped. -/
def History.waiting (h : History V Tid) : Finset ℕ :=
  (Finset.range h.claimed.length).filter fun p => h.popped.length ≤ p ∧ (h.phase p).ready = true

/-- The producer has published its item and not yet counted it. -/
def Pc.uncounted : Pc V → Bool
  | .pushSize _ => true
  | _ => false

/-- The consumer has popped an item and not yet counted it off. -/
def Pc.undiscounted : Pc V → Bool
  | .popRecycle .. | .popSize .. => true
  | _ => false

/-- What a step does to the counter and to the number of items that wait. -/
inductive SizeStep (m : Mem V) (n : ℕ) : Pc V → Mem V → ℕ → Pc V → Prop
  | publish {m' : Mem V} {c : Push V} {head : U64} (hsize : m'.sizeApprox = m.sizeApprox) :
      SizeStep m n (.pushPublish c head) m' (n + 1) (.pushSize c)
  | count {c : Push V} : SizeStep m n (.pushSize c)
      { m with sizeApprox := m.sizeApprox + 1 } n (.pushed c true none)
  | pop {m' : Mem V} {n' : ℕ} {mode : PopMode} {tail : U64} {result : Option V}
      (hsize : m'.sizeApprox = m.sizeApprox) (hn : n = n' + 1) :
      SizeStep m n (.popData mode tail) m' n' (.popRecycle mode tail result)
  | discount {mode : PopMode} {result : Option V} : SizeStep m n (.popSize mode result)
      { m with sizeApprox := m.sizeApprox - 1 } n (.popped mode (some result))
  | other {m' : Mem V} {pc pc' : Pc V} (hsize : m'.sizeApprox = m.sizeApprox)
      (hcounted : pc.uncounted = false) (hcounted' : pc'.uncounted = false)
      (hdiscounted : pc'.undiscounted = pc.undiscounted) (hpc : ∀ mode result, pc ≠ .popSize mode result) :
      SizeStep m n pc m' n pc'

/-! ### The items that wait -/

theorem waiting_claim (h : History V Tid) (t : Tid) (value : V) :
    (h.claim t value).waiting = h.waiting := by
  ext p
  simp only [History.waiting, Finset.mem_filter, Finset.mem_range, History.claim_claimed,
    List.length_append, List.length_singleton, History.claim_popped, History.claim_phase,
    Function.update_apply]
  split_ifs with hp
  · simp [hp, Phase.ready]
  · exact and_congr_left fun _ => by omega

theorem waiting_mark {ph : Phase} (hready : ph.ready = (h.phase (h.position t)).ready) :
    (h.mark t ph).waiting = h.waiting := by
  ext p
  simp only [History.waiting, Finset.mem_filter, Finset.mem_range, History.mark_claimed,
    History.mark_popped, History.mark_phase, Function.update_apply]
  split_ifs with hp
  · rw [hp, hready]
  · rfl

theorem waiting_publish (h' : Inv k consumer m f h) (hh : Holds h t c head .accepted) :
    (h.mark t .published).waiting.card = h.waiting.card + 1 := by
  have hout : h.position t ∉ h.waiting := by
    intro hin
    have hready := (Finset.mem_filter.mp hin).2.2
    rw [hh.phase] at hready
    cases hready
  have hwindow := h'.in_window hh.lt (by rw [hh.phase]; rfl)
  have hpopped := h'.popped_length
  have htaken := taken_le (f consumer)
  rw [← Finset.card_insert_of_notMem hout]
  congr 1
  ext p
  simp only [History.waiting, Finset.mem_filter, Finset.mem_range, Finset.mem_insert,
    History.mark_claimed, History.mark_popped, History.mark_phase, Function.update_apply]
  split_ifs with hp
  · have hlt := hh.lt
    exact iff_of_true ⟨by omega, by omega, rfl⟩ (Or.inl hp)
  · simp [hp]

theorem waiting_pop (h' : Inv k consumer m f h) {mode : PopMode} {tail : U64}
    (hpc : f consumer = .popData mode tail) (item : Option V) :
    h.waiting.card = { h with popped := h.popped ++ [item] }.waiting.card + 1 := by
  have hpopped := h'.popped_length
  rw [hpc] at hpopped
  have hready := h'.ready h.recycled (by rw [hpc]; exact Nat.lt_succ_self _)
  have hlt := h'.claimed_of_ready hready
  have hout : h.recycled ∉ { h with popped := h.popped ++ [item] }.waiting := by
    intro hin
    have hle := (Finset.mem_filter.mp hin).2.1
    simp only [List.length_append, List.length_singleton, hpopped, Pc.taken] at hle
    omega
  rw [← Finset.card_insert_of_notMem hout]
  congr 1
  ext p
  simp only [History.waiting, Finset.mem_filter, Finset.mem_range, Finset.mem_insert,
    List.length_append, List.length_singleton, hpopped, Pc.taken]
  by_cases hp : p = h.recycled
  · simp [hp, hready, hlt]
  · simp only [hp, false_or]
    exact and_congr_right fun _ => and_congr_left fun _ => by omega

/-! ### Steps -/

/-- The answer of a call leaves the items that wait. -/
theorem waiting_step {l : Label V} {isConsumer : Bool} (h' : Inv k consumer m f h)
    (hstep : step (ringMask k) isConsumer l m (f t) = some (m', pc')) :
    (h.step (ringMask k) t l m (f t) pc').waiting = (h.act (ringMask k) t l m (f t)).waiting := by
  have howns := h'.owns t
  generalize f t = pc at hstep howns
  rcases History.step_cases hstep h t with ⟨c, rfl, heq⟩ | ⟨mode, item, rfl, heq⟩ | heq
  · obtain ⟨head, hh⟩ := howns
    rw [heq, waiting_mark (by rw [hh.phase]; rfl)]
    cases l <;> rfl
  · rw [heq]
    cases l <;> rfl
  · rw [heq]

theorem sizeStep_of_run (h' : Inv k consumer m f h) (hrun : run (ringMask k) m (f t) = some (m', pc')) :
    SizeStep m h.waiting.card (f t) m' (h.act (ringMask k) t .run m (f t)).waiting.card pc' := by
  have howns := h'.owns t
  have hsolo := h'.solo t
  generalize hpc : f t = pc at hrun howns hsolo
  cases pc with
  | idle => cases hrun
  | pushCheck c | pushSeq c head | pushed c result value | popSeq mode | popped mode result =>
      rw [run, Option.some.injEq] at hrun
      split_ifs at hrun <;> cases hrun <;> exact .other rfl rfl rfl rfl fun _ _ h => by cases h
  | pushCas c head =>
      rw [run, Option.some.injEq] at hrun
      rw [History.act]
      split_ifs at hrun with hwin
      · cases hrun
        rw [if_pos hwin, waiting_claim]
        exact .other rfl rfl rfl rfl fun _ _ h => by cases h
      · cases hrun
        rw [if_neg hwin]
        exact .other rfl rfl rfl rfl fun _ _ h => by cases h
  | pushClosed c head =>
      rw [run, Option.some.injEq, Prod.mk.injEq] at hrun
      obtain ⟨rfl, rfl⟩ := hrun
      rw [History.act, waiting_mark]
      · split_ifs <;> exact .other rfl rfl rfl rfl fun _ _ h => by cases h
      · rw [howns.phase]
        split_ifs <;> rfl
  | pushPublish c head =>
      cases hrun
      rw [History.act, waiting_publish h' howns.1]
      exact .publish rfl
  | pushSize c =>
      cases hrun
      exact .count
  | popData mode tail =>
      cases hrun
      obtain rfl := hsolo rfl
      exact .pop rfl (waiting_pop h' hpc _)
  | popSize mode result =>
      cases hrun
      exact .discount
  | _ =>
      cases hrun
      exact .other rfl rfl rfl rfl fun _ _ h => by cases h

theorem sizeStep_of_step {l : Label V} {isConsumer : Bool} (h' : Inv k consumer m f h)
    (hstep : step (ringMask k) isConsumer l m (f t) = some (m', pc')) :
    SizeStep m h.waiting.card (f t) m' (h.step (ringMask k) t l m (f t) pc').waiting.card pc' := by
  rw [waiting_step h' hstep]
  have hstart : ∀ {first : Pc V}, start m first (f t) = some (m', pc') → first.uncounted = false →
      first.undiscounted = false → SizeStep m h.waiting.card (f t) m' h.waiting.card pc' := by
    intro first hs hcounted hdiscounted
    generalize f t = pc at hs
    cases pc <;> cases hs
    exact .other rfl rfl hcounted hdiscounted fun _ _ h => by cases h
  cases l with
  | tryPush value => exact hstart hstep rfl rfl
  | pushBlocking value => exact hstart hstep rfl rfl
  | tryPop =>
      simp only [step] at hstep
      split_ifs at hstep
      exact hstart hstep rfl rfl
  | popBlocking =>
      simp only [step] at hstep
      split_ifs at hstep
      exact hstart hstep rfl rfl
  | close => exact hstart hstep rfl rfl
  | run => exact sizeStep_of_run h' hstep
  | spurious =>
      rw [step] at hstep
      change SizeStep m h.waiting.card (f t) m' h.waiting.card pc'
      generalize f t = pc at hstep
      cases pc <;> cases hstep
      exact .other rfl rfl rfl rfl fun _ _ h => by cases h

/-! ### The counter

`n` items wait, `u` of the pushes have not counted theirs, and `d` pops have not counted theirs off. -/

variable {u u' d d' cap : ℕ} {size : U64}

/-- The counter, as a whole number, lies within the bounds of the queue. -/
def InRange (cap n u d : ℕ) : Prop := u ≤ n + d ∧ n + d ≤ cap + u

/-- The next step does not take the counter out of its bounds. -/
def InTurn (cap n u d : ℕ) : Pc V → Prop
  | .pushSize _ => ¬ (n = cap ∧ d = 1 ∧ u = 1)
  | .popSize .. => u ≤ n
  | _ => True

theorem SizeStep.balance (hstep : SizeStep m n pc m' n' pc')
    (hu : u' + pc.uncounted.toNat = u + pc'.uncounted.toNat)
    (hd : d' + pc.undiscounted.toNat = d + pc'.undiscounted.toNat)
    (h : m.sizeApprox + BitVec.ofNat 64 u = BitVec.ofNat 64 (n + d)) :
    m'.sizeApprox + BitVec.ofNat 64 u' = BitVec.ofNat 64 (n' + d') := by
  cases hstep with
  | publish hsize =>
      obtain rfl : u' = u + 1 := hu
      obtain rfl : d' = d := hd
      rw [hsize, Nat.add_right_comm n 1, ofNat_succ u, ofNat_succ (n + d'), ← h, BitVec.add_assoc]
  | count =>
      obtain rfl : u = u' + 1 := hu.symm
      obtain rfl : d' = d := hd
      rw [← h, ofNat_succ u', BitVec.add_assoc, BitVec.add_comm 1]
      rfl
  | pop hsize hn =>
      obtain rfl : u' = u := hu
      obtain rfl : d' = d + 1 := hd
      rw [hsize, h, hn, Nat.add_right_comm, Nat.add_assoc]
  | discount =>
      obtain rfl : u' = u := hu
      obtain rfl : d = d' + 1 := hd.symm
      rw [← Nat.add_assoc, ofNat_succ] at h
      rw [BitVec.sub_add_comm, h]
      exact BitVec.add_sub_cancel _ _
  | other hsize hcounted hcounted' hdiscounted hpc =>
      rw [hcounted, hcounted'] at hu
      rw [hdiscounted] at hd
      obtain rfl : u' = u := hu
      obtain rfl : d' = d := by omega
      rw [hsize, h]

theorem SizeStep.inRange_iff (hstep : SizeStep m n pc m' n' pc')
    (hu : u' + pc.uncounted.toNat = u + pc'.uncounted.toNat)
    (hd : d' + pc.undiscounted.toNat = d + pc'.undiscounted.toNat) (hn : n ≤ cap) (hone : d ≤ 1)
    (h : InRange cap n u d) : (InRange cap n' u' d' ↔ InTurn cap n u d pc) ∧
      u' ≤ n' + d' + 1 ∧ n' + d' ≤ cap + u' + 1 := by
  obtain ⟨hlo, hhi⟩ := h
  unfold InRange
  cases hstep with
  | publish hsize =>
      obtain rfl : u' = u + 1 := hu
      obtain rfl : d' = d := hd
      exact ⟨iff_of_true ⟨by omega, by omega⟩ trivial, by omega, by omega⟩
  | count =>
      obtain rfl : u = u' + 1 := hu.symm
      obtain rfl : d' = d := hd
      unfold InTurn
      omega
  | pop hsize hn =>
      obtain rfl : u' = u := hu
      obtain rfl : d' = d + 1 := hd
      exact ⟨iff_of_true ⟨by omega, by omega⟩ trivial, by omega, by omega⟩
  | discount =>
      obtain rfl : u' = u := hu
      obtain rfl : d = d' + 1 := hd.symm
      unfold InTurn
      omega
  | other hsize hcounted hcounted' hdiscounted hpc =>
      rw [hcounted, hcounted'] at hu
      rw [hdiscounted] at hd
      obtain rfl : u' = u := hu
      obtain rfl : d' = d := by omega
      refine ⟨iff_of_true ⟨hlo, hhi⟩ ?_, by omega, by omega⟩
      cases pc with
      | pushSize => cases hcounted
      | popSize mode result => exact absurd rfl (hpc mode result)
      | _ => trivial

/-- Within one of its bounds, the counter tells whether it is in range. -/
theorem le_iff_inRange (h : size + BitVec.ofNat 64 u = BitVec.ofNat 64 (n + d)) (hcap : cap ≤ 2 ^ 63)
    (hlo : u ≤ n + d + 1) (hhi : n + d ≤ cap + u + 1) : size.toNat ≤ cap ↔ InRange cap n u d := by
  have hnat := congrArg BitVec.toNat h
  rw [BitVec.toNat_add, BitVec.toNat_ofNat, BitVec.toNat_ofNat] at hnat
  have hlt := size.isLt
  unfold InRange
  omega

/-! ### Runs -/

theorem Inv.waiting_le (h' : Inv k consumer m f h) : h.waiting.card ≤ 2 ^ k := by
  have hsub : h.waiting ⊆ Finset.Ico h.recycled h.claimed.length := by
    intro p hp
    obtain ⟨hlt, hle, -⟩ := Finset.mem_filter.mp hp
    have hpopped := h'.popped_length
    exact Finset.mem_Ico.mpr ⟨by omega, Finset.mem_range.mp hlt⟩
  have hcard := Finset.card_le_card hsub
  rw [Nat.card_Ico] at hcard
  have hwindow := h'.window
  have hpos := Nat.two_pow_pos k
  omega

variable [Fintype Tid] {capacity : U64} {s s' : State V Tid × History V Tid} {a : Act Tid (Label V)}

theorem Inv.undiscounted_le (h' : Inv k consumer m f h) : count Pc.undiscounted f ≤ 1 := by
  have hpopping : ∀ t, (f t).undiscounted = true → t = consumer := by
    intro t ht
    refine h'.solo t ?_
    generalize f t = pc at ht
    cases pc <;> first | rfl | cases ht
  exact count_le_one fun t u ht hu => (hpopping t ht).trans (hpopping u hu).symm

/-- The counter of the queue constructed with `capacity`. -/
def SizeInRange (capacity : U64) (s : State V Tid × History V Tid) : Prop :=
  InRange (2 ^ ringBits capacity) s.2.waiting.card (count Pc.uncounted s.1.thread)
    (count Pc.undiscounted s.1.thread)

/-- No item is counted off before the queue has been counted up that far, and a full queue is not counted
up before the item taken last has been counted off. -/
def inTurn (capacity : U64) : StepCond (State V Tid × History V Tid) (Act Tid (Label V)) :=
  fun s a _ => match a with
    | .step t _ => InTurn (2 ^ ringBits capacity) s.2.waiting.card (count Pc.uncounted s.1.thread)
        (count Pc.undiscounted s.1.thread) (s.1.thread t)
    | _ => True

structure Measured (capacity : U64) (consumer : Tid) (s : State V Tid × History V Tid) : Prop where
  sound : Sound capacity consumer s
  balance : s.1.mem.sizeApprox + BitVec.ofNat 64 (count Pc.uncounted s.1.thread) =
    BitVec.ofNat 64 (s.2.waiting.card + count Pc.undiscounted s.1.thread)
  inRange : SizeInRange capacity s

theorem Measured.le (hs : Measured capacity consumer s) (hcap : capacity.toNat ≤ 2 ^ 63) :
    s.1.mem.sizeApprox.toNat ≤ 2 ^ ringBits capacity := by
  have hk : 2 ^ ringBits capacity ≤ 2 ^ 63 :=
    Nat.pow_le_pow_right (by omega) (ringBits_le (by omega) hcap)
  have hrange := hs.inRange
  exact (le_iff_inRange hs.balance hk (by have := hrange.1; omega) (by have := hrange.2; omega)).mpr hrange

/-- A step leaves the counter in its bounds if and only if it is in turn. -/
theorem Measured.next (hs : Measured capacity consumer s) (hcap : capacity.toNat ≤ 2 ^ 63)
    (hnext : (observed V capacity consumer).next s a = some s') (hok : claimsFree capacity s a s') :
    (s'.1.mem.sizeApprox.toNat ≤ 2 ^ ringBits capacity ↔ inTurn capacity s a s') ∧
      (inTurn capacity s a s' → Measured capacity consumer s') := by
  have hk : 2 ^ ringBits capacity ≤ 2 ^ 63 :=
    Nat.pow_le_pow_right (by omega) (ringBits_le (by omega) hcap)
  have hsound' := hs.sound.next hcap hnext hok
  obtain ⟨t, l, m, pc, rfl, hstep, hmove, hhistory⟩ := observed_next hnext
  rw [maskOf_eq] at hstep hhistory
  have hsize := sizeStep_of_step hs.sound hstep
  have hu := count_update (p := Pc.uncounted) (f := s.1.thread) t pc
  have hd := count_update (p := Pc.undiscounted) (f := s.1.thread) t pc
  have hbalance := hsize.balance hu hd hs.balance
  obtain ⟨hiff, hlo, hhi⟩ :=
    hsize.inRange_iff hu hd hs.sound.waiting_le hs.sound.undiscounted_le hs.inRange
  have hle := le_iff_inRange hbalance hk hlo hhi
  obtain ⟨c, h⟩ := s'
  obtain rfl : c = _ := hmove
  obtain rfl : h = _ := hhistory
  exact ⟨hle.trans hiff, fun hturn => ⟨hsound', hbalance, hiff.mpr hturn⟩⟩

/-- Whenever no call is in progress, everything has been counted. -/
theorem uncounted_of_idle (hidle : ∀ t, s.1.thread t = .idle) :
    count Pc.uncounted s.1.thread = 0 ∧ count Pc.undiscounted s.1.thread = 0 :=
  ⟨count_eq_zero.mpr fun t => by rw [hidle t]; rfl, count_eq_zero.mpr fun t => by rw [hidle t]; rfl⟩

theorem measured_of_reachable (hcap : capacity.toNat ≤ 2 ^ 63)
    (hreach : (observed V capacity consumer).Reachable
      (fun s a s' => claimsFree capacity s a s' ∧ inTurn capacity s a s') s) :
    Measured capacity consumer s := by
  refine hreach.induct (I := Measured capacity consumer) ?_ fun _ ih hnext hok =>
    (ih.next hcap hnext hok.1).2 hok.2
  have hu := uncounted_of_idle (s := (observed V capacity consumer).init) fun _ => rfl
  refine ⟨.init hcap, ?_, ?_⟩
  · rw [hu.1, hu.2]
    rfl
  · rw [SizeInRange, hu.1, hu.2]
    exact ⟨Nat.zero_le _, Nat.zero_le _⟩

/-- The size that a caller reads. -/
structure SizeBounded (capacity : U64) (consumer : Tid) (s : State V Tid × History V Tid) : Prop where
  le : s.1.mem.sizeApprox ≤ MPSCQueue.capacity (maskOf capacity)
  /-- Whenever no call is in progress, the size is the number of items published and not yet popped. -/
  exact : (∀ t, s.1.thread t = .idle) → s.1.mem.sizeApprox.toNat = s.2.waiting.card
  /-- The next step keeps the bound if and only if it is in turn. -/
  next_iff : ∀ a s', (observed V capacity consumer).next s a = some s' → claimsFree capacity s a s' →
    (s'.1.mem.sizeApprox ≤ MPSCQueue.capacity (maskOf capacity) ↔ inTurn capacity s a s')

/-- While every item is counted and counted off in turn, the size stays within the bounds of the queue. -/
theorem size_stays_bounded (hcap : capacity.toNat ≤ 2 ^ 63)
    (hreach : (observed V capacity consumer).Reachable
      (fun s a s' => claimsFree capacity s a s' ∧ inTurn capacity s a s') s) :
    SizeBounded capacity consumer s := by
  have hs := measured_of_reachable hcap hreach
  have hcapacity := capacity_toNat capacity hcap
  refine ⟨?_, fun hidle => ?_, fun a s' hnext hok => ?_⟩
  · rw [BitVec.le_def, hcapacity]
    exact hs.le hcap
  · obtain ⟨hu, hd⟩ := uncounted_of_idle hidle
    have hbalance := hs.balance
    rw [hu, hd, BitVec.add_zero] at hbalance
    have hk : 2 ^ ringBits capacity ≤ 2 ^ 63 :=
      Nat.pow_le_pow_right (by omega) (ringBits_le (by omega) hcap)
    have hwaiting := hs.sound.waiting_le
    rw [hbalance, BitVec.toNat_ofNat, Nat.mod_eq_of_lt (by omega), Nat.add_zero]
  · rw [BitVec.le_def, hcapacity]
    exact (hs.next hcap hnext hok).1

/-! ### Examples -/

instance (cap n u d : ℕ) (pc : Pc V) : Decidable (InTurn cap n u d pc) :=
  match pc with
  | .pushSize _ => inferInstanceAs (Decidable (¬ (n = cap ∧ d = 1 ∧ u = 1)))
  | .popSize .. => inferInstanceAs (Decidable (u ≤ n))
  | .idle | .pushCheck _ | .pushHead _ | .pushSeq .. | .pushCas .. | .pushClosed .. | .pushRevert ..
  | .pushData .. | .pushPublish .. | .pushed .. | .popSeq _ | .popData .. | .popRecycle .. | .popped ..
  | .popClosed | .close => .isTrue trivial

instance (capacity : U64) (s : State V Tid × History V Tid) (a : Act Tid (Label V))
    (s' : State V Tid × History V Tid) : Decidable (inTurn capacity s a s') :=
  match a with
  | .step t _ => inferInstanceAs (Decidable (InTurn _ _ _ _ (s.1.thread t)))
  | .sleep _ | .ret _ | .wake .. | .requeue .. => .isTrue trivial

/-- Thread `a` pushes 7 and 8. -/
def fillRun : List (Act Runner (Label ℕ)) :=
  .step .a (.tryPush 7) :: List.replicate 8 (.step .a .run) ++
    .step .a (.tryPush 8) :: List.replicate 8 (.step .a .run)

theorem size_stays_bounded_full : ∃ s : State ℕ Runner × History ℕ Runner,
    s.1.mem.sizeApprox = 2 ∧ SizeBounded 2 Runner.b s := by
  let M := observed ℕ 2 Runner.b
  let ok : StepCond (State ℕ Runner × History ℕ Runner) (Act Runner (Label ℕ)) :=
    fun s a s' => claimsFree 2 s a s' ∧ inTurn 2 s a s'
  exact ⟨(M.run ok M.init fillRun).get (by decide +kernel), by decide +kernel,
    size_stays_bounded (by decide) (Machine.Reachable.of_run (M := M) fillRun _)⟩

/-- Thread `a` has published 7 and not counted it when thread `b` pops it. -/
def earlyPopRun : List (Act Runner (Label ℕ)) :=
  .step .a (.tryPush 7) :: List.replicate 6 (.step .a .run) ++
    .step .b .tryPop :: List.replicate 4 (.step .b .run)

/-- Thread `b` has popped 7 from a full queue and not counted it off when thread `a` pushes 9. -/
def overfullRun : List (Act Runner (Label ℕ)) :=
  fillRun ++ .step .b .tryPop :: List.replicate 3 (.step .b .run) ++
    .step .a (.tryPush 9) :: List.replicate 7 (.step .a .run)

/-- The size wraps around below zero, and it exceeds the capacity. -/
theorem size_out_of_bounds : ∃ s s' : State ℕ Runner × History ℕ Runner,
    (observed ℕ 2 Runner.b).Reachable anyStep s ∧ s.1.mem.sizeApprox.toNat = 2 ^ 64 - 1 ∧
    (observed ℕ 2 Runner.b).Reachable anyStep s' ∧ s'.1.mem.sizeApprox = 3 ∧
    MPSCQueue.capacity (maskOf 2) = 2 := by
  let M := observed ℕ 2 Runner.b
  exact ⟨(M.run anyStep M.init earlyPopRun).get (by decide +kernel),
    (M.run anyStep M.init overfullRun).get (by decide +kernel), Machine.Reachable.of_run (M := M) earlyPopRun _,
    by decide +kernel, Machine.Reachable.of_run (M := M) overfullRun _, by decide +kernel, by decide +kernel⟩

end Psync.MPSCQueue
