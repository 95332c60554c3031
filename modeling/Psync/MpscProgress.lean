import Psync.MpscFifo

/-! `try_push` is lock-free, also on a queue that is being closed. A producer is sent back only when the CAS of
another one has moved `head_`, or when its own weak CAS fails without cause: a sequence number ahead of its
copy of `head_` shows that the copy is old. Each time costs it two steps. -/

namespace Psync.MPSCQueue

open Concurrency MachineWord

set_option linter.unusedSectionVars false

variable {V Tid : Type*} [DecidableEq Tid] {k : ℕ} {consumer t : Tid} {m m' : Mem V}
  {f : Tid → Pc V} {h h' : History V Tid} {pc pc' : Pc V} {c : Push V} {head : U64} {l : Label V}

/-! ### What a producer pays for -/

/-- Since the `try_push` of a thread began: its steps, the weak CASes of its own that failed without cause, and
the CASes of other threads that succeeded. -/
structure Attempt where
  steps : ℕ
  spurious : ℕ
  rivals : ℕ
  deriving DecidableEq

def Attempt.init : Attempt := ⟨0, 0, 0⟩

def Attempt.budget (a : Attempt) : ℕ := 2 * (a.rivals + a.spurious)

/-- A step of the thread itself. `push_blocking` begins a `try_push` when it has found the queue open. -/
def Attempt.step (l : Label V) (pc : Pc V) (a : Attempt) : Attempt :=
  match l, pc with
  | .run, .pushCheck _ => .init
  | .run, _ => { a with steps := a.steps + 1 }
  | .spurious, _ => { a with steps := a.steps + 1, spurious := a.spurious + 1 }
  | _, _ => .init

/-- A step of another thread. -/
def Attempt.rival (won : Prop) [Decidable won] (a : Attempt) : Attempt :=
  if won then { a with rivals := a.rivals + 1 } else a

/-- The step is a CAS that succeeds. -/
def Wins (l : Label V) (m : Mem V) (pc : Pc V) : Prop :=
  match l, pc with
  | .run, .pushCas _ head => m.head = head
  | _, _ => False

instance (l : Label V) (m : Mem V) (pc : Pc V) : Decidable (Wins l m pc) := by
  unfold Wins
  split <;> infer_instance

def recordTries (tries : Tid → Attempt) (s : State V Tid × History V Tid) (a : Act Tid (Label V))
    (_ : State V Tid × History V Tid) : Tid → Attempt :=
  match a with
  | .step t l => fun u =>
      if u = t then (tries u).step l (s.1.thread t) else (tries u).rival (Wins l s.1.mem (s.1.thread t))
  | _ => tries

/-- The runs of the queue with the history and the attempts of the threads. -/
def tried (V : Type*) {Tid : Type*} [Fintype Tid] [DecidableEq Tid] (capacity : U64) (consumer : Tid) :
    Machine ((State V Tid × History V Tid) × (Tid → Attempt)) (Act Tid (Label V)) :=
  (observed V capacity consumer).observe (fun _ => .init) recordTries

/-- Fewer than `2 ^ 62` positions are claimed. -/
def fewClaims : StepCond ((State V Tid × History V Tid) × (Tid → Attempt)) (Act Tid (Label V)) :=
  fun _ _ x => x.1.2.claimed.length < 2 ^ 62

instance (x : (State V Tid × History V Tid) × (Tid → Attempt)) (a : Act Tid (Label V))
    (x' : (State V Tid × History V Tid) × (Tid → Attempt)) : Decidable (fewClaims x a x') :=
  inferInstanceAs (Decidable (x'.1.2.claimed.length < 2 ^ 62))

/-- The most steps that lead to a position inside `try_push` without being sent back. -/
def Pc.steps : Pc V → Option ℕ
  | .pushHead _ => some 0
  | .pushSeq .. => some 1
  | .pushCas .. => some 2
  | .pushClosed .. => some 3
  | .pushRevert .. | .pushData .. => some 4
  | .pushPublish .. => some 5
  | .pushSize _ => some 6
  | .pushed .. => some 7
  | _ => none

/-- The copy of `head_` with which a producer is going to try. -/
def Pc.copy : Pc V → Option U64
  | .pushSeq _ head | .pushCas _ head => some head
  | _ => none

/-- A producer has paid for all its steps, and for two more when its copy of `head_` is old. -/
def Paid (m : Mem V) (a : Attempt) (pc : Pc V) : Prop :=
  ∀ n ∈ pc.steps, a.steps ≤ a.budget + n ∧ ∀ head ∈ pc.copy, m.head ≠ head → a.steps + 2 ≤ a.budget + n

/-! ### One step -/

/-- The sequence of the slot at `head_` is not ahead of it. -/
theorem Inv.not_ahead (h' : Inv k consumer m f h) (hpos : 1 ≤ k) (hk : k ≤ 62)
    (hbound : h.claimed.length < 2 ^ 62) : ¬ 0 < diff (m.slot (ringMask k) m.head).sequence m.head := by
  have hslot : m.slot (ringMask k) m.head = m.buffer (cell 64 k h.claimed.length) := by
    rw [h'.head]
    rfl
  have htaking := h'.taking_le
  rcases h'.window.lt_or_eq with hlt | hfull
  · -- a slot of this lap that nobody has claimed
    rw [hslot, h'.sequence _ (by omega) hlt, (h'.fresh _).mpr le_rfl, h'.head, diff]
    simp [Phase.ready]
  · -- the ring is full, and the slot belongs to the oldest position
    have h62 : 2 ^ k ≤ 2 ^ 62 := Nat.pow_le_pow_right (by omega) hk
    have h1 : 2 ^ 1 ≤ 2 ^ k := Nat.pow_le_pow_right (by omega) hpos
    have hb := Bool.toNat_le (h.phase h.recycled).ready
    have hseq : (m.slot (ringMask k) m.head).sequence =
        BitVec.ofNat 64 (h.recycled + (h.phase h.recycled).ready.toNat) := by
      rw [hslot, hfull, cell_add (by omega), h'.sequence h.recycled le_rfl (by omega)]
    rw [hseq, h'.head, diff, toInt_sub_ofNat (by omega) (by omega)]
    omega

/-- Only a CAS that succeeds moves `head_`. -/
theorem head_of_step {mask : U64} {isConsumer : Bool} (hstep : step mask isConsumer l m pc = some (m', pc'))
    (hlost : ¬ Wins l m pc) : m'.head = m.head := by
  have hstart : ∀ {first : Pc V}, start m first pc = some (m', pc') → m'.head = m.head := by
    intro first hs
    cases pc <;> cases hs
    rfl
  cases l with
  | tryPush value => exact hstart hstep
  | pushBlocking value => exact hstart hstep
  | tryPop =>
      simp only [step] at hstep
      split_ifs at hstep
      exact hstart hstep
  | popBlocking =>
      simp only [step] at hstep
      split_ifs at hstep
      exact hstart hstep
  | close => exact hstart hstep
  | spurious =>
      cases pc <;> cases hstep
      rfl
  | run =>
      cases pc with
      | idle => cases hstep
      | pushCas c head =>
          have hmoved : ¬ m.head = head := hlost
          rw [step, run, Option.some.injEq, if_neg hmoved] at hstep
          cases hstep
          rfl
      | popSeq mode =>
          rw [step, run, Option.some.injEq] at hstep
          split_ifs at hstep <;> cases hstep <;> rfl
      | _ =>
          cases hstep
          rfl

/-- What a producer has paid for while another thread moves. -/
theorem Paid.rival {a : Attempt} {won : Prop} [Decidable won] (hp : Paid m a pc)
    (hlost : ¬ won → m'.head = m.head) : Paid m' (a.rival won) pc := by
  intro n hn
  obtain ⟨hsteps, hold⟩ := hp n hn
  rw [Attempt.rival]
  split_ifs with hwon
  · have hmore : ({ a with rivals := a.rivals + 1 } : Attempt).budget = a.budget + 2 := by
      simp only [Attempt.budget]
      omega
    rw [hmore]
    change a.steps ≤ _ ∧ ∀ head ∈ pc.copy, m'.head ≠ head → a.steps + 2 ≤ _
    exact ⟨by omega, fun _ _ _ => by omega⟩
  · rw [hlost hwon]
    exact ⟨hsteps, hold⟩

/-- A copy of `head_` that has just been loaded. -/
theorem Paid.load {a : Attempt} (hsteps : a.steps ≤ a.budget + 1) : Paid m a (.pushSeq c m.head) := by
  intro n hn
  cases hn
  refine ⟨hsteps, fun head hmem hne => ?_⟩
  cases hmem
  exact absurd rfl hne

/-- A position without a copy of `head_`. -/
theorem Paid.plain {a : Attempt} {n : ℕ} (hn : pc.steps = some n) (hcopy : pc.copy = none)
    (hsteps : a.steps ≤ a.budget + n) : Paid m a pc := by
  intro n' hn'
  rw [hn] at hn'
  cases hn'
  refine ⟨hsteps, fun head hmem => ?_⟩
  rw [hcopy] at hmem
  cases hmem

theorem Paid.outside {a : Attempt} (hpc : pc.steps = none) : Paid m a pc := by
  intro n hn
  rw [hpc] at hn
  cases hn

theorem Paid.run {a : Attempt} (h' : Inv k consumer m f h) (hpos : 1 ≤ k) (hk : k ≤ 62)
    (hbound : h.claimed.length < 2 ^ 62) (hp : Paid m a pc)
    (hrun : MPSCQueue.run (ringMask k) m pc = some (m', pc')) : Paid m' (a.step .run pc) pc' := by
  cases pc with
  | idle => cases hrun
  | pushCheck c =>
      rw [MPSCQueue.run, Option.some.injEq, Prod.mk.injEq] at hrun
      obtain ⟨rfl, rfl⟩ := hrun
      split_ifs
      · exact .outside rfl
      · exact .plain rfl rfl (Nat.zero_le _)
  | pushHead c =>
      cases hrun
      exact .load (Nat.succ_le_succ (hp 0 rfl).1)
  | pushSeq c head =>
      obtain ⟨hsteps, hold⟩ := hp 1 rfl
      rw [MPSCQueue.run, Option.some.injEq, Prod.mk.injEq] at hrun
      obtain ⟨rfl, rfl⟩ := hrun
      split_ifs with hzero hneg
      · intro n hn
        cases hn
        exact ⟨Nat.succ_le_succ hsteps, fun head' hmem hne => Nat.succ_le_succ (hold head' hmem hne)⟩
      · refine .plain rfl rfl ?_
        change a.steps + 1 ≤ a.budget + 7
        omega
      · -- sent back: the copy of `head_` is old
        have hne : m.head ≠ head := by
          rintro rfl
          exact h'.not_ahead hpos hk hbound (by omega)
        refine .plain rfl rfl ?_
        have := hold head rfl hne
        change a.steps + 1 ≤ a.budget + 0
        omega
  | pushCas c head =>
      obtain ⟨hsteps, hold⟩ := hp 2 rfl
      rw [MPSCQueue.run, Option.some.injEq] at hrun
      split_ifs at hrun with hwon <;> cases hrun
      · exact .plain rfl rfl (Nat.succ_le_succ hsteps)
      · refine .load ?_
        have := hold head rfl hwon
        change a.steps + 1 ≤ a.budget + 1
        omega
  | pushClosed c head =>
      rw [MPSCQueue.run, Option.some.injEq, Prod.mk.injEq] at hrun
      obtain ⟨rfl, rfl⟩ := hrun
      split_ifs <;> exact .plain rfl rfl (Nat.succ_le_succ (hp 3 rfl).1)
  | pushRevert c head =>
      cases hrun
      refine .plain rfl rfl ?_
      have := (hp 4 rfl).1
      change a.steps + 1 ≤ a.budget + 7
      omega
  | pushData c head =>
      cases hrun
      exact .plain rfl rfl (Nat.succ_le_succ (hp 4 rfl).1)
  | pushPublish c head =>
      cases hrun
      exact .plain rfl rfl (Nat.succ_le_succ (hp 5 rfl).1)
  | pushSize c =>
      cases hrun
      exact .plain rfl rfl (Nat.succ_le_succ (hp 6 rfl).1)
  | pushed c result value | popped mode result | popClosed =>
      rw [MPSCQueue.run, Option.some.injEq, Prod.mk.injEq] at hrun
      obtain ⟨rfl, rfl⟩ := hrun
      split_ifs <;> exact .outside rfl
  | popSeq mode =>
      rw [MPSCQueue.run, Option.some.injEq] at hrun
      split_ifs at hrun <;> cases hrun <;> exact .outside rfl
  | popData | popRecycle | popSize | close =>
      cases hrun
      exact .outside rfl

theorem Paid.step {a : Attempt} {isConsumer : Bool} (h' : Inv k consumer m f h) (hpos : 1 ≤ k) (hk : k ≤ 62)
    (hbound : h.claimed.length < 2 ^ 62) (hp : Paid m a pc)
    (hstep : MPSCQueue.step (ringMask k) isConsumer l m pc = some (m', pc')) : Paid m' (a.step l pc) pc' := by
  have hstart : ∀ {first : Pc V}, start m first pc = some (m', pc') → first = pc' := by
    intro first hs
    cases pc <;> cases hs
    rfl
  cases l with
  | tryPush value =>
      cases hstart hstep
      exact .plain rfl rfl (Nat.zero_le _)
  | pushBlocking value =>
      cases hstart hstep
      exact .outside rfl
  | tryPop =>
      simp only [MPSCQueue.step] at hstep
      split_ifs at hstep
      cases hstart hstep
      exact .outside rfl
  | popBlocking =>
      simp only [MPSCQueue.step] at hstep
      split_ifs at hstep
      cases hstart hstep
      exact .outside rfl
  | close =>
      cases hstart hstep
      exact .outside rfl
  | run => exact hp.run h' hpos hk hbound hstep
  | spurious =>
      cases pc <;> cases hstep
      refine .load ?_
      have := (hp 2 rfl).1
      change a.steps + 1 ≤ 2 * (a.rivals + (a.spurious + 1)) + 1
      rw [Attempt.budget] at this
      omega

/-! ### Runs -/

/-- What holds of every run in which few positions are claimed, whether the queue is closed or not. -/
structure Running (capacity : U64) (consumer : Tid) (x : (State V Tid × History V Tid) × (Tid → Attempt)) :
    Prop where
  sound : Sound capacity consumer x.1
  bound : x.1.2.claimed.length < 2 ^ 62
  stale : ∀ t, Stale (ringBits capacity) x.1.2 (x.1.1.thread t)
  paid : ∀ t, Paid x.1.1.mem (x.2 t) (x.1.1.thread t)

theorem running_of_reachable [Fintype Tid] {capacity : U64}
    {x : (State V Tid × History V Tid) × (Tid → Attempt)} (hcap : capacity.toNat ≤ 2 ^ 62)
    (h : (tried V capacity consumer).Reachable fewClaims x) : Running capacity consumer x := by
  have hpos := ringBits_pos capacity
  have hk : ringBits capacity ≤ 62 := ringBits_le (by omega) hcap
  refine h.induct ⟨.init (by omega), Nat.two_pow_pos 62, fun _ => trivial, fun _ => .outside rfl⟩ ?_
  rintro ⟨⟨s, h⟩, tries⟩ a ⟨⟨s', h'⟩, tries'⟩ - ih hnext hbound
  obtain ⟨hobserved, htries⟩ := Machine.observe_next hnext
  obtain ⟨t, l, m, pc, rfl, hstep, hmove, hhistory⟩ := observed_next hobserved
  change s' = s.move t m pc at hmove
  change h' = h.step (maskOf capacity) t l s.mem (s.thread t) pc at hhistory
  subst hmove hhistory
  change tries' = recordTries tries (s, h) (.step t l) (s.move t m pc, _) at htries
  subst htries
  have hmask := hstep
  rw [maskOf_eq] at hmask
  obtain ⟨hclaimed, hrecycled⟩ := History.step_mono (maskOf capacity) t l s.mem (s.thread t) pc h
  refine ⟨ih.sound.step (by omega) (fun _ => ?_) hstep, hbound, fun u => ?_, fun u => ?_⟩
  · rw [maskOf_eq]
    exact (ih.stale t).claimFree ih.sound ih.bound
  · refine Stale.mono ?_ hclaimed hrecycled
    rw [Config.move_thread, Function.update_apply]
    split_ifs
    · exact stale_of_step ih.sound hpos hk ih.bound (ih.stale t) hmask
    · exact ih.stale u
  · simp only [recordTries, Config.move_thread, Config.move_mem, Function.update_apply]
    split_ifs with hut
    · subst hut
      exact (ih.paid u).step ih.sound hpos hk ih.bound hmask
    · exact (ih.paid u).rival fun hlost => head_of_step hstep hlost

/-- A thread inside `try_push` can always take its next step. -/
theorem run_isSome (mask : U64) (hpc : pc.steps.isSome) : (run mask m pc).isSome := by
  cases pc <;> first | rfl | cases hpc

/-- **`try_push` is lock-free.** A thread inside it can always take its next step, and it has taken at most
seven, and two more for each CAS of another producer that has succeeded meanwhile and for each weak CAS of its
own that has failed without cause. -/
theorem try_push_lock_free [Fintype Tid] {capacity : U64}
    {x : (State V Tid × History V Tid) × (Tid → Attempt)} (hcap : capacity.toNat ≤ 2 ^ 62)
    (h : (tried V capacity consumer).Reachable fewClaims x) (hpc : (x.1.1.thread t).steps.isSome) :
    (run (maskOf capacity) x.1.1.mem (x.1.1.thread t)).isSome ∧
      (x.2 t).steps ≤ 7 + 2 * ((x.2 t).rivals + (x.2 t).spurious) := by
  refine ⟨run_isSome _ hpc, ?_⟩
  obtain ⟨n, hn⟩ := Option.isSome_iff_exists.mp hpc
  have hpaid := ((running_of_reachable hcap h).paid t n hn).1
  have hseven : n ≤ 7 := by
    generalize x.1.1.thread t = pc at hn
    cases pc <;> cases hn <;> decide
  rw [Attempt.budget] at hpaid
  omega

/-- Producer `b` loses its CAS to `a`, and then one without cause, before it succeeds. -/
theorem try_push_lock_free_contended :
    ∃ x : (State ℕ Runner × History ℕ Runner) × (Runner → Attempt), x.1.1.thread .b = .pushed ⟨2, false⟩ true none ∧
      x.2 .b = ⟨11, 1, 1⟩ ∧ (x.2 .b).steps ≤ 7 + 2 * ((x.2 .b).rivals + (x.2 .b).spurious) := by
  let calls : List (Act Runner (Label ℕ)) := [.step .a (.tryPush 1), .step .b (.tryPush 2), .step .a .run,
    .step .b .run, .step .a .run, .step .b .run, .step .a .run, .step .b .run, .step .b .run, .step .b .spurious] ++
    List.replicate 6 (.step .b .run)
  let M := tried ℕ 2 Runner.c
  let x := (M.run fewClaims M.init calls).get (by decide)
  exact ⟨x, by decide, by decide,
    (try_push_lock_free (by decide) (.of_run calls (by decide) : M.Reachable fewClaims x) (by decide)).2⟩

end Psync.MPSCQueue
