import Psync.MpscState
import Psync.RunQueue

/-! An open queue is a bounded first-in first-out queue. While fewer than `2 ^ 62` positions are
claimed, a producer's copy of `head_` is a true position, its signed comparison with the sequence of
the slot tells a free slot from a full ring, and so a winning CAS always finds its slot ready. -/

namespace Psync.MPSCQueue

open Concurrency MachineWord

set_option linter.unusedSectionVars false

variable {V Tid : Type*} [DecidableEq Tid] {k : ℕ} {consumer t : Tid} {m m' : Mem V}
  {f : Tid → Pc V} {h h' : History V Tid} {pc pc' : Pc V} {c : Push V} {head : U64}

def Label.closes : Label V → Bool
  | .close => true
  | _ => false

/-- The queue is never closed, and fewer than `2 ^ 62` positions are claimed. -/
def openBounded : StepCond (State V Tid × History V Tid) (Act Tid (Label V)) := fun _ a s' =>
  (match a with
    | .step _ l => l.closes = false
    | _ => True) ∧ s'.2.claimed.length < 2 ^ 62

instance (s : State V Tid × History V Tid) (a : Act Tid (Label V))
    (s' : State V Tid × History V Tid) : Decidable (openBounded s a s') :=
  match a with
  | .step _ l => inferInstanceAs (Decidable (l.closes = false ∧ s'.2.claimed.length < 2 ^ 62))
  | .sleep _ | .ret _ | .wake .. | .requeue .. =>
      inferInstanceAs (Decidable (True ∧ s'.2.claimed.length < 2 ^ 62))

/-- What a producer learns from the sequence of the slot at its copy of `head_`. -/
theorem Inv.look (h' : Inv k consumer m f h) (hpos : 1 ≤ k) (hk : k ≤ 62)
    (hbound : h.claimed.length < 2 ^ 62) (hle : head.toNat ≤ h.claimed.length) :
    (diff (m.slot (ringMask k) head).sequence head = 0 → head.toNat < h.recycled + 2 ^ k) ∧
      (diff (m.slot (ringMask k) head).sequence head < 0 →
        h.claimed.length = h.recycled + 2 ^ k) := by
  obtain ⟨q, hq, hq', hcell⟩ :=
    exists_cell_eq (n := 64) (k := k) (by omega) h.recycled head.toNat
  have h62 : 2 ^ k ≤ 2 ^ 62 := Nat.pow_le_pow_right (by omega) hk
  have h1 : 2 ^ 1 ≤ 2 ^ k := Nat.pow_le_pow_right (by omega) hpos
  have htaking := h'.taking_le
  have hwindow := h'.window
  have hb := Bool.toNat_le (h.phase q).ready
  have hhead : head = BitVec.ofNat 64 head.toNat := BitVec.eq_of_toNat_eq
    (by rw [BitVec.toNat_ofNat, Nat.mod_eq_of_lt head.isLt])
  have hseq : (m.slot (ringMask k) head).sequence =
      BitVec.ofNat 64 (q + (h.phase q).ready.toNat) := by
    rw [← h'.sequence q hq hq', hcell, Mem.slot]
    conv_lhs => rw [hhead]
    rfl
  have hdiff : diff (m.slot (ringMask k) head).sequence head =
      ((q + (h.phase q).ready.toNat : ℕ) : ℤ) - head.toNat := by
    rw [hseq, diff]
    conv_lhs => rw [hhead]
    exact toInt_sub_ofNat (by omega) (by omega)
  have hmod := (cell_eq_iff (n := 64) (by omega)).mp hcell
  -- the slot belongs to the position `q` of the current lap, a whole number of laps from `head`
  have hlap : q = head.toNat ∨ q + 2 ^ k ≤ head.toNat ∨ head.toNat + 2 ^ k ≤ q := by
    by_contra hnot
    push Not at hnot
    rcases Nat.le_total q head.toNat with hle | hle
    · exact hnot.1 (eq_of_mod_eq (r := q) le_rfl (by omega) hle (by omega) hmod)
    · exact hnot.1 (eq_of_mod_eq (r := head.toNat) hle (by omega) le_rfl (by omega) hmod)
  rw [hdiff]
  constructor
  · intro hzero
    rcases hlap with hlap | hlap | hlap <;> omega
  · intro hneg
    rcases hlap with hlap | hlap | hlap <;> omega

/-! ### Copies of `head_` -/

/-- A copy of `head_` is not ahead of it, and before the CAS it is a position of the current lap. -/
def Stale (k : ℕ) (h : History V Tid) : Pc V → Prop
  | .pushSeq _ head => head.toNat ≤ h.claimed.length
  | .pushCas _ head => head.toNat ≤ h.claimed.length ∧ head.toNat < h.recycled + 2 ^ k
  | _ => True

/-- Positions are only ever added, and slots only ever recycled. -/
theorem History.step_mono (mask : U64) (t : Tid) (l : Label V) (m : Mem V) (pc pc' : Pc V)
    (h : History V Tid) : h.claimed.length ≤ (h.step mask t l m pc pc').claimed.length ∧
      h.recycled ≤ (h.step mask t l m pc pc').recycled := by
  rw [History.step, History.answer_claimed, History.answer_recycled]
  unfold History.act
  split
  · split_ifs
    · exact ⟨by rw [History.claim_claimed, List.length_append]; omega, le_rfl⟩
    · exact ⟨le_rfl, le_rfl⟩
  · exact ⟨le_rfl, le_rfl⟩
  · exact ⟨le_rfl, le_rfl⟩
  · exact ⟨le_rfl, le_rfl⟩
  · exact ⟨le_rfl, Nat.le_succ _⟩
  · exact ⟨le_rfl, le_rfl⟩

theorem Stale.mono (hs : Stale k h pc) (hclaimed : h.claimed.length ≤ h'.claimed.length)
    (hrecycled : h.recycled ≤ h'.recycled) : Stale k h' pc := by
  cases pc with
  | pushSeq c head => exact le_trans hs hclaimed
  | pushCas c head =>
      obtain ⟨hle, hlt⟩ := hs
      exact ⟨by omega, by omega⟩
  | _ => trivial

/-- A step leaves the thread with a copy of the current `head_`, or with one it has checked. -/
theorem stale_of_step {l : Label V} {isConsumer : Bool} (h' : Inv k consumer m f h) (hpos : 1 ≤ k)
    (hk : k ≤ 62) (hbound : h.claimed.length < 2 ^ 62) (hs : Stale k h pc)
    (hstep : step (ringMask k) isConsumer l m pc = some (m', pc')) : Stale k h pc' := by
  have hhead : m.head.toNat ≤ h.claimed.length := by
    rw [h'.head, BitVec.toNat_ofNat]
    exact Nat.mod_le _ _
  have hstart : ∀ {first : Pc V}, start m first pc = some (m', pc') → first = pc' := by
    intro first hs
    cases pc <;> cases hs
    rfl
  cases l with
  | tryPush value => cases hstart hstep; trivial
  | pushBlocking value => cases hstart hstep; trivial
  | tryPop =>
      simp only [step] at hstep
      split_ifs at hstep
      cases hstart hstep
      trivial
  | popBlocking =>
      simp only [step] at hstep
      split_ifs at hstep
      cases hstart hstep
      trivial
  | close => cases hstart hstep; trivial
  | spurious =>
      cases pc <;> cases hstep
      exact hhead
  | run =>
      cases pc with
      | idle => cases hstep
      | pushHead c =>
          cases hstep
          exact hhead
      | pushSeq c head =>
          rw [step, run, Option.some.injEq, Prod.mk.injEq] at hstep
          obtain ⟨-, rfl⟩ := hstep
          split_ifs with hzero hneg
          · exact ⟨hs, (h'.look hpos hk hbound hs).1 hzero⟩
          · trivial
          · trivial
      | pushCas c head =>
          rw [step, run, Option.some.injEq] at hstep
          split_ifs at hstep <;> cases hstep
          · trivial
          · exact hhead
      | pushCheck c | pushClosed c head | pushed c result value | popped mode result | popClosed =>
          rw [step, run, Option.some.injEq, Prod.mk.injEq] at hstep
          obtain ⟨-, rfl⟩ := hstep
          split_ifs <;> trivial
      | popSeq mode =>
          rw [step, run, Option.some.injEq] at hstep
          split_ifs at hstep <;> cases hstep <;> trivial
      | _ =>
          cases hstep
          trivial

/-- So a winning CAS finds its slot ready. -/
theorem Stale.claimFree (h' : Inv k consumer m f h) (hbound : h.claimed.length < 2 ^ 62)
    (hs : Stale k h pc) : ClaimFree (ringMask k) m pc := by
  intro head hmem hwin
  cases pc with
  | pushCas c head =>
      cases hmem
      obtain ⟨-, hlt⟩ := hs
      have hH : head.toNat = h.claimed.length := by
        rw [← hwin, h'.head, BitVec.toNat_ofNat, Nat.mod_eq_of_lt (by omega)]
      have hle := h'.taking_le
      rw [hH] at hlt
      have hseq := h'.sequence h.claimed.length (by omega) hlt
      rw [(h'.fresh _).mpr le_rfl] at hseq
      rw [← hwin, h'.head]
      exact hseq
  | _ => cases hmem

/-! ### The invariant of open runs -/

/-- The thread closes the queue, or has seen it closed. -/
def Pc.shutting : Pc V → Bool
  | .close | .pushRevert .. => true
  | _ => false

structure Open (capacity : U64) (consumer : Tid) (s : State V Tid × History V Tid) : Prop where
  sound : Sound capacity consumer s
  bound : s.2.claimed.length < 2 ^ 62
  stale : ∀ t, Stale (ringBits capacity) s.2 (s.1.thread t)
  opened : s.1.mem.closed = false
  going : ∀ t, (s.1.thread t).shutting = false

theorem opened_of_step {mask : U64} {l : Label V} {isConsumer : Bool} (hl : l.closes = false)
    (hopen : m.closed = false) (hpc : pc.shutting = false)
    (hstep : step mask isConsumer l m pc = some (m', pc')) :
    m'.closed = false ∧ pc'.shutting = false := by
  have hstart : ∀ {first : Pc V}, start m first pc = some (m', pc') → first.shutting = false →
      m'.closed = false ∧ pc'.shutting = false := by
    intro first hs hfirst
    cases pc <;> cases hs
    exact ⟨hopen, hfirst⟩
  cases l with
  | tryPush value => exact hstart hstep rfl
  | pushBlocking value => exact hstart hstep rfl
  | tryPop =>
      simp only [step] at hstep
      split_ifs at hstep
      exact hstart hstep rfl
  | popBlocking =>
      simp only [step] at hstep
      split_ifs at hstep
      exact hstart hstep rfl
  | close => cases hl
  | spurious =>
      cases pc <;> cases hstep
      exact ⟨hopen, rfl⟩
  | run =>
      cases pc with
      | idle => cases hstep
      | close => cases hpc
      | pushRevert c head => cases hpc
      | pushCheck c | pushClosed c head =>
          rw [step, run, Option.some.injEq, Prod.mk.injEq, hopen] at hstep
          obtain ⟨rfl, rfl⟩ := hstep
          exact ⟨hopen, rfl⟩
      | pushSeq c head | pushed c result value | popped mode result | popClosed =>
          rw [step, run, Option.some.injEq, Prod.mk.injEq] at hstep
          obtain ⟨rfl, rfl⟩ := hstep
          refine ⟨hopen, ?_⟩
          split_ifs <;> rfl
      | pushCas c head =>
          rw [step, run, Option.some.injEq] at hstep
          split_ifs at hstep <;> cases hstep <;> exact ⟨hopen, rfl⟩
      | popSeq mode =>
          rw [step, run, Option.some.injEq] at hstep
          split_ifs at hstep <;> cases hstep <;> exact ⟨hopen, rfl⟩
      | _ =>
          cases hstep
          exact ⟨hopen, rfl⟩

theorem open_of_reachable [Fintype Tid] {capacity : U64} {s : State V Tid × History V Tid}
    (hcap : capacity.toNat ≤ 2 ^ 62) (h : (observed V capacity consumer).Reachable openBounded s) :
    Open capacity consumer s := by
  have hpos := ringBits_pos capacity
  have hk : ringBits capacity ≤ 62 := ringBits_le (by omega) hcap
  refine h.induct ⟨.init (by omega), Nat.two_pow_pos 62, fun _ => trivial, rfl, fun _ => rfl⟩ ?_
  intro s a s' _ ih hnext hok
  obtain ⟨t, l, m, pc, rfl, hstep, hmove, hhistory⟩ := observed_next hnext
  obtain ⟨hclose, hbound⟩ := hok
  obtain ⟨s', h'⟩ := s'
  subst hmove hhistory
  have hmask := hstep
  rw [maskOf_eq] at hmask
  have hopen := opened_of_step hclose ih.opened (ih.going t) hstep
  obtain ⟨hclaimed, hrecycled⟩ :=
    History.step_mono (maskOf capacity) t l s.1.mem (s.1.thread t) pc s.2
  refine ⟨ih.sound.step (by omega) (fun _ => ?_) hstep, hbound, fun u => ?_, hopen.1, fun u => ?_⟩
  · rw [maskOf_eq]
    exact (ih.stale t).claimFree ih.sound ih.bound
  · refine Stale.mono ?_ hclaimed hrecycled
    rw [Config.move_thread, Function.update_apply]
    split_ifs
    · exact stale_of_step ih.sound hpos hk ih.bound (ih.stale t) hmask
    · exact ih.stale u
  · rw [Config.move_thread, Function.update_apply]
    split_ifs
    · exact hopen.2
    · exact ih.going u

/-! ### The queue of an open run -/

/-- Slot `i` is that of a position of the current lap: the one the consumer pops, or one that
producer `t` has claimed and not published. -/
def Located (k : ℕ) (consumer : Tid) (h : History V Tid) (t : Tid) (i : U64) : Prop :=
  ∃ p, i = cell 64 k p ∧ h.recycled ≤ p ∧ p < h.recycled + 2 ^ k ∧
    ((t = consumer ∧ p = h.recycled ∧ (h.phase p).ready = true) ∨
      ((h.phase p).ready = false ∧ ∃ v, h.claimed[p]? = some (t, v)))

theorem Inv.located {i : U64} (h' : Inv k consumer m f h)
    (hi : (f t).holds (ringMask k) = some i) : Located k consumer h t i := by
  have hproducer : ∀ {c head ph}, Holds h t c head ph → ph.ready = false →
      some (head &&& ringMask k) = some i → Located k consumer h t i := by
    intro c head ph hh hph hi
    obtain ⟨hle, hlt⟩ := h'.in_window hh.lt (by rw [hh.phase, hph])
    refine ⟨h.position t, ?_, by omega, hlt, Or.inr ⟨by rw [hh.phase, hph], _, hh.claim⟩⟩
    rw [← Option.some.inj hi, hh.head]
    rfl
  have hconsumer : ∀ tail, (f t).popping = true → (f t).tail = some tail → (f t).taking = 1 →
      some (tail &&& ringMask k) = some i → Located k consumer h t i := by
    intro tail hpop htail htaking hi
    obtain rfl := h'.solo t hpop
    refine ⟨h.recycled, ?_, le_rfl, Nat.lt_add_of_pos_right (Nat.two_pow_pos k),
      Or.inl ⟨rfl, rfl, h'.ready _ (by omega)⟩⟩
    rw [← Option.some.inj hi, h'.tailLocal tail htail]
    rfl
  have ho := h'.owns t
  generalize f t = pc at hi ho hconsumer
  cases pc with
  | pushClosed c head => exact hproducer ho rfl hi
  | pushRevert c head => exact hproducer ho rfl hi
  | pushData c head => exact hproducer ho rfl hi
  | pushPublish c head => exact hproducer ho.1 rfl hi
  | popData mode tail => exact hconsumer tail rfl rfl rfl hi
  | popRecycle mode tail result => exact hconsumer tail rfl rfl rfl hi
  | _ => cases hi

/-- No two threads have one slot for themselves. -/
theorem Inv.holds_unique {u : Tid} {i : U64} (h' : Inv k consumer m f h) (hk : k ≤ 64)
    (ht : (f t).holds (ringMask k) = some i) (hu : (f u).holds (ringMask k) = some i) : t = u := by
  obtain ⟨p, rfl, hp, hp', hcase⟩ := h'.located ht
  obtain ⟨q, heq, hq, hq', hcase'⟩ := h'.located hu
  obtain rfl := cell_inj hk hp hp' hq hq' heq
  rcases hcase with ⟨rfl, -, hr⟩ | ⟨hr, v, hv⟩ <;>
    rcases hcase' with ⟨rfl, -, hr'⟩ | ⟨hr', v', hv'⟩
  · rfl
  · rw [hr] at hr'
    cases hr'
  · rw [hr] at hr'
    cases hr'
  · rw [hv] at hv'
    exact congrArg Prod.fst (Option.some.inj hv')

theorem holds_of_accesses {mask i : U64} (h : pc.accesses mask = some i) :
    pc.holds mask = some i := by
  cases pc <;> first | exact h | cases h

/-- The items that are claimed and not recycled. -/
def History.contents (h : History V Tid) : List (Tid × V) := h.claimed.drop h.recycled

/-- What the queue promises its clients while it is open. -/
structure BoundedFifo [Fintype Tid] (capacity : U64) (consumer : Tid)
    (s : State V Tid × History V Tid) : Prop where
  /-- Every step is a step of the bounded queue. -/
  refines : ∀ a s', (observed V capacity consumer).next s a = some s' →
    QueueStep (MPSCQueue.capacity (maskOf capacity)).toNat s.2.contents s'.2.contents
  /-- The pops are the claims from the first one on, in order, each once and with its value. -/
  order : s.2.popped = (s.2.claimed.take s.2.popped.length).map fun c => some c.2
  /-- The calls of `try_pop` have returned all of them, but for the one that a call is about to return. -/
  returned : s.2.popped = s.2.returned ++ (s.1.thread consumer).item
  /-- While a thread has a slot for itself, no other thread reads or writes its data. -/
  exclusive : ∀ t u i, t ≠ u → (s.1.thread t).holds (maskOf capacity) = some i →
    (s.1.thread u).accesses (maskOf capacity) ≠ some i
  /-- `try_push` returns `true` once for each position, which it has claimed with its value and published. -/
  accepted : ∀ t c value s', (observed V capacity consumer).next s (.step t .run) = some s' →
    s'.1.thread t = .pushed c true value →
    ∃ p, s.2.claimed[p]? = some (t, c.value) ∧ s.2.phase p = .published ∧ s'.2.phase p = .succeeded
  /-- `try_pop` returns the value of the first claim that has not been returned before. -/
  delivered : ∀ mode item s', (observed V capacity consumer).next s (.step consumer .run) = some s' →
    s'.1.thread consumer = .popped mode (some item) →
    (∃ c, s.2.claimed[s.2.returned.length]? = some c ∧ item = some c.2) ∧
      s'.2.returned = s.2.returned ++ [item]
  /-- `try_push` returns `false` only at a load in a state in which `capacity()` positions are claimed
  and not recycled, and then it has left its argument alone. -/
  full : ∀ t c value s', (observed V capacity consumer).next s (.step t .run) = some s' →
    s'.1.thread t = .pushed c false value →
    s.2.claimed.length = s.2.recycled + (MPSCQueue.capacity (maskOf capacity)).toNat ∧
      value = some c.value
  /-- `try_pop` returns `nullopt` only if at its load the next item is not published. -/
  empty : ∀ mode s', (observed V capacity consumer).next s (.step consumer .run) = some s' →
    s'.1.thread consumer = .popped mode none →
    (∃ mode', s.1.thread consumer = .popSeq mode') ∧ (s.2.phase s.2.popped.length).ready = false

theorem capacity_toNat (capacity : U64) (hcap : capacity.toNat ≤ 2 ^ 63) :
    (MPSCQueue.capacity (maskOf capacity)).toNat = 2 ^ ringBits capacity := by
  have hk : 2 ^ ringBits capacity ≤ 2 ^ 63 :=
    Nat.pow_le_pow_right (by omega) (ringBits_le (by omega) hcap)
  have hpos := Nat.two_pow_pos (ringBits capacity)
  have hmask : (ringMask (ringBits capacity)).toNat = 2 ^ ringBits capacity - 1 := by
    rw [ringMask, BitVec.toNat_ofNat, Nat.mod_eq_of_lt (by omega)]
  rw [maskOf_eq, MPSCQueue.capacity, BitVec.toNat_add_of_lt (by rw [hmask]; simp; omega), hmask]
  simp
  omega

theorem Inv.popped_length (h' : Inv k consumer m f h) :
    h.popped.length = h.recycled + (f consumer).taken := by
  have hle := h'.taking_le
  have hle' := taken_le (f consumer)
  rw [h'.popped, List.length_map, List.length_take]
  omega

theorem pushSize_of_run {mask : U64} {v : Option V} (hrun : run mask m pc = some (m', .pushed c true v)) :
    pc = .pushSize c := by
  cases pc with
  | pushSize c' =>
      cases hrun
      rfl
  | pushSeq =>
      rw [run, Option.some.injEq, Prod.mk.injEq] at hrun
      obtain ⟨-, hrun⟩ := hrun
      split_ifs at hrun
      cases hrun
  | pushCheck | pushClosed | pushed | popped =>
      rw [run, Option.some.injEq, Prod.mk.injEq] at hrun
      obtain ⟨-, hrun⟩ := hrun
      split_ifs at hrun
  | pushCas | popSeq =>
      rw [run, Option.some.injEq] at hrun
      split_ifs at hrun <;> cases hrun
  | _ => cases hrun

theorem popSize_of_run {mask : U64} {mode : PopMode} {item : Option V}
    (hrun : run mask m pc = some (m', .popped mode (some item))) : pc = .popSize mode item := by
  cases pc with
  | popSize mode' result =>
      cases hrun
      rfl
  | pushSeq | pushCheck | pushClosed | pushed | popped =>
      rw [run, Option.some.injEq, Prod.mk.injEq] at hrun
      obtain ⟨-, hrun⟩ := hrun
      split_ifs at hrun
  | pushCas | popSeq =>
      rw [run, Option.some.injEq] at hrun
      split_ifs at hrun <;> cases hrun
  | _ => cases hrun

/-- The step with which `try_push` returns `true`. -/
theorem accepted_of_run {mask : U64} {v : Option V} (h' : Inv k consumer m f h)
    (hrun : run mask m (f t) = some (m', .pushed c true v)) :
    ∃ p, h.claimed[p]? = some (t, c.value) ∧ h.phase p = .published ∧
      (h.step mask t .run m (f t) (.pushed c true v)).phase p = .succeeded := by
  have howns := h'.owns t
  rw [pushSize_of_run hrun] at howns ⊢
  obtain ⟨head, hh⟩ := howns
  exact ⟨h.position t, hh.claim, hh.phase, Function.update_self ..⟩

/-- The step with which `try_pop` returns an item. -/
theorem delivered_of_run {mask : U64} {mode : PopMode} {item : Option V} (h' : Inv k consumer m f h)
    (hrun : run mask m (f consumer) = some (m', .popped mode (some item))) :
    (∃ c, h.claimed[h.returned.length]? = some c ∧ item = some c.2) ∧
      (h.step mask consumer .run m (f consumer) (.popped mode (some item))).returned = h.returned ++ [item] := by
  have hpc := popSize_of_run hrun
  have hreturned := h'.returned
  rw [hpc] at hreturned ⊢
  refine ⟨?_, rfl⟩
  have hget : h.popped[h.returned.length]? = some item := by
    rw [hreturned]
    exact List.getElem?_concat_length
  rw [h'.popped, List.getElem?_map, Option.map_eq_some_iff] at hget
  obtain ⟨c, hc, rfl⟩ := hget
  rw [List.getElem?_take] at hc
  split_ifs at hc
  exact ⟨c, hc, rfl⟩

/-- The step with which `try_push` returns `false` on an open queue. -/
theorem full_of_run {v : Option V} (h' : Inv k consumer m f h) (hpos : 1 ≤ k) (hk : k ≤ 62)
    (hbound : h.claimed.length < 2 ^ 62) (hs : Stale k h pc) (hgo : pc.shutting = false)
    (hrun : run (ringMask k) m pc = some (m', .pushed c false v)) :
    h.claimed.length = h.recycled + 2 ^ k ∧ v = some c.value := by
  cases pc with
  | pushSeq c' head =>
      rw [run, Option.some.injEq, Prod.mk.injEq] at hrun
      obtain ⟨-, hrun⟩ := hrun
      split_ifs at hrun with hzero hneg
      cases hrun
      exact ⟨(h'.look hpos hk hbound hs).2 hneg, rfl⟩
  | pushRevert c' head => cases hgo
  | pushCheck | pushClosed | pushed | popped =>
      rw [run, Option.some.injEq, Prod.mk.injEq] at hrun
      obtain ⟨-, hrun⟩ := hrun
      split_ifs at hrun
  | pushCas | popSeq =>
      rw [run, Option.some.injEq] at hrun
      split_ifs at hrun <;> cases hrun
  | _ => cases hrun

theorem empty_of_run {mode : PopMode} (h' : Inv k consumer m f h)
    (hrun : run (ringMask k) m (f consumer) = some (m', .popped mode none)) :
    (∃ mode', f consumer = .popSeq mode') ∧ (h.phase h.popped.length).ready = false := by
  have hlen := h'.popped_length
  have hsees := h'.sees
  generalize f consumer = pc at hrun hlen hsees
  cases pc with
  | popSeq mode' =>
      rw [run, Option.some.injEq] at hrun
      split_ifs at hrun with hzero <;> cases hrun
      refine ⟨⟨mode, rfl⟩, ?_⟩
      rw [hlen]
      exact Bool.eq_false_iff.mpr fun hr => hzero ((hsees rfl).mpr hr)
  | pushSeq | pushCheck | pushClosed | pushed | popped =>
      rw [run, Option.some.injEq, Prod.mk.injEq] at hrun
      obtain ⟨-, hrun⟩ := hrun
      split_ifs at hrun
  | pushCas =>
      rw [run, Option.some.injEq] at hrun
      split_ifs at hrun <;> cases hrun
  | _ => cases hrun

theorem queueStep_of_step {l : Label V} (h' : Inv k consumer m f h) (hpos : 1 ≤ k) (hk : k ≤ 63)
    (hfree : ClaimFree (ringMask k) m (f t)) :
    QueueStep (2 ^ k) h.contents (h.step (ringMask k) t l m (f t) pc').contents := by
  have hle := h'.taking_le
  generalize hpc : f t = pc at hfree
  rw [History.contents, History.contents, History.step, History.answer_claimed, History.answer_recycled,
    ← History.contents, ← History.contents]
  unfold History.act
  split
  · rename_i c head
    split_ifs with hwin
    · refine QueueStep.of_append _ (by omega) (h'.room hpos hk ?_)
      have := hfree head rfl hwin
      rw [← hwin, h'.head] at this
      exact this
    · exact .stay _
  · exact .stay _
  · exact .stay _
  · exact .stay _
  · have hone : (f t).taking = 1 := by rw [hpc]; rfl
    obtain rfl := h'.solo t (by rw [hpc]; rfl)
    exact QueueStep.of_drop (by omega)
  · exact .stay _

/-- Thread `a` pushes 7 into a queue of two slots, and thread `b` pops it. -/
def pushPopRun : List (Act Runner (Label ℕ)) :=
  .step .a (.tryPush 7) :: List.replicate 8 (.step .a .run) ++
    .step .b .tryPop :: List.replicate 4 (.step .b .run)

end Psync.MPSCQueue
