import Psync.MpscModel
import Psync.WordRing

/-! Positions and slots of the queue. A winning CAS on `head_` claims the next position; the history
of a run records who claimed it with which value, what became of the claim, and the pops. The
invariant says what the sequence number and the data of every slot of the current lap are. -/

namespace Psync.MPSCQueue

open Concurrency MachineWord

set_option linter.unusedSectionVars false

variable {V Tid : Type*}

/-! ### The size of the ring -/

/-- The ring of a queue constructed with `capacity` has `2 ^ ringBits capacity` slots. -/
def ringBits (capacity : U64) : ℕ := Nat.size (max 2 capacity.toNat - 1)

def ringMask (k : ℕ) : U64 := BitVec.ofNat 64 (2 ^ k - 1)

theorem roundUpPow2_sub (v : U64) (hv : 0 < v.toNat) :
    roundUpPow2 v - 1 = ringMask (Nat.size (v.toNat - 1)) := by
  have hsmear := ((((((Smears.refl (v - 1)).double).double).double).double).double).double
  have hsub : (v - 1).toNat = v.toNat - 1 := BitVec.toNat_sub_of_le hv
  rw [← hsub, roundUpPow2, BitVec.add_sub_cancel]
  refine BitVec.eq_of_toNat_eq ?_
  have hlt : Nat.size (v - 1).toNat ≤ 64 := Nat.size_le.mpr (v - 1).isLt
  have hpow : 2 ^ Nat.size (v - 1).toNat ≤ 2 ^ 64 := Nat.pow_le_pow_right (by omega) hlt
  have hpos := Nat.two_pow_pos (Nat.size (v - 1).toNat)
  rw [ringMask, BitVec.toNat_ofNat, Nat.mod_eq_of_lt (by omega)]
  exact hsmear.toNat_eq

theorem maskOf_eq (capacity : U64) : maskOf capacity = ringMask (ringBits capacity) := by
  rw [maskOf, ringBits]
  split_ifs with h
  · have hlt : capacity.toNat < 2 := h
    rw [roundUpPow2_sub _ (by decide), show max 2 capacity.toNat = 2 by omega]
    rfl
  · have hle : ¬ capacity.toNat < 2 := h
    rw [roundUpPow2_sub _ (by omega), show max 2 capacity.toNat = capacity.toNat by omega]

theorem ringBits_pos (capacity : U64) : 1 ≤ ringBits capacity :=
  Nat.size_pos.mpr (by omega)

theorem ringBits_le {capacity : U64} {j : ℕ} (hj : 1 ≤ j) (h : capacity.toNat ≤ 2 ^ j) :
    ringBits capacity ≤ j := by
  have h2 : 2 ^ 1 ≤ 2 ^ j := Nat.pow_le_pow_right (by omega) hj
  exact Nat.size_le.mpr (by omega)

/-! ### The history of a run -/

/-- What became of a position. -/
inductive Phase
  | unclaimed
  /-- Claimed by a CAS whose producer has not read `closed_` yet. -/
  | claimed
  /-- The producer has read `closed_` set. -/
  | refused
  /-- The producer has read `closed_` clear. -/
  | accepted
  /-- The sequence of the slot says that the data can be popped. -/
  | published
  /-- The push has returned `true`. -/
  | succeeded
  deriving DecidableEq

structure History (V Tid : Type*) where
  /-- The winners of the CAS on `head_`, in order, with the values they push. -/
  claimed : List (Tid × V)
  phase : ℕ → Phase
  /-- The position a producer claimed last. -/
  position : Tid → ℕ
  /-- What the consumer has moved out of the slots. -/
  popped : List (Option V)
  /-- What the calls of `try_pop` have returned. -/
  returned : List (Option V)
  /-- The number of slots the consumer has handed to the next lap. -/
  recycled : ℕ

namespace History

variable [DecidableEq Tid] (h : History V Tid)

def init : History V Tid := ⟨[], fun _ => .unclaimed, fun _ => 0, [], [], 0⟩

def claim (t : Tid) (value : V) : History V Tid :=
  { h with
    claimed := h.claimed ++ [(t, value)]
    phase := Function.update h.phase h.claimed.length .claimed
    position := Function.update h.position t h.claimed.length }

/-- The claim of `t` enters a new phase. -/
def mark (t : Tid) (ph : Phase) : History V Tid :=
  { h with phase := Function.update h.phase (h.position t) ph }

@[simp] theorem claim_claimed (t : Tid) (value : V) :
    (h.claim t value).claimed = h.claimed ++ [(t, value)] := rfl
@[simp] theorem claim_phase (t : Tid) (value : V) :
    (h.claim t value).phase = Function.update h.phase h.claimed.length .claimed := rfl
@[simp] theorem claim_position (t : Tid) (value : V) :
    (h.claim t value).position = Function.update h.position t h.claimed.length := rfl
@[simp] theorem claim_popped (t : Tid) (value : V) : (h.claim t value).popped = h.popped := rfl
@[simp] theorem claim_returned (t : Tid) (value : V) : (h.claim t value).returned = h.returned := rfl
@[simp] theorem claim_recycled (t : Tid) (value : V) : (h.claim t value).recycled = h.recycled := rfl
@[simp] theorem mark_claimed (t : Tid) (ph : Phase) : (h.mark t ph).claimed = h.claimed := rfl
@[simp] theorem mark_phase (t : Tid) (ph : Phase) :
    (h.mark t ph).phase = Function.update h.phase (h.position t) ph := rfl
@[simp] theorem mark_position (t : Tid) (ph : Phase) : (h.mark t ph).position = h.position := rfl
@[simp] theorem mark_popped (t : Tid) (ph : Phase) : (h.mark t ph).popped = h.popped := rfl
@[simp] theorem mark_returned (t : Tid) (ph : Phase) : (h.mark t ph).returned = h.returned := rfl
@[simp] theorem mark_recycled (t : Tid) (ph : Phase) : (h.mark t ph).recycled = h.recycled := rfl

/-- What a step does to the positions and to the slots. -/
def act (mask : U64) (t : Tid) (l : Label V) (m : Mem V) (pc : Pc V) : History V Tid :=
  match l, pc with
  | .run, .pushCas c head => if m.head = head then h.claim t c.value else h
  | .run, .pushClosed _ _ => h.mark t (if m.closed then .refused else .accepted)
  | .run, .pushPublish _ _ => h.mark t .published
  | .run, .popData _ tail => { h with popped := h.popped ++ [(m.slot mask tail).data] }
  | .run, .popRecycle _ _ _ => { h with recycled := h.recycled + 1 }
  | _, _ => h

/-- A call of `t` has returned: `try_push` with `true`, or `try_pop` with an item. -/
def answer (t : Tid) (pc : Pc V) : History V Tid :=
  match pc with
  | .pushed _ true _ => h.mark t .succeeded
  | .popped _ (some item) => { h with returned := h.returned ++ [item] }
  | _ => h

/-- A step from `pc` to `pc'`. -/
def step (mask : U64) (t : Tid) (l : Label V) (m : Mem V) (pc pc' : Pc V) : History V Tid :=
  (h.act mask t l m pc).answer t pc'

@[simp] theorem answer_claimed (t : Tid) (pc : Pc V) : (h.answer t pc).claimed = h.claimed := by
  unfold answer
  split <;> rfl

@[simp] theorem answer_popped (t : Tid) (pc : Pc V) : (h.answer t pc).popped = h.popped := by
  unfold answer
  split <;> rfl

@[simp] theorem answer_recycled (t : Tid) (pc : Pc V) : (h.answer t pc).recycled = h.recycled := by
  unfold answer
  split <;> rfl

end History

/-- The call under way is about to return, with a result that the history records. -/
def Pc.answering : Pc V → Bool
  | .pushSize _ | .popSize .. => true
  | _ => false

/-- All other steps lead to positions at which nothing has been returned. -/
theorem History.answer_of_run [DecidableEq Tid] {mask : U64} {m m' : Mem V} {pc pc' : Pc V}
    (hrun : run mask m pc = some (m', pc')) (hnot : pc.answering = false) (h : History V Tid) (t : Tid) :
    h.answer t pc' = h := by
  cases pc with
  | idle => cases hrun
  | pushSize | popSize => cases hnot
  | pushCheck | pushSeq | pushCas | pushClosed | pushed | popSeq | popped | popClosed =>
      rw [run, Option.some.injEq] at hrun
      split_ifs at hrun <;> cases hrun <;> rfl
  | _ =>
      cases hrun
      rfl

theorem History.step_of_run [DecidableEq Tid] {mask : U64} {m m' : Mem V} {pc pc' : Pc V}
    (hrun : run mask m pc = some (m', pc')) (hnot : pc.answering = false) (h : History V Tid) (t : Tid) :
    h.step mask t .run m pc pc' = h.act mask t .run m pc :=
  answer_of_run hrun hnot _ t

/-- A step answers a call, or it only acts. -/
theorem History.step_cases [DecidableEq Tid] {mask : U64} {isConsumer : Bool} {l : Label V} {m m' : Mem V}
    {pc pc' : Pc V} (hstep : MPSCQueue.step mask isConsumer l m pc = some (m', pc')) (h : History V Tid)
    (t : Tid) :
    (∃ c, pc = .pushSize c ∧ h.step mask t l m pc pc' = h.mark t .succeeded) ∨
    (∃ mode item, pc = .popSize mode item ∧
      h.step mask t l m pc pc' = { h with returned := h.returned ++ [item] }) ∨
    h.step mask t l m pc pc' = h.act mask t l m pc := by
  have hstart : ∀ {first : Pc V}, start m first pc = some (m', pc') →
      (∀ h : History V Tid, h.answer t first = h) → h.answer t pc' = h := by
    intro first hs hfirst
    cases pc <;> cases hs
    exact hfirst h
  cases l with
  | tryPush value => exact Or.inr (Or.inr (hstart hstep fun _ => rfl))
  | pushBlocking value => exact Or.inr (Or.inr (hstart hstep fun _ => rfl))
  | close => exact Or.inr (Or.inr (hstart hstep fun _ => rfl))
  | tryPop | popBlocking =>
      simp only [MPSCQueue.step] at hstep
      split_ifs at hstep
      exact Or.inr (Or.inr (hstart hstep fun _ => rfl))
  | spurious =>
      cases pc <;> cases hstep
      exact Or.inr (Or.inr rfl)
  | run =>
      cases hans : pc.answering with
      | false => exact Or.inr (Or.inr (step_of_run hstep hans h t))
      | true =>
          cases pc with
          | pushSize c =>
              cases hstep
              exact Or.inl ⟨c, rfl, rfl⟩
          | popSize mode item =>
              cases hstep
              exact Or.inr (Or.inl ⟨mode, item, rfl, rfl⟩)
          | _ => cases hans

def record [DecidableEq Tid] (mask : U64) (h : History V Tid) (s : State V Tid)
    (a : Act Tid (Label V)) (s' : State V Tid) : History V Tid :=
  match a with
  | .step t l => h.step mask t l s.mem (s.thread t) (s'.thread t)
  | _ => h

/-- The runs of the queue with their history. -/
def observed (V : Type*) {Tid : Type*} [Fintype Tid] [DecidableEq Tid] (capacity : U64)
    (consumer : Tid) : Machine (State V Tid × History V Tid) (Act Tid (Label V)) :=
  (program V capacity consumer).machine.observe .init (record (maskOf capacity))

/-! ### Threads -/

/-- The data of a slot can be popped. -/
def Phase.ready : Phase → Bool
  | .published | .succeeded => true
  | _ => false

/-- The push of a position is still on its way. -/
def Phase.pending : Phase → Bool
  | .claimed | .accepted | .published => true
  | _ => false

/-- The phase of the position a producer works on. -/
def Pc.stage : Pc V → Option Phase
  | .pushClosed .. => some .claimed
  | .pushRevert .. => some .refused
  | .pushData .. | .pushPublish .. => some .accepted
  | .pushSize _ => some .published
  | _ => none

/-- The consumer has advanced `tail_` and not yet recycled the slot. -/
def Pc.taking : Pc V → ℕ
  | .popData .. | .popRecycle .. => 1
  | _ => 0

/-- The consumer has moved the data out and not yet recycled the slot. -/
def Pc.taken : Pc V → ℕ
  | .popRecycle .. => 1
  | _ => 0

/-- The position, as a word, that the consumer works on. -/
def Pc.tail : Pc V → Option U64
  | .popData _ tail | .popRecycle _ tail _ => some tail
  | _ => none

/-- What the consumer has moved out and not yet returned. -/
def Pc.item : Pc V → List (Option V)
  | .popRecycle _ _ result | .popSize _ result => [result]
  | _ => []

/-- The thread is inside `try_pop` or `pop_blocking`. -/
def Pc.popping : Pc V → Bool
  | .popSeq _ | .popData .. | .popRecycle .. | .popSize .. | .popped .. | .popClosed => true
  | _ => false

/-- Producer `t` has claimed the position that the word `head` stands for. -/
structure Holds (h : History V Tid) (t : Tid) (c : Push V) (head : U64) (ph : Phase) : Prop where
  head : head = BitVec.ofNat 64 (h.position t)
  claim : h.claimed[h.position t]? = some (t, c.value)
  phase : h.phase (h.position t) = ph

def Owns (k : ℕ) (m : Mem V) (h : History V Tid) (t : Tid) : Pc V → Prop
  | .pushClosed c head => Holds h t c head .claimed
  | .pushRevert c head => Holds h t c head .refused
  | .pushData c head => Holds h t c head .accepted
  | .pushPublish c head => Holds h t c head .accepted ∧
      (m.buffer (cell 64 k (h.position t))).data = some c.value
  | .pushSize c => ∃ head, Holds h t c head .published
  | _ => True

/-- `2 ^ k` is the size of the ring and `f` gives the position of every thread. -/
structure Inv (k : ℕ) (consumer : Tid) (m : Mem V) (f : Tid → Pc V) (h : History V Tid) : Prop where
  head : m.head = BitVec.ofNat 64 h.claimed.length
  tail : m.tail = BitVec.ofNat 64 (h.recycled + (f consumer).taking)
  window : h.claimed.length ≤ h.recycled + 2 ^ k
  popped : h.popped = (h.claimed.take (h.recycled + (f consumer).taken)).map fun c => some c.2
  returned : h.popped = h.returned ++ (f consumer).item
  ready : ∀ p < h.recycled + (f consumer).taking, (h.phase p).ready = true
  /-- A slot of the current lap has the sequence of its position, plus one once it is published. -/
  sequence : ∀ p, h.recycled ≤ p → p < h.recycled + 2 ^ k →
    (m.buffer (cell 64 k p)).sequence = BitVec.ofNat 64 (p + (h.phase p).ready.toNat)
  data : ∀ p c, h.recycled + (f consumer).taken ≤ p → (h.phase p).ready = true →
    h.claimed[p]? = some c → (m.buffer (cell 64 k p)).data = some c.2
  fresh : ∀ p, h.phase p = .unclaimed ↔ h.claimed.length ≤ p
  owns : ∀ t, Owns k m h t (f t)
  owned : ∀ p, (h.phase p).pending = true → ∃ t, h.position t = p ∧ (f t).stage = some (h.phase p)
  solo : ∀ t, (f t).popping = true → t = consumer
  tailLocal : ∀ tail, (f consumer).tail = some tail → tail = BitVec.ofNat 64 h.recycled

variable {k : ℕ} {consumer t : Tid} {m m' : Mem V} {f : Tid → Pc V} {h h' : History V Tid}
  {pc pc' : Pc V} {c : Push V} {head : U64}

theorem Inv.init [DecidableEq Tid] (hk : k ≤ 64) :
    Inv k consumer (.init : Mem V) (fun _ => .idle) (.init : History V Tid) where
  head := rfl
  tail := rfl
  window := Nat.zero_le _
  popped := rfl
  returned := rfl
  ready p hp := absurd hp (Nat.not_lt_zero p)
  sequence p _ hp := by
    refine BitVec.eq_of_toNat_eq ?_
    have hlt : 2 ^ k ≤ 2 ^ 64 := Nat.pow_le_pow_right (by omega) hk
    have hp' : p < 2 ^ k := by simpa [History.init] using hp
    rw [show ((Mem.init : Mem V).buffer (cell 64 k p)).sequence = cell 64 k p from rfl,
      cell_toNat hk, BitVec.toNat_ofNat, Nat.mod_eq_of_lt hp']
    exact (Nat.mod_eq_of_lt (by omega)).symm
  data _ _ _ h := nomatch h
  fresh p := iff_of_true rfl (Nat.zero_le p)
  owns _ := trivial
  owned _ h := nomatch h
  solo _ h := nomatch h
  tailLocal _ h := nomatch h

/-! ### Writing to a slot -/

theorem setSlot_self (p : ℕ) (slot : Slot V) :
    (m.setSlot (ringMask k) (BitVec.ofNat 64 p) slot).buffer (cell 64 k p) = slot :=
  Function.update_self ..

theorem setSlot_of_ne {i : U64} {p : ℕ} (slot : Slot V) (hne : i ≠ cell 64 k p) :
    (m.setSlot (ringMask k) (BitVec.ofNat 64 p) slot).buffer i = m.buffer i :=
  Function.update_of_ne hne ..

theorem setSequence_data (p : ℕ) (v i : U64) :
    ((m.setSequence (ringMask k) (BitVec.ofNat 64 p) v).buffer i).data = (m.buffer i).data := by
  by_cases hi : i = cell 64 k p
  · rw [hi, Mem.setSequence, setSlot_self]
    rfl
  · rw [Mem.setSequence, setSlot_of_ne _ hi]

theorem setData_sequence (p : ℕ) (d : Option V) (i : U64) :
    ((m.setData (ringMask k) (BitVec.ofNat 64 p) d).buffer i).sequence = (m.buffer i).sequence := by
  by_cases hi : i = cell 64 k p
  · rw [hi, Mem.setData, setSlot_self]
    rfl
  · rw [Mem.setData, setSlot_of_ne _ hi]

/-- Writing to a slot what it contains changes nothing. -/
theorem setSequence_eq (p : ℕ) {v : U64} (hv : (m.buffer (cell 64 k p)).sequence = v) :
    m.setSequence (ringMask k) (BitVec.ofNat 64 p) v = m := by
  subst hv
  rw [Mem.setSequence, Mem.setSlot]
  congr
  exact Function.update_eq_self _ _

/-! ### Consequences -/

theorem Inv.claimed_of_ready (h' : Inv k consumer m f h) {p : ℕ} (hp : (h.phase p).ready = true) :
    p < h.claimed.length := by
  by_contra hle
  rw [(h'.fresh p).mpr (Nat.le_of_not_lt hle)] at hp
  cases hp

theorem Inv.taking_le (h' : Inv k consumer m f h) :
    h.recycled + (f consumer).taking ≤ h.claimed.length := by
  rcases Nat.eq_zero_or_pos (h.recycled + (f consumer).taking) with hzero | hpos
  · omega
  · have := h'.claimed_of_ready (h'.ready (h.recycled + (f consumer).taking - 1) (by omega))
    omega

/-- A claim that is not published lies between the consumer and the end of the lap. -/
theorem Inv.in_window (h' : Inv k consumer m f h) {p : ℕ} (hp : p < h.claimed.length)
    (hready : (h.phase p).ready = false) :
    h.recycled + (f consumer).taking ≤ p ∧ p < h.recycled + 2 ^ k := by
  have hwindow := h'.window
  refine ⟨?_, by omega⟩
  by_contra hlt
  rw [h'.ready p (by omega)] at hready
  cases hready

theorem Holds.lt {ph : Phase} (hh : Holds h t c head ph) : h.position t < h.claimed.length :=
  (List.getElem?_eq_some_iff.mp hh.claim).1

/-- The CAS on `head_` cannot win while the ring is full. -/
theorem Inv.room (h' : Inv k consumer m f h) (hpos : 1 ≤ k) (hk : k ≤ 63)
    (hfree : (m.buffer (cell 64 k h.claimed.length)).sequence = BitVec.ofNat 64 h.claimed.length) :
    h.claimed.length < h.recycled + 2 ^ k := by
  by_contra hfull
  have heq : h.claimed.length = h.recycled + 2 ^ k := le_antisymm h'.window (Nat.le_of_not_lt hfull)
  have h63 : 2 ^ k ≤ 2 ^ 63 := Nat.pow_le_pow_right (by omega) hk
  have h1 : 2 ^ 1 ≤ 2 ^ k := Nat.pow_le_pow_right (by omega) hpos
  rw [heq, cell_add (by omega), h'.sequence h.recycled le_rfl (by omega)] at hfree
  have := ofNat_inj (r := h.recycled) (by omega)
    (by have := Bool.toNat_le (h.phase h.recycled).ready; omega) (by omega) (by omega) hfree
  have := Bool.toNat_le (h.phase h.recycled).ready
  omega

/-- What a producer knows survives a step that leaves its position and its slot. -/
theorem Owns.frame (ho : Owns k m h t pc) (hpos : h'.position t = h.position t)
    (hclaim : ∀ x, h.claimed[h.position t]? = some x → h'.claimed[h.position t]? = some x)
    (hphase : ∀ v, h.claimed[h.position t]? = some (t, v) →
      h'.phase (h.position t) = h.phase (h.position t))
    (hdata : ∀ v, h.claimed[h.position t]? = some (t, v) → h.phase (h.position t) = .accepted →
      (m'.buffer (cell 64 k (h.position t))).data = (m.buffer (cell 64 k (h.position t))).data) :
    Owns k m' h' t pc := by
  have hholds : ∀ {c head ph}, Holds h t c head ph → Holds h' t c head ph := by
    intro c head ph hh
    refine ⟨by rw [hpos]; exact hh.head, by rw [hpos]; exact hclaim _ hh.claim, ?_⟩
    rw [hpos, hphase _ hh.claim, hh.phase]
  cases pc with
  | pushClosed c head => exact hholds ho
  | pushRevert c head => exact hholds ho
  | pushData c head => exact hholds ho
  | pushPublish c head =>
      refine ⟨hholds ho.1, ?_⟩
      rw [hpos, hdata _ ho.1.claim ho.1.phase]
      exact ho.2
  | pushSize c =>
      obtain ⟨head, hh⟩ := ho
      exact ⟨head, hholds hh⟩
  | _ => trivial

theorem owns_of_stage (hstage : pc.stage = none) : Owns k m h t pc := by
  cases pc <;> first | exact trivial | cases hstage

theorem taken_le (pc : Pc V) : pc.taken ≤ pc.taking := by
  cases pc <;> first | exact Nat.le_refl _ | exact Nat.zero_le _

end Psync.MPSCQueue
