import Psync.SpscModel
import Psync.MpscHistory
import Psync.RunGuard
import Psync.RunQueue

/-! The queue is a bounded first-in first-out queue with exact answers. The two indices count the
pushes and the pops, each side's copy of the other index is behind it, and so a side that believes
its copy only ever underestimates what it may do: in the order of the true positions,
`tail_cached ≤ tail ≤ head_cached ≤ head ≤ tail_cached + capacity`. -/

namespace Psync.SPSCQueue

open Concurrency MachineWord
open MPSCQueue (ringBits ringMask ringBits_pos ringBits_le maskOf_eq)

set_option linter.unusedSectionVars false

variable {V Tid : Type*} [DecidableEq Tid] {k : ℕ}

/-! ### Words and positions -/

theorem slot_ofNat (m : Mem V) (p : ℕ) :
    m.slot (ringMask k) (BitVec.ofNat 64 p) = m.buffer (cell 64 k p) := rfl

theorem setSlot_self (m : Mem V) (p : ℕ) (slot : Slot V) :
    (m.setSlot (ringMask k) (BitVec.ofNat 64 p) slot).buffer (cell 64 k p) = slot :=
  Function.update_self ..

theorem setSlot_of_ne (m : Mem V) {i : U64} {p : ℕ} (slot : Slot V) (hne : i ≠ cell 64 k p) :
    (m.setSlot (ringMask k) (BitVec.ofNat 64 p) slot).buffer i = m.buffer i :=
  Function.update_of_ne hne ..

theorem toNat_sub_ofNat {p q : ℕ} (hle : q ≤ p) (hlt : p - q < 2 ^ 64) :
    (BitVec.ofNat 64 p - BitVec.ofNat 64 q).toNat = p - q := by
  have hp : BitVec.ofNat 64 p = BitVec.ofNat 64 (p - q) + BitVec.ofNat 64 q := by
    rw [← BitVec.ofNat_add, Nat.sub_add_cancel hle]
  rw [hp, BitVec.add_sub_cancel, BitVec.toNat_ofNat, Nat.mod_eq_of_lt hlt]

/-- The unsigned comparison of two positions at most one lap apart finds out whether they are. -/
theorem full_iff (hk : k ≤ 63) {p q : ℕ} (hle : q ≤ p) (hlap : p ≤ q + 2 ^ k) :
    full (ringMask k) (BitVec.ofNat 64 p) (BitVec.ofNat 64 q) ↔ p = q + 2 ^ k := by
  have hpow : 2 ^ k ≤ 2 ^ 63 := Nat.pow_le_pow_right (by omega) hk
  have hpos := Nat.two_pow_pos k
  rw [full, BitVec.lt_def, toNat_sub_ofNat hle (by omega), ringMask, BitVec.toNat_ofNat,
    Nat.mod_eq_of_lt (by omega)]
  omega

/-! ### The invariant -/

/-- The producer has found room for one more item. -/
def Pc.claiming : Pc V → Bool
  | .pushConstruct .. | .pushStore .. => true
  | _ => false

/-- The consumer has found an item. -/
def Pc.taking : Pc V → Bool
  | .popMove _ | .popDestroy .. | .popStore .. => true
  | _ => false

/-- What the producer has put into the next free slot. -/
def Pc.back : Pc V → Slot V
  | .pushStore value _ => .live value
  | _ => .raw

/-- What the consumer has made of the first item. -/
def Pc.front : Pc V → V → Slot V
  | .popDestroy .. => fun _ => .moved
  | .popStore .. => fun _ => .raw
  | _ => .live

/-- The thread is in `try_push`. -/
def Pc.pushing : Pc V → Bool
  | .pushHead _ | .pushTail .. | .pushConstruct .. | .pushStore .. => true
  | _ => false

/-- The thread is in `try_pop`. -/
def Pc.popping : Pc V → Bool
  | .popTail | .popHead _ | .popMove _ | .popDestroy .. | .popStore .. => true
  | _ => false

/-- A thread's copy of its own index, and the value it has moved out. -/
def Local (h : History V) : Pc V → Prop
  | .pushTail _ head | .pushConstruct _ head | .pushStore _ head =>
      head = BitVec.ofNat 64 h.pushed.length
  | .popHead tail | .popMove tail => tail = BitVec.ofNat 64 h.popped.length
  | .popDestroy tail out | .popStore tail out => tail = BitVec.ofNat 64 h.popped.length ∧
      (h.pushed.map some)[h.popped.length]? = some out
  | _ => True

structure Inv (k : ℕ) (producer consumer : Tid) (m : Mem V) (f : Tid → Pc V) (h : History V) :
    Prop where
  producer_only : ∀ t, (f t).pushing = true → t = producer
  consumer_only : ∀ t, (f t).popping = true → t = consumer
  owns : ∀ t, Local h (f t)
  head : m.head = BitVec.ofNat 64 h.pushed.length
  tail : m.tail = BitVec.ofNat 64 h.popped.length
  tailCached : ∃ c, m.tailCached = BitVec.ofNat 64 c ∧ c ≤ h.popped.length ∧
    h.pushed.length + (f producer).claiming.toNat ≤ c + 2 ^ k
  headCached : ∃ c, m.headCached = BitVec.ofNat 64 c ∧ c ≤ h.pushed.length ∧
    h.popped.length + (f consumer).taking.toNat ≤ c
  order : h.popped <+: h.pushed.map some
  /-- The slots of the current lap: the first item, the others, the next free slot and the rest. -/
  front : ∀ v, h.pushed[h.popped.length]? = some v →
    m.buffer (cell 64 k h.popped.length) = (f consumer).front v
  queued : ∀ p v, h.pushed[p]? = some v → h.popped.length < p → m.buffer (cell 64 k p) = .live v
  back : h.pushed.length < h.popped.length + 2 ^ k →
    m.buffer (cell 64 k h.pushed.length) = (f producer).back
  free : ∀ p, h.pushed.length < p → p < h.popped.length + 2 ^ k → m.buffer (cell 64 k p) = .raw

variable {producer consumer t : Tid} {m m' : Mem V} {f : Tid → Pc V} {h h' : History V} {pc : Pc V}

theorem Inv.init : Inv k producer consumer (.init : Mem V) (fun _ => .idle) ⟨[], []⟩ where
  producer_only _ h := nomatch h
  consumer_only _ h := nomatch h
  owns _ := trivial
  head := rfl
  tail := rfl
  tailCached := ⟨0, rfl, le_rfl, Nat.zero_le _⟩
  headCached := ⟨0, rfl, le_rfl, le_rfl⟩
  order := List.nil_prefix
  front _ h := nomatch h
  queued _ _ h := nomatch h
  back _ := rfl
  free _ _ _ := rfl

theorem Inv.lap (hinv : Inv k producer consumer m f h) :
    h.popped.length ≤ h.pushed.length ∧ h.pushed.length ≤ h.popped.length + 2 ^ k := by
  obtain ⟨c, -, hc, hroom⟩ := hinv.tailCached
  obtain ⟨d, -, hd, htaken⟩ := hinv.headCached
  omega

theorem idle_of_not (hpush : pc.pushing = false) : pc.claiming = false ∧ pc.back = .raw := by
  cases pc <;> first | exact ⟨rfl, rfl⟩ | cases hpush

theorem back_of_not (hclaiming : pc.claiming = false) : pc.back = .raw := by
  cases pc <;> first | rfl | cases hclaiming

theorem front_of_not (htaking : pc.taking = false) : pc.front = Slot.live := by
  cases pc <;> first | rfl | cases htaking

theorem Inv.producer_only_update (hinv : Inv k producer consumer m f h)
    (hpush : pc.pushing = true → t = producer) :
    ∀ u, (Function.update f t pc u).pushing = true → u = producer := by
  rw [Function.forall_update_iff f fun u pc => pc.pushing = true → u = producer]
  exact ⟨hpush, fun u _ => hinv.producer_only u⟩

theorem Inv.consumer_only_update (hinv : Inv k producer consumer m f h)
    (hpop : pc.popping = true → t = consumer) :
    ∀ u, (Function.update f t pc u).popping = true → u = consumer := by
  rw [Function.forall_update_iff f fun u pc => pc.popping = true → u = consumer]
  exact ⟨hpop, fun u _ => hinv.consumer_only u⟩

theorem Inv.owns_update (hinv : Inv k producer consumer m f h) (hlocal : Local h pc) :
    ∀ u, Local h (Function.update f t pc u) := by
  rw [Function.forall_update_iff f fun _ pc => Local h pc]
  exact ⟨hlocal, fun u _ => hinv.owns u⟩

/-- A step that leaves the two indices and the buffer. -/
theorem Inv.quiet (hinv : Inv k producer consumer m f h) (hhead : m'.head = m.head)
    (htail : m'.tail = m.tail) (hbuffer : m'.buffer = m.buffer)
    (hpush : pc.pushing = true → t = producer) (hpop : pc.popping = true → t = consumer)
    (hlocal : Local h pc) (hfront : pc.front = (f t).front) (hback : pc.back = (f t).back)
    (htailCached : ∃ c, m'.tailCached = BitVec.ofNat 64 c ∧ c ≤ h.popped.length ∧
      h.pushed.length + (Function.update f t pc producer).claiming.toNat ≤ c + 2 ^ k)
    (hheadCached : ∃ c, m'.headCached = BitVec.ofNat 64 c ∧ c ≤ h.pushed.length ∧
      h.popped.length + (Function.update f t pc consumer).taking.toNat ≤ c) :
    Inv k producer consumer m' (Function.update f t pc) h where
  producer_only := hinv.producer_only_update hpush
  consumer_only := hinv.consumer_only_update hpop
  owns := hinv.owns_update hlocal
  head := hhead.trans hinv.head
  tail := htail.trans hinv.tail
  tailCached := htailCached
  headCached := hheadCached
  order := hinv.order
  front := by
    rw [hbuffer, apply_update_same (g := Pc.front) hfront]
    exact hinv.front
  queued := by
    rw [hbuffer]
    exact hinv.queued
  back := by
    rw [hbuffer, apply_update_same (g := Pc.back) hback]
    exact hinv.back
  free := by
    rw [hbuffer]
    exact hinv.free

/-! ### The steps of the producer -/

theorem Inv.construct {value : V} {head : U64} (hinv : Inv k producer consumer m f h) (hk : k ≤ 63)
    (hpc : f t = .pushConstruct value head) :
    Inv k producer consumer (m.setSlot (ringMask k) head (.live value))
      (Function.update f t (.pushStore value head)) h := by
  obtain rfl := hinv.producer_only t (by rw [hpc]; rfl)
  have hhead : head = BitVec.ofNat 64 h.pushed.length := by
    have := hinv.owns t
    rwa [hpc] at this
  obtain ⟨c, hcached, hc, hroom⟩ := hinv.tailCached
  have hlap := hinv.lap
  rw [hpc] at hroom
  have hother : ∀ p, h.popped.length ≤ p → p < h.popped.length + 2 ^ k → p ≠ h.pushed.length →
      (m.setSlot (ringMask k) head (.live value)).buffer (cell 64 k p) = m.buffer (cell 64 k p) := by
    intro p hp hp' hne
    rw [hhead]
    refine setSlot_of_ne m _ fun hcell => hne ?_
    exact cell_inj (by omega) hp hp' hlap.1 (by simp only [Pc.claiming, Bool.toNat_true] at hroom; omega)
      hcell
  refine ⟨hinv.producer_only_update fun _ => rfl, hinv.consumer_only_update nofun,
    hinv.owns_update hhead, hinv.head, hinv.tail, ⟨c, hcached, hc, ?_⟩, ?_, hinv.order,
    fun v hv => ?_, fun p v hv hp => ?_, fun hlt => ?_, fun p hp hp' => ?_⟩
  · rw [Function.update_self]
    exact hroom
  · rw [apply_update_same (g := Pc.taking) (by rw [hpc]; rfl)]
    exact hinv.headCached
  · have hlt := (List.getElem?_eq_some_iff.mp hv).1
    rw [hother _ le_rfl (by have := Nat.two_pow_pos k; omega) (by omega),
      apply_update_same (g := Pc.front) (by rw [hpc]; rfl)]
    exact hinv.front v hv
  · have hlt := (List.getElem?_eq_some_iff.mp hv).1
    rw [hother p hp.le (by omega) (by omega)]
    exact hinv.queued p v hv hp
  · rw [Function.update_self, hhead]
    exact setSlot_self m _ _
  · rw [hother p (by omega) hp' (by omega)]
    exact hinv.free p hp hp'

/-- The copies of the threads that do not push outlive a push. -/
theorem Local.push {value : V} (hlocal : Local h pc) (hpush : pc.pushing ≠ true) :
    Local { h with pushed := h.pushed ++ [value] } pc := by
  cases pc with
  | pushTail value head | pushConstruct value head | pushStore value head => exact absurd rfl hpush
  | popDestroy tail out | popStore tail out =>
      obtain ⟨htail, hout⟩ := hlocal
      refine ⟨htail, ?_⟩
      rw [List.map_append]
      exact List.getElem?_append_left (List.getElem?_eq_some_iff.mp hout).1 |>.trans hout
  | _ => exact hlocal

/-- The store to `head_` accepts the item. -/
theorem Inv.publish {value : V} {head : U64} (hinv : Inv k producer consumer m f h)
    (hpc : f t = .pushStore value head) :
    Inv k producer consumer { m with head := head + 1 } (Function.update f t (.pushed true))
      { h with pushed := h.pushed ++ [value] } := by
  obtain rfl := hinv.producer_only t (by rw [hpc]; rfl)
  have hhead : head = BitVec.ofNat 64 h.pushed.length := by
    have := hinv.owns t
    rwa [hpc] at this
  obtain ⟨c, hcached, hc, hroom⟩ := hinv.tailCached
  obtain ⟨d, hcached', hd, htaken⟩ := hinv.headCached
  have hlap := hinv.lap
  rw [hpc] at hroom
  simp only [Pc.claiming, Bool.toNat_true] at hroom
  have hfront : ∀ u, ((Function.update f t (.pushed true)) u).front = (f u).front :=
    apply_update_same (g := Pc.front) (by rw [hpc]; rfl)
  have hback := hinv.back (by omega)
  rw [hpc] at hback
  refine ⟨hinv.producer_only_update nofun, hinv.consumer_only_update nofun, fun u => ?_, ?_, hinv.tail,
    ⟨c, hcached, hc, ?_⟩, ⟨d, hcached', ?_, ?_⟩, ?_, fun v hv => ?_, fun p v hv hp => ?_,
    fun hlt => ?_, fun p hp hp' => ?_⟩
  · rw [Function.update_apply]
    split_ifs with hut
    · trivial
    · exact (hinv.owns u).push fun hpush => hut (hinv.producer_only u hpush)
  · rw [List.length_append, hhead]
    exact (ofNat_succ _).symm
  · rw [Function.update_self, List.length_append]
    simp only [Pc.claiming, Bool.toNat_false, List.length_singleton]
    omega
  · rw [List.length_append]
    omega
  · rw [apply_update_same (g := Pc.taking) (by rw [hpc]; rfl)]
    exact htaken
  · rw [List.map_append]
    exact hinv.order.trans (List.prefix_append _ _)
  · rw [hfront]
    rcases Nat.lt_or_ge h.popped.length h.pushed.length with hlt | hge
    · rw [List.getElem?_append_left hlt] at hv
      exact hinv.front v hv
    · -- the ring was empty, and so the consumer has not begun with the new item
      have heq : h.popped.length = h.pushed.length := by omega
      rw [heq, List.getElem?_concat_length] at hv
      obtain rfl := Option.some.inj hv
      have hidle : (f consumer).taking = false := by
        cases hq : (f consumer).taking with
        | false => rfl
        | true =>
            rw [hq] at htaken
            simp only [Bool.toNat_true] at htaken
            omega
      rw [heq, hback, front_of_not hidle]
      rfl
  · rcases Nat.lt_or_ge p h.pushed.length with hlt | hge
    · rw [List.getElem?_append_left hlt] at hv
      exact hinv.queued p v hv hp
    · have hlt := (List.getElem?_eq_some_iff.mp hv).1
      simp only [List.length_append, List.length_singleton] at hlt
      obtain rfl : p = h.pushed.length := by omega
      rw [List.getElem?_concat_length] at hv
      obtain rfl := Option.some.inj hv
      exact hback
  · simp only [List.length_append, List.length_singleton] at hlt ⊢
    rw [Function.update_self]
    exact hinv.free _ (Nat.lt_succ_self _) hlt
  · simp only [List.length_append, List.length_singleton] at hp
    exact hinv.free p (by omega) hp'

/-! ### The steps of the consumer -/

/-- A consumer that has found an item is at a true position. -/
theorem Inv.taking_lt (hinv : Inv k producer consumer m f h) (htaking : (f consumer).taking = true) :
    h.popped.length < h.pushed.length := by
  obtain ⟨c, -, hc, htaken⟩ := hinv.headCached
  rw [htaking] at htaken
  simp only [Bool.toNat_true] at htaken
  omega

/-- The move and the destructor change the first slot. -/
theorem Inv.rework {tail : U64} {slot : Slot V} (hinv : Inv k producer consumer m f h) (hk : k ≤ 63)
    (hpop : (f t).popping = true) (hold : (f t).taking = true) (hnew : pc.taking = true)
    (htail : tail = BitVec.ofNat 64 h.popped.length) (hlocal : Local h pc)
    (hslot : pc.front = fun _ => slot) (hpush : pc.pushing = false) :
    Inv k producer consumer (m.setSlot (ringMask k) tail slot) (Function.update f t pc) h := by
  obtain rfl := hinv.consumer_only t hpop
  have hlap := hinv.lap
  have hlt := hinv.taking_lt hold
  have hidle : (f t).pushing = false := by
    generalize f t = pc at hpop
    cases pc <;> first | rfl | cases hpop
  have hother : ∀ p, h.popped.length ≤ p → p < h.popped.length + 2 ^ k → p ≠ h.popped.length →
      (m.setSlot (ringMask k) tail slot).buffer (cell 64 k p) = m.buffer (cell 64 k p) := by
    intro p hp hp' hne
    rw [htail]
    refine setSlot_of_ne m _ fun hcell => hne ?_
    exact cell_inj (by omega) hp hp' le_rfl (by have := Nat.two_pow_pos k; omega) hcell
  have hnever : pc.pushing = true → t = producer := by
    rw [hpush]
    exact nofun
  refine ⟨hinv.producer_only_update hnever, hinv.consumer_only_update fun _ => rfl,
    hinv.owns_update hlocal, hinv.head, hinv.tail, ?_, ?_, hinv.order, fun v hv => ?_,
    fun p v hv hp => ?_, fun hroom => ?_, fun p hp hp' => ?_⟩
  · rw [apply_update_same (g := Pc.claiming)
      ((idle_of_not hpush).1.trans (idle_of_not hidle).1.symm)]
    exact hinv.tailCached
  · rw [apply_update_same (g := Pc.taking) (hnew.trans hold.symm)]
    exact hinv.headCached
  · rw [Function.update_self, hslot, htail]
    exact setSlot_self m _ _
  · have hlt' := (List.getElem?_eq_some_iff.mp hv).1
    rw [hother p hp.le (by omega) (by omega)]
    exact hinv.queued p v hv hp
  · rw [hother _ (by omega) (by omega) (by omega),
      apply_update_same (g := Pc.back) ((idle_of_not hpush).2.trans (idle_of_not hidle).2.symm)]
    exact hinv.back hroom
  · rw [hother p (by omega) hp' (by omega)]
    exact hinv.free p hp hp'

/-- The copies of the threads that do not pop outlive a pop. -/
theorem Local.pop {out : Option V} (hlocal : Local h pc) (hpop : pc.popping ≠ true) :
    Local { h with popped := h.popped ++ [out] } pc := by
  cases pc with
  | popHead tail | popMove tail => exact absurd rfl hpop
  | popDestroy tail out | popStore tail out => exact absurd rfl hpop
  | _ => exact hlocal

/-- The store to `tail_` hands the slot to the next lap. -/
theorem Inv.release {tail : U64} {out : Option V} (hinv : Inv k producer consumer m f h) (hk : k ≤ 63)
    (hpc : f t = .popStore tail out) :
    Inv k producer consumer { m with tail := tail + 1 } (Function.update f t (.popped (some out)))
      { h with popped := h.popped ++ [out] } := by
  obtain rfl := hinv.consumer_only t (by rw [hpc]; rfl)
  obtain ⟨htail, hout⟩ : tail = BitVec.ofNat 64 h.popped.length ∧
      (h.pushed.map some)[h.popped.length]? = some out := by
    have := hinv.owns t
    rwa [hpc] at this
  obtain ⟨c, hcached, hc, hroom⟩ := hinv.tailCached
  obtain ⟨d, hcached', hd, htaken⟩ := hinv.headCached
  have hlap := hinv.lap
  have hlt := hinv.taking_lt (by rw [hpc]; rfl)
  rw [hpc] at htaken
  simp only [Pc.taking, Bool.toNat_true] at htaken
  have hback : ∀ u, ((Function.update f t (.popped (some out))) u).back = (f u).back :=
    apply_update_same (g := Pc.back) (by rw [hpc]; rfl)
  have hclaiming : ∀ u, ((Function.update f t (.popped (some out))) u).claiming = (f u).claiming :=
    apply_update_same (g := Pc.claiming) (by rw [hpc]; rfl)
  -- the slot that the consumer leaves is raw, and the last one of the new lap
  have hraw : m.buffer (cell 64 k (h.popped.length + 2 ^ k)) = .raw := by
    rw [cell_add (by omega)]
    have hfront := hinv.front h.pushed[h.popped.length] (List.getElem?_eq_getElem hlt)
    rwa [hpc] at hfront
  refine ⟨hinv.producer_only_update nofun, hinv.consumer_only_update nofun, fun u => ?_, hinv.head, ?_,
    ⟨c, hcached, ?_, ?_⟩, ⟨d, hcached', hd, ?_⟩, ?_, fun v hv => ?_, fun p v hv hp => ?_,
    fun hroom' => ?_, fun p hp hp' => ?_⟩
  · rw [Function.update_apply]
    split_ifs with hut
    · trivial
    · exact (hinv.owns u).pop fun hpop => hut (hinv.consumer_only u hpop)
  · rw [List.length_append, htail]
    exact (ofNat_succ _).symm
  · rw [List.length_append]
    omega
  · rw [hclaiming]
    exact hroom
  · rw [Function.update_self, List.length_append]
    simp only [Pc.taking, Bool.toNat_false, List.length_singleton]
    omega
  · obtain ⟨rest, hrest⟩ := hinv.order
    rw [← hrest, List.getElem?_append_right le_rfl, Nat.sub_self] at hout
    obtain ⟨tl, rfl⟩ := List.head?_eq_some_iff.mp (List.head?_eq_getElem? ▸ hout)
    exact ⟨tl, by rw [List.append_assoc, List.singleton_append, hrest]⟩
  · simp only [List.length_append, List.length_singleton] at hv ⊢
    rw [Function.update_self]
    exact hinv.queued _ v hv (Nat.lt_succ_self _)
  · simp only [List.length_append, List.length_singleton] at hp
    exact hinv.queued p v hv (by omega)
  · simp only [List.length_append, List.length_singleton] at hroom'
    rw [hback]
    rcases Nat.lt_or_ge h.pushed.length (h.popped.length + 2 ^ k) with hlt' | hge
    · exact hinv.back hlt'
    · -- the ring was full, and so the producer has not begun with the slot
      have heq : h.pushed.length = h.popped.length + 2 ^ k := by omega
      have hidle : (f producer).back = .raw := by
        generalize f producer = pc at hroom
        cases pc with
        | pushStore value head =>
            simp only [Pc.claiming, Bool.toNat_true] at hroom
            omega
        | _ => rfl
      rw [heq, hraw, hidle]
  · simp only [List.length_append, List.length_singleton] at hp'
    rcases Nat.lt_or_ge p (h.popped.length + 2 ^ k) with hlt' | hge
    · exact hinv.free p hp hlt'
    · obtain rfl : p = h.popped.length + 2 ^ k := by omega
      exact hraw

/-! ### Runs -/

/-- How the history grows in a step. -/
def History.step (h : History V) (l : Label V) (pc : Pc V) : History V :=
  match l, pc with
  | .run, .pushStore value _ => { h with pushed := h.pushed ++ [value] }
  | .run, .popStore _ out => { h with popped := h.popped ++ [out] }
  | _, _ => h

theorem record_step {s s' : State V Tid} {l : Label V} :
    record h s (.step t l) s' = h.step l (s.thread t) := by
  cases l with
  | run =>
      simp only [record]
      generalize s.thread t = pc
      cases pc <;> rfl
  | _ => rfl

variable (t pc) in
/-- Both copies as they are, for a thread that does not begin to claim or to take. -/
theorem Inv.copies (hinv : Inv k producer consumer m f h) (hclaiming : pc.claiming = (f t).claiming)
    (htaking : pc.taking = (f t).taking) :
    (∃ c, m.tailCached = BitVec.ofNat 64 c ∧ c ≤ h.popped.length ∧
      h.pushed.length + (Function.update f t pc producer).claiming.toNat ≤ c + 2 ^ k) ∧
    ∃ c, m.headCached = BitVec.ofNat 64 c ∧ c ≤ h.pushed.length ∧
      h.popped.length + (Function.update f t pc consumer).taking.toNat ≤ c := by
  rw [apply_update_same (g := Pc.claiming) hclaiming, apply_update_same (g := Pc.taking) htaking]
  exact ⟨hinv.tailCached, hinv.headCached⟩

/-- The producer compares its index with a copy of the other one. -/
theorem claim_of_compare {c : ℕ} {value : V} {head : U64} {other : Pc V} (hk : k ≤ 63)
    (hhead : head = BitVec.ofNat 64 h.pushed.length) (hc : c ≤ h.popped.length)
    (hlap : h.popped.length ≤ h.pushed.length) (hroom : h.pushed.length ≤ c + 2 ^ k)
    (hfull : other.claiming = false) :
    h.pushed.length + (if full (ringMask k) head (BitVec.ofNat 64 c) then other
      else .pushConstruct value head).claiming.toNat ≤ c + 2 ^ k := by
  rw [hhead]
  split_ifs with hcompare
  · rw [hfull]
    exact hroom
  · rw [full_iff hk (by omega) hroom] at hcompare
    simp only [Pc.claiming, Bool.toNat_true]
    omega

/-- The consumer compares its index with a copy of the other one. -/
theorem take_of_compare {c : ℕ} {tail : U64} {other : Pc V}
    (htail : tail = BitVec.ofNat 64 h.popped.length) (hc : h.popped.length ≤ c) (hempty : other.taking = false) :
    h.popped.length + (if tail = BitVec.ofNat 64 c then other else .popMove tail).taking.toNat ≤ c := by
  rw [htail]
  split_ifs with hcompare
  · rw [hempty]
    exact hc
  · have hne : h.popped.length ≠ c := fun heq => hcompare (congrArg _ heq)
    simp only [Pc.taking, Bool.toNat_true]
    omega

/-- The producer keeps a copy of the consumer's index and goes on if it shows a free slot. -/
theorem Inv.compare_full (value : V) {c : ℕ} {head : U64} {other : Pc V}
    (hinv : Inv k producer consumer m f h) (hk : k ≤ 63) (hclaiming : (f producer).claiming = false)
    (htaking : (f producer).taking = false) (hhead : head = BitVec.ofNat 64 h.pushed.length)
    (hc : c ≤ h.popped.length) (hroom : h.pushed.length ≤ c + 2 ^ k) (hother : Local h other)
    (hstays : other.claiming = false) (hpopping : other.popping = false) (hnone : other.taking = false) :
    Inv k producer consumer { m with tailCached := BitVec.ofNat 64 c } (Function.update f producer
      (if full (ringMask k) head (BitVec.ofNat 64 c) then other else .pushConstruct value head)) h := by
  have hback := back_of_not hclaiming
  have hfront := front_of_not htaking
  refine hinv.quiet rfl rfl rfl (fun _ => rfl) ?_ ?_ ?_ ?_ ⟨c, rfl, hc, ?_⟩ ?_
  · split_ifs
    · rw [hpopping]
      exact nofun
    · exact nofun
  · split_ifs
    · exact hother
    · exact hhead
  · split_ifs
    · rw [hfront, front_of_not hnone]
    · exact hfront.symm
  · split_ifs
    · rw [hback, back_of_not hstays]
    · exact hback.symm
  · rw [Function.update_self]
    exact claim_of_compare hk hhead hc hinv.lap.1 hroom hstays
  · rw [apply_update_same (g := Pc.taking)]
    · exact hinv.headCached
    · split_ifs
      · rw [htaking, hnone]
      · exact htaking.symm

/-- The consumer keeps a copy of the producer's index and goes on if it shows an item. -/
theorem Inv.compare_empty {c : ℕ} {tail : U64} {other : Pc V}
    (hinv : Inv k producer consumer m f h) (hclaiming : (f consumer).claiming = false)
    (htaking : (f consumer).taking = false) (htail : tail = BitVec.ofNat 64 h.popped.length)
    (hc : c ≤ h.pushed.length) (hsome : h.popped.length ≤ c) (hother : Local h other)
    (hstays : other.taking = false) (hpushing : other.pushing = false) :
    Inv k producer consumer { m with headCached := BitVec.ofNat 64 c } (Function.update f consumer
      (if tail = BitVec.ofNat 64 c then other else .popMove tail)) h := by
  have hback := back_of_not hclaiming
  have hfront := front_of_not htaking
  obtain ⟨hnone, hraw⟩ := idle_of_not hpushing
  refine hinv.quiet rfl rfl rfl ?_ (fun _ => rfl) ?_ ?_ ?_ ?_ ⟨c, rfl, hc, ?_⟩
  · split_ifs
    · rw [hpushing]
      exact nofun
    · exact nofun
  · split_ifs
    · exact hother
    · exact htail
  · split_ifs
    · rw [hfront, front_of_not hstays]
    · exact hfront.symm
  · split_ifs
    · rw [hback, hraw]
    · exact hback.symm
  · rw [apply_update_same (g := Pc.claiming)]
    · exact hinv.tailCached
    · split_ifs
      · rw [hclaiming, hnone]
      · exact hclaiming.symm
  · rw [Function.update_self]
    exact take_of_compare htail hsome hstays

theorem Inv.run (hinv : Inv k producer consumer m f h) (hk : k ≤ 63)
    (hrun : run (ringMask k) m (f t) = some (m', pc)) :
    Inv k producer consumer m' (Function.update f t pc) (h.step .run (f t)) := by
  have hlocal := hinv.owns t
  have hlap := hinv.lap
  cases hpc : f t with
  | idle =>
      rw [hpc] at hrun
      cases hrun
  | pushed result | popped result =>
      rw [hpc] at hrun
      cases hrun
      obtain ⟨hc, hd⟩ := hinv.copies t .idle (by rw [hpc]; rfl) (by rw [hpc]; rfl)
      exact hinv.quiet rfl rfl rfl nofun nofun trivial (by rw [hpc]; rfl) (by rw [hpc]; rfl) hc hd
  | pushHead value =>
      obtain rfl := hinv.producer_only t (by rw [hpc]; rfl)
      obtain ⟨c, hcached, hc, hroom⟩ := hinv.tailCached
      rw [hpc] at hroom hrun
      rw [SPSCQueue.run, hcached] at hrun
      cases hrun
      have hother : Local h (.pushTail value m.head) := hinv.head
      have hstep := hinv.compare_full value hk (by rw [hpc]; rfl) (by rw [hpc]; rfl) hinv.head hc
        hroom hother rfl rfl rfl
      rw [← hcached] at hstep ⊢
      exact hstep
  | pushTail value head =>
      obtain rfl := hinv.producer_only t (by rw [hpc]; rfl)
      rw [hpc] at hlocal hrun
      cases hrun
      have hother : Local h (.pushed false : Pc V) := trivial
      have hstep := hinv.compare_full value hk (by rw [hpc]; rfl) (by rw [hpc]; rfl) hlocal le_rfl
        hlap.2 hother rfl rfl rfl
      rw [← hinv.tail] at hstep
      exact hstep
  | pushConstruct value head =>
      rw [hpc] at hrun
      cases hrun
      exact hinv.construct hk hpc
  | pushStore value head =>
      rw [hpc] at hrun
      cases hrun
      exact hinv.publish hpc
  | popTail =>
      obtain rfl := hinv.consumer_only t (by rw [hpc]; rfl)
      obtain ⟨c, hcached, hc, htaken⟩ := hinv.headCached
      rw [hpc] at htaken hrun
      rw [SPSCQueue.run, hcached] at hrun
      cases hrun
      have hother : Local h (.popHead m.tail : Pc V) := hinv.tail
      have hstep := hinv.compare_empty (by rw [hpc]; rfl) (by rw [hpc]; rfl) hinv.tail hc htaken
        hother rfl rfl
      rw [← hcached] at hstep ⊢
      exact hstep
  | popHead tail =>
      obtain rfl := hinv.consumer_only t (by rw [hpc]; rfl)
      rw [hpc] at hlocal hrun
      cases hrun
      have hother : Local h (.popped none : Pc V) := trivial
      have hstep := hinv.compare_empty (by rw [hpc]; rfl) (by rw [hpc]; rfl) hlocal le_rfl hlap.1
        hother rfl rfl
      rw [← hinv.head] at hstep
      exact hstep
  | popMove tail =>
      rw [hpc] at hrun hlocal
      obtain rfl := hinv.consumer_only t (by rw [hpc]; rfl)
      have htail : tail = BitVec.ofNat 64 h.popped.length := hlocal
      have hlt := hinv.taking_lt (by rw [hpc]; rfl)
      have hlive := hinv.front h.pushed[h.popped.length] (List.getElem?_eq_getElem hlt)
      rw [hpc] at hlive
      cases hrun
      refine hinv.rework hk (by rw [hpc]; rfl) (by rw [hpc]; rfl) rfl htail ⟨htail, ?_⟩ rfl rfl
      rw [htail, slot_ofNat, hlive, List.getElem?_map, List.getElem?_eq_getElem hlt]
      rfl
  | popDestroy tail out =>
      rw [hpc] at hrun hlocal
      cases hrun
      exact hinv.rework hk (by rw [hpc]; rfl) (by
        obtain rfl := hinv.consumer_only t (by rw [hpc]; rfl)
        rw [hpc]
        rfl) rfl hlocal.1 hlocal rfl rfl
  | popStore tail out =>
      rw [hpc] at hrun
      cases hrun
      exact hinv.release hk hpc

theorem Inv.step {l : Label V} (hinv : Inv k producer consumer m f h) (hk : k ≤ 63)
    (hstep : step (ringMask k) (t = producer) (t = consumer) l m (f t) = some (m', pc)) :
    Inv k producer consumer m' (Function.update f t pc) (h.step l (f t)) := by
  cases l with
  | run => exact hinv.run hk hstep
  | tryPush value =>
      cases hpc : f t with
      | idle =>
          rw [hpc] at hstep
          simp only [SPSCQueue.step] at hstep
          split_ifs at hstep with hproducer
          cases hstep
          obtain ⟨hc, hd⟩ := hinv.copies t (.pushHead value) (by rw [hpc]; rfl)
            (by rw [hpc]; rfl)
          exact hinv.quiet rfl rfl rfl (fun _ => of_decide_eq_true hproducer) nofun trivial
            (by rw [hpc]; rfl) (by rw [hpc]; rfl) hc hd
      | _ =>
          rw [hpc] at hstep
          cases hstep
  | tryPop =>
      cases hpc : f t with
      | idle =>
          rw [hpc] at hstep
          simp only [SPSCQueue.step] at hstep
          split_ifs at hstep with hconsumer
          cases hstep
          obtain ⟨hc, hd⟩ := hinv.copies t .popTail (by rw [hpc]; rfl)
            (by rw [hpc]; rfl)
          exact hinv.quiet rfl rfl rfl nofun (fun _ => of_decide_eq_true hconsumer) trivial
            (by rw [hpc]; rfl) (by rw [hpc]; rfl) hc hd
      | _ =>
          rw [hpc] at hstep
          cases hstep

variable [Fintype Tid] {capacity : U64}

theorem mask_eq (capacity : U64) : maskOf capacity = ringMask (ringBits capacity) :=
  maskOf_eq capacity

theorem capacity_eq (hcap : capacity.toNat ≤ 2 ^ 63) :
    (capacityOf (maskOf capacity)).toNat = 2 ^ ringBits capacity := by
  have hk : ringBits capacity ≤ 63 := ringBits_le (by decide) hcap
  have hpow : 2 ^ ringBits capacity ≤ 2 ^ 63 := Nat.pow_le_pow_right (by omega) hk
  have hpos := Nat.two_pow_pos (ringBits capacity)
  rw [capacityOf, mask_eq, ringMask, BitVec.toNat_add, BitVec.toNat_ofNat]
  simp only [BitVec.ofNat_eq_ofNat, BitVec.toNat_ofNat]
  omega

theorem inv_of_reachable {w : State V Tid × History V} (hcap : capacity.toNat ≤ 2 ^ 63)
    (h : (observed V capacity producer consumer).Reachable anyStep w) :
    Inv (ringBits capacity) producer consumer w.1.mem w.1.thread w.2 := by
  refine h.induct (I := fun w => Inv (ringBits capacity) producer consumer w.1.mem w.1.thread w.2)
    Inv.init ?_
  intro w a w' _ ih hnext _
  obtain ⟨t, l, m, pc, rfl, hstep, rfl⟩ := Program.observed_step_of_next _ (fun _ => rfl)
    (fun _ => rfl) (fun _ => rfl) hnext
  rw [record_step]
  simp only [program, mask_eq] at hstep
  exact ih.step (ringBits_le (by decide) hcap) hstep

/-! ### The queue -/

theorem Inv.items_length (hinv : Inv k producer consumer m f h) :
    h.items.length + h.popped.length = h.pushed.length := by
  rw [History.items, List.length_drop]
  exact Nat.sub_add_cancel hinv.lap.1

/-- What a step does to the items. -/
theorem Inv.queueStep (hinv : Inv k producer consumer m f h) (l : Label V) :
    QueueStep (2 ^ k) h.items (h.step l (f t)).items := by
  have hlap := hinv.lap
  cases l with
  | run =>
      cases hpc : f t with
      | pushStore value head =>
          obtain rfl := hinv.producer_only t (by rw [hpc]; rfl)
          obtain ⟨c, -, hc, hroom⟩ := hinv.tailCached
          rw [hpc] at hroom
          simp only [Pc.claiming, Bool.toNat_true] at hroom
          exact .of_append value hlap.1 (by omega)
      | popStore tail out =>
          obtain rfl := hinv.consumer_only t (by rw [hpc]; rfl)
          have hlt := hinv.taking_lt (by rw [hpc]; rfl)
          simp only [History.items, History.step, List.length_append, List.length_singleton]
          exact .of_drop hlt
      | _ => exact .stay _
  | _ => exact .stay _

theorem Inv.construct_raw {value : V} {head : U64} (hinv : Inv k producer consumer m f h)
    (hpc : f t = .pushConstruct value head) : m.slot (ringMask k) head = .raw := by
  obtain rfl := hinv.producer_only t (by rw [hpc]; rfl)
  obtain ⟨c, -, hc, hroom⟩ := hinv.tailCached
  have hlocal := hinv.owns t
  rw [hpc] at hlocal hroom
  simp only [Pc.claiming, Bool.toNat_true] at hroom
  obtain rfl : head = BitVec.ofNat 64 h.pushed.length := hlocal
  rw [slot_ofNat, hinv.back (by omega), hpc]
  rfl

/-- The slot that the consumer works on. -/
theorem Inv.front_slot {tail : U64} (hinv : Inv k producer consumer m f h)
    (htail : tail = BitVec.ofNat 64 h.popped.length) (htaking : (f t).taking = true)
    (hpop : (f t).popping = true) : ∃ v, m.slot (ringMask k) tail = (f t).front v := by
  obtain rfl := hinv.consumer_only t hpop
  have hlt := hinv.taking_lt htaking
  refine ⟨h.pushed[h.popped.length], ?_⟩
  rw [htail, slot_ofNat]
  exact hinv.front _ (List.getElem?_eq_getElem hlt)

/-! ### Results -/

/-- The step with which `try_push` returns `false`. -/
theorem pushTail_of_run {mask : U64} (hrun : run mask m pc = some (m', .pushed false)) :
    ∃ value head, pc = .pushTail value head ∧ full mask head m.tail := by
  cases pc with
  | pushTail value head =>
      rw [SPSCQueue.run, Option.some.injEq, Prod.mk.injEq] at hrun
      obtain ⟨-, hrun⟩ := hrun
      split_ifs at hrun with hfull
      exact ⟨value, head, rfl, hfull⟩
  | pushHead | popTail | popHead =>
      rw [SPSCQueue.run, Option.some.injEq, Prod.mk.injEq] at hrun
      obtain ⟨-, hrun⟩ := hrun
      split_ifs at hrun
  | _ => cases hrun

/-- The step with which `try_push` returns `true`. -/
theorem pushStore_of_run {mask : U64} (hrun : run mask m pc = some (m', .pushed true)) :
    ∃ value head, pc = .pushStore value head := by
  cases pc with
  | pushStore value head => exact ⟨value, head, rfl⟩
  | pushTail | pushHead | popTail | popHead =>
      rw [SPSCQueue.run, Option.some.injEq, Prod.mk.injEq] at hrun
      obtain ⟨-, hrun⟩ := hrun
      split_ifs at hrun <;> cases hrun
  | _ => cases hrun

/-- The step with which `try_pop` returns `false`. -/
theorem popHead_of_run {mask : U64} (hrun : run mask m pc = some (m', .popped none)) :
    ∃ tail, pc = .popHead tail ∧ tail = m.head := by
  cases pc with
  | popHead tail =>
      rw [SPSCQueue.run, Option.some.injEq, Prod.mk.injEq] at hrun
      obtain ⟨-, hrun⟩ := hrun
      split_ifs at hrun with hempty
      exact ⟨tail, rfl, hempty⟩
  | pushTail | pushHead | popTail =>
      rw [SPSCQueue.run, Option.some.injEq, Prod.mk.injEq] at hrun
      obtain ⟨-, hrun⟩ := hrun
      split_ifs at hrun
  | _ => cases hrun

/-- The step with which `try_pop` returns `true`. -/
theorem popStore_of_run {mask : U64} {out : Option V} (hrun : run mask m pc = some (m', .popped (some out))) :
    ∃ tail, pc = .popStore tail out := by
  cases pc with
  | popStore tail out' =>
      cases hrun
      exact ⟨tail, rfl⟩
  | pushTail | pushHead | popTail | popHead =>
      rw [SPSCQueue.run, Option.some.injEq, Prod.mk.injEq] at hrun
      obtain ⟨-, hrun⟩ := hrun
      split_ifs at hrun <;> cases hrun
  | _ => cases hrun

/-- What the queue promises its two threads. -/
structure BoundedFifo (capacity : U64) (producer consumer : Tid) (w : State V Tid × History V) : Prop where
  /-- What is popped was pushed, in the same order. -/
  order : w.2.popped <+: w.2.pushed.map some
  steps : ∀ a w', (observed V capacity producer consumer).next w a = some w' →
    QueueStep (capacityOf (maskOf capacity)).toNat w.2.items w'.2.items
  /-- A slot is constructed only when it is raw, moved from only when it is live, and destroyed only after
  that. -/
  constructs : ∀ t value head, w.1.thread t = .pushConstruct value head →
    w.1.mem.slot (maskOf capacity) head = .raw
  moves : ∀ t tail, w.1.thread t = .popMove tail → ∃ v, w.1.mem.slot (maskOf capacity) tail = .live v
  destroys : ∀ t tail out, w.1.thread t = .popDestroy tail out →
    w.1.mem.slot (maskOf capacity) tail = .moved
  /-- A push that returns `true` has accepted its value. -/
  accepted : ∀ t w', (observed V capacity producer consumer).next w (.step t .run) = some w' →
    w'.1.thread t = .pushed true →
    ∃ value head, w.1.thread t = .pushStore value head ∧ w'.2.pushed = w.2.pushed ++ [value]
  /-- A pop that returns `true` has taken the item that it returns. -/
  delivered : ∀ t out w', (observed V capacity producer consumer).next w (.step t .run) = some w' →
    w'.1.thread t = .popped (some out) → w'.2.popped = w.2.popped ++ [out]
  /-- A push returns `false` only at a load of `tail_` that finds the ring full. -/
  refusedFull : ∀ t w', (observed V capacity producer consumer).next w (.step t .run) = some w' →
    w'.1.thread t = .pushed false → (∃ value head, w.1.thread t = .pushTail value head) ∧
      w.2.items.length = (capacityOf (maskOf capacity)).toNat
  /-- A pop returns `false` only at a load of `head_` that finds the ring empty. -/
  refusedEmpty : ∀ t w', (observed V capacity producer consumer).next w (.step t .run) = some w' →
    w'.1.thread t = .popped none → (∃ tail, w.1.thread t = .popHead tail) ∧ w.2.items = []

/-- Two pushes fill the ring, a third one is refused, and a pop takes the first item. -/
def fullRun : List (Act Runner (Label ℕ)) :=
  [.step .a (.tryPush 5), .step .a .run, .step .a .run, .step .a .run, .step .a .run,
    .step .a (.tryPush 6), .step .a .run, .step .a .run, .step .a .run, .step .a .run,
    .step .b .tryPop, .step .b .run, .step .b .run, .step .b .run, .step .a (.tryPush 7), .step .a .run]

end Psync.SPSCQueue
