import Psync.SpscFifo
import Psync.RunTso

/-! The queue on a processor with store buffers (x86-TSO). All its stores are plain: the objects in the slots
and the two indices wait in the buffers of the two threads, and a thread may go on with its next calls
meanwhile. The cached indices are used by their owner only, and are kept with it here.

The stores of either side are a script: memory is described by how many of them have arrived from either
side, and the view of a thread by the same description with all its own. -/

namespace Psync.SPSCQueue

open Concurrency MachineWord
open MPSCQueue (ringBits ringMask ringBits_pos ringBits_le maskOf_eq)

set_option linter.unusedSectionVars false

variable {V Tid : Type*}

/-- What the two threads share. -/
structure Ring (V : Type*) where
  head : U64
  tail : U64
  buffer : U64 → Slot V

/-- A thread with its cached copy of the other index. -/
structure Thread (V : Type*) where
  cached : U64
  pc : Pc V
  deriving DecidableEq

def Thread.at (th : Thread V) (pc : Pc V) : Thread V := { th with pc := pc }

/-- A plain store. -/
inductive Write (V : Type*)
  | slot (i : U64) (content : Slot V)
  | head (i : U64)
  | tail (i : U64)

def Write.apply (mask : U64) (w : Write V) (m : Ring V) : Ring V :=
  match w with
  | .slot i content => { m with buffer := Function.update m.buffer (i &&& mask) content }
  | .head i => { m with head := i }
  | .tail i => { m with tail := i }

/-- The store of the next step. -/
def Pc.write : Pc V → Option (Write V)
  | .pushConstruct value head => some (.slot head (.live value))
  | .pushStore _ head => some (.head (head + 1))
  | .popMove tail => some (.slot tail .moved)
  | .popDestroy tail _ => some (.slot tail .raw)
  | .popStore tail _ => some (.tail (tail + 1))
  | _ => none

/-- Where a step leads to on the memory that the thread sees. -/
def advance (mask : U64) (m : Ring V) (th : Thread V) : Option (Thread V) :=
  match th.pc with
  | .pushHead value => some (th.at
      (if full mask m.head th.cached then .pushTail value m.head else .pushConstruct value m.head))
  | .pushTail value head =>
      some ⟨m.tail, if full mask head m.tail then .pushed false else .pushConstruct value head⟩
  | .pushConstruct value head => some (th.at (.pushStore value head))
  | .pushStore _ _ => some (th.at (.pushed true))
  | .popTail => some (th.at (if m.tail = th.cached then .popHead m.tail else .popMove m.tail))
  | .popHead tail => some ⟨m.head, if tail = m.head then .popped none else .popMove tail⟩
  | .popMove tail => some (th.at (.popDestroy tail (m.buffer (tail &&& mask)).value))
  | .popDestroy tail out => some (th.at (.popStore tail out))
  | .popStore _ out => some (th.at (.popped (some out)))
  | .pushed _ | .popped _ => some (th.at .idle)
  | .idle => none

def Label.access (l : Label V) (th : Thread V) : Access (Write V) :=
  match l, th.pc.write with
  | .run, some w => .store w
  | _, _ => .load

def stored (mask : U64) (m : Ring V) (pc : Pc V) : Ring V := pc.write.elim m fun w => w.apply mask m

/-- One thread pushes and one thread pops. -/
def stepTso (mask : U64) (isProducer isConsumer : Bool) (l : Label V) (m : Ring V) (th : Thread V) :
    Option (Ring V × Thread V) :=
  match l, th.pc with
  | .tryPush value, .idle => if isProducer then some (m, th.at (.pushHead value)) else none
  | .tryPop, .idle => if isConsumer then some (m, th.at .popTail) else none
  | .run, _ => (advance mask m th).map fun th' => (stored mask m th.pc, th')
  | _, _ => none

theorem stepTso_does {mask : U64} {isProducer isConsumer : Bool} {l : Label V} {m m' : Ring V}
    {th th' : Thread V} (h : stepTso mask isProducer isConsumer l m th = some (m', th')) :
    (l.access th).Does (Write.apply mask) m m' := by
  obtain ⟨cached, pc⟩ := th
  cases l with
  | run =>
      simp only [stepTso, Option.map_eq_some_iff] at h
      obtain ⟨th', -, heq⟩ := h
      cases heq
      cases pc <;> rfl
  | tryPush | tryPop =>
      cases pc with
      | idle =>
          simp only [stepTso, Option.ite_none_right_eq_some] at h
          cases h.2
          rfl
      | _ => cases h

variable [DecidableEq Tid]

/-- The queue with the store buffers of its threads. -/
def buffered (V : Type*) (capacity : U64) (producer consumer : Tid) :
    TsoProgram Tid (Ring V) (Write V) (Thread V) (Label V) where
  mem := ⟨0, 0, fun _ => .raw⟩
  start := ⟨0, .idle⟩
  apply := Write.apply (maskOf capacity)
  step t := stepTso (maskOf capacity) (t = producer) (t = consumer)
  access := Label.access
  does := stepTso_does

abbrev TsoState (V Tid : Type*) := TsoConfig Tid (Ring V) (Write V) (Thread V)

/-- A push is accepted at its store to `head_`, and a pop takes effect at its store to `tail_`, when the
thread executes it. -/
def recordTso (h : History V) (s : TsoState V Tid) (a : TsoAct Tid (Label V)) (_ : TsoState V Tid) : History V :=
  match a with
  | .step t l => h.step l (s.thread t).pc
  | .drain _ => h

def observedTso (V : Type*) (capacity : U64) (producer consumer : Tid) :
    Machine (TsoState V Tid × History V) (TsoAct Tid (Label V)) :=
  (buffered V capacity producer consumer).machine.observe ⟨[], []⟩ recordTso

/-! ### The scripts -/

/-- Store number `j` of the producer that constructs the values `made`. -/
def pushWrite (made : List V) (j : ℕ) : Write V :=
  if j % 2 = 0 then .slot (BitVec.ofNat 64 (j / 2)) (made[j / 2]?.elim .raw .live)
  else .head (BitVec.ofNat 64 (j / 2 + 1))

/-- Store number `j` of the consumer. -/
def popWrite (V : Type*) (j : ℕ) : Write V :=
  if j % 3 = 0 then .slot (BitVec.ofNat 64 (j / 3)) .moved
  else if j % 3 = 1 then .slot (BitVec.ofNat 64 (j / 3)) .raw
  else .tail (BitVec.ofNat 64 (j / 3 + 1))

/-- The slot of position `p` after `d` stores of the producer and `e` of the consumer. -/
def slotAt (made : List V) (d e p : ℕ) : Slot V :=
  if d ≤ 2 * p then .raw
  else if e ≤ 3 * p then made[p]?.elim .raw .live
  else if e = 3 * p + 1 then .moved else .raw

/-- Memory after `d` stores of the producer and `e` of the consumer. -/
structure Holds (k : ℕ) (made : List V) (d e : ℕ) (m : Ring V) : Prop where
  head : m.head = BitVec.ofNat 64 (d / 2)
  tail : m.tail = BitVec.ofNat 64 (e / 3)
  slots : ∀ p, e / 3 ≤ p → p < e / 3 + 2 ^ k → m.buffer (cell 64 k p) = slotAt made d e p

variable {k d e n : ℕ} {made made' : List V} {m : Ring V}

theorem Holds.init : Holds k ([] : List V) 0 0 ⟨0, 0, fun _ => .raw⟩ where
  head := rfl
  tail := rfl
  slots p _ _ := by rw [slotAt, if_pos (Nat.zero_le _)]

/-- Values that have not been constructed in memory do not matter. -/
theorem Holds.congr (h : Holds k made d e m) (hsame : ∀ p, 2 * p < d → made'[p]? = made[p]?) :
    Holds k made' d e m where
  head := h.head
  tail := h.tail
  slots p hp hp' := by
    rw [h.slots p hp hp', slotAt, slotAt]
    split_ifs with hd he
    · rfl
    · rw [hsame p (by omega)]
    · rfl
    · rfl

/-- A store of the producer reaches memory. -/
theorem Holds.push (hk : k ≤ 63) (h : Holds k made d e m) (htaken : e ≤ 3 * (d / 2))
    (hroom : d + 1 ≤ 2 * (e / 3 + 2 ^ k)) :
    Holds k made (d + 1) e ((pushWrite made d).apply (ringMask k) m) := by
  rw [pushWrite]
  split_ifs with heven
  · refine ⟨h.head.trans (congrArg _ (by omega)), h.tail, fun p hp hp' => ?_⟩
    · by_cases hpd : p = d / 2
      · subst hpd
        change Function.update m.buffer (cell 64 k (d / 2)) _ (cell 64 k (d / 2)) = _
        rw [Function.update_self, slotAt, if_neg (by omega), if_pos (by omega)]
      · have hcell : cell 64 k p ≠ cell 64 k (d / 2) :=
          fun hcell => hpd (cell_inj (by omega) hp hp' (by omega) (by omega) hcell)
        change Function.update m.buffer (cell 64 k (d / 2)) _ (cell 64 k p) = _
        rw [Function.update_of_ne hcell, h.slots p hp hp', slotAt, slotAt]
        congr 1
        exact propext ⟨fun hle => by omega, fun hle => by omega⟩
  · refine ⟨?_, h.tail, fun p hp hp' => ?_⟩
    · exact congrArg (BitVec.ofNat 64) (by omega)
    · refine (h.slots p hp hp').trans ?_
      rw [slotAt, slotAt]
      congr 1
      exact propext ⟨fun hle => by omega, fun hle => by omega⟩

theorem slotAt_live {p : ℕ} (hd : 2 * p < d) (he : e ≤ 3 * p) :
    slotAt made d e p = made[p]?.elim .raw .live := by
  rw [slotAt, if_neg (by omega), if_pos he]

/-- The consumer has not come to the position. -/
theorem slotAt_ahead {e' p : ℕ} (he : e ≤ 3 * p) (he' : e' ≤ 3 * p) :
    slotAt made d e' p = slotAt made d e p := by
  rw [slotAt, slotAt, if_pos he, if_pos he']

/-- A store of the consumer to its slot. -/
theorem Holds.rework {content : Slot V} (hk : k ≤ 63) (h : Holds k made d e m) (hsame : (e + 1) / 3 = e / 3)
    (hcontent : slotAt made d (e + 1) (e / 3) = content) :
    Holds k made d (e + 1) ((Write.slot (BitVec.ofNat 64 (e / 3)) content).apply (ringMask k) m) := by
  have hpos := Nat.two_pow_pos k
  refine ⟨h.head, h.tail.trans (congrArg _ hsame.symm), fun p hp hp' => ?_⟩
  rw [hsame] at hp hp'
  by_cases hpe : p = e / 3
  · rw [hpe, hcontent]
    exact Function.update_self ..
  · have hcell : cell 64 k p ≠ cell 64 k (e / 3) :=
      fun hcell => hpe (cell_inj (by omega) hp hp' le_rfl (by omega) hcell)
    change Function.update m.buffer (cell 64 k (e / 3)) _ (cell 64 k p) = _
    rw [Function.update_of_ne hcell, h.slots p hp hp']
    exact slotAt_ahead (by omega) (by omega)

/-- A store of the consumer reaches memory. -/
theorem Holds.pop (hk : k ≤ 63) (h : Holds k made d e m) (htaken : e + 1 ≤ 3 * (d / 2))
    (hroom : d ≤ 2 * (e / 3 + 2 ^ k)) : Holds k made d (e + 1) ((popWrite V e).apply (ringMask k) m) := by
  have hpos := Nat.two_pow_pos k
  rw [popWrite]
  split_ifs with hmove hdestroy
  · refine h.rework hk (by omega) ?_
    rw [slotAt, if_neg (by omega), if_neg (by omega), if_pos (by omega)]
  · refine h.rework hk (by omega) ?_
    rw [slotAt, if_neg (by omega), if_neg (by omega), if_neg (by omega)]
  · -- the slot that the consumer leaves is the last one of the new lap
    refine ⟨h.head, congrArg (BitVec.ofNat 64) (by omega), fun p hp hp' => ?_⟩
    change m.buffer (cell 64 k p) = _
    by_cases hlast : p = e / 3 + 2 ^ k
    · rw [hlast, cell_add (by omega), h.slots (e / 3) le_rfl (by omega), slotAt, if_neg (by omega),
        if_neg (by omega), if_neg (by omega), slotAt, if_pos hroom]
    · rw [h.slots p (by omega) (by omega)]
      exact slotAt_ahead (by omega) (by omega)

/-! ### The invariant -/

/-- The value that the producer has constructed and not published. -/
def Pc.built : Pc V → List V
  | .pushStore value _ => [value]
  | _ => []

/-- The stores of the consumer to its slot since its last one to `tail_`. -/
def Pc.begun : Pc V → ℕ
  | .popDestroy .. => 1
  | .popStore .. => 2
  | _ => 0

theorem Pc.built_le (pc : Pc V) : pc.built.length ≤ pc.claiming.toNat := by
  cases pc <;> simp only [built, claiming, List.length_nil, List.length_singleton, Bool.toNat_true,
    Bool.toNat_false, le_refl, Nat.zero_le]

theorem Pc.begun_le (pc : Pc V) : pc.begun ≤ 2 * pc.taking.toNat := by
  cases pc <;> simp only [begun, taking, Bool.toNat_true, Bool.toNat_false] <;> omega

variable {producer consumer t : Tid} {s s' : TsoState V Tid} {h h' : History V}
  {th : Thread V} {pc : Pc V} {w : Write V} {ws : List (Write V)}

/-- The state when `d` stores of the producer and `e` of the consumer have reached memory. -/
structure InvTso (k : ℕ) (producer consumer : Tid) (s : TsoState V Tid) (h : History V) (d e : ℕ) : Prop where
  producer_only : ∀ t, (s.thread t).pc.pushing = true → t = producer
  consumer_only : ∀ t, (s.thread t).pc.popping = true → t = consumer
  others : ∀ t, t ≠ producer → t ≠ consumer → s.buffer t = []
  owns : ∀ t, Local h (s.thread t).pc
  order : h.popped <+: h.pushed.map some
  pushed_le : d ≤ 2 * h.pushed.length + (s.thread producer).pc.built.length
  popped_le : e ≤ 3 * h.popped.length + (s.thread consumer).pc.begun
  pushes : s.buffer producer = TsoProgram.script (pushWrite (h.pushed ++ (s.thread producer).pc.built)) d
    (2 * h.pushed.length + (s.thread producer).pc.built.length)
  pops : s.buffer consumer = TsoProgram.script (popWrite V) e
    (3 * h.popped.length + (s.thread consumer).pc.begun)
  mem : Holds k (h.pushed ++ (s.thread producer).pc.built) d e s.mem
  tailCached : ∃ c, (s.thread producer).cached = BitVec.ofNat 64 c ∧ c ≤ e / 3 ∧
    h.pushed.length + (s.thread producer).pc.claiming.toNat ≤ c + 2 ^ k
  headCached : ∃ c, (s.thread consumer).cached = BitVec.ofNat 64 c ∧ c ≤ d / 2 ∧
    h.popped.length + (s.thread consumer).pc.taking.toNat ≤ c

theorem order_concat {α : Type*} {l l' : List α} {a : α} (horder : l <+: l') (ha : l'[l.length]? = some a) :
    l ++ [a] <+: l' := by
  obtain ⟨hlt, rfl⟩ := List.getElem?_eq_some_iff.mp ha
  exact List.concat_get_prefix horder hlt

namespace InvTso

theorem init : InvTso k producer consumer ⟨⟨0, 0, fun _ => .raw⟩, fun _ => [], fun _ => ⟨0, .idle⟩⟩
    (⟨[], []⟩ : History V) 0 0 where
  producer_only _ h := nomatch h
  consumer_only _ h := nomatch h
  others _ _ _ := rfl
  owns _ := trivial
  order := List.nil_prefix
  pushed_le := le_rfl
  popped_le := le_rfl
  pushes := rfl
  pops := rfl
  mem := .init
  tailCached := ⟨0, rfl, le_rfl, Nat.zero_le _⟩
  headCached := ⟨0, rfl, le_rfl, le_rfl⟩

/-- The consumer works on items that are in memory, and the producer on slots that are free there. -/
theorem bounds (hinv : InvTso k producer consumer s h d e) :
    3 * h.popped.length + (s.thread consumer).pc.begun ≤ 3 * (d / 2) ∧
      2 * h.pushed.length + (s.thread producer).pc.built.length ≤ 2 * (e / 3 + 2 ^ k) ∧
      e / 3 ≤ h.popped.length ∧ d / 2 ≤ h.pushed.length := by
  obtain ⟨c, -, hc, hroom⟩ := hinv.tailCached
  obtain ⟨c', -, hc', htaken⟩ := hinv.headCached
  have hbuilt := (s.thread producer).pc.built_le
  have hbegun := (s.thread consumer).pc.begun_le
  have hclaim := (s.thread producer).pc.claiming.toNat_le
  have htake := (s.thread consumer).pc.taking.toNat_le
  have hd := hinv.pushed_le
  have he := hinv.popped_le
  omega

theorem lap (hinv : InvTso k producer consumer s h d e) :
    h.popped.length ≤ h.pushed.length ∧ h.pushed.length ≤ h.popped.length + 2 ^ k := by
  obtain ⟨hpops, hpushes, he, hd⟩ := hinv.bounds
  omega

section Views

variable {capacity : U64}

/-- What the producer sees. -/
theorem view_producer (hinv : InvTso (ringBits capacity) producer consumer s h d e)
    (hcap : capacity.toNat ≤ 2 ^ 63) :
    Holds (ringBits capacity) (h.pushed ++ (s.thread producer).pc.built)
      (2 * h.pushed.length + (s.thread producer).pc.built.length) e
      ((buffered V capacity producer consumer).view s producer) := by
  obtain ⟨hpops, hpushes, -, -⟩ := hinv.bounds
  have he := hinv.popped_le
  rw [TsoProgram.view, hinv.pushes]
  refine TsoProgram.flush_script (I := fun j => Holds _ _ j e) hinv.pushed_le hinv.mem fun {j m} hj hlt hm => ?_
  have hstep := hm.push (ringBits_le (by decide) hcap) (by omega) (by omega)
  rwa [← mask_eq] at hstep

/-- What the consumer sees. -/
theorem view_consumer (hinv : InvTso (ringBits capacity) producer consumer s h d e)
    (hcap : capacity.toNat ≤ 2 ^ 63) :
    Holds (ringBits capacity) (h.pushed ++ (s.thread producer).pc.built) d
      (3 * h.popped.length + (s.thread consumer).pc.begun)
      ((buffered V capacity producer consumer).view s consumer) := by
  obtain ⟨hpops, hpushes, -, -⟩ := hinv.bounds
  have hd := hinv.pushed_le
  rw [TsoProgram.view, hinv.pops]
  refine TsoProgram.flush_script (I := fun j => Holds _ _ d j) hinv.popped_le hinv.mem fun {j m} hj hlt hm => ?_
  have hstep := hm.pop (ringBits_le (by decide) hcap) (by omega) (by omega)
  rwa [← mask_eq] at hstep

end Views

/-- A step without a store. -/
theorem quiet (hinv : InvTso k producer consumer s h d e) (hpush : th.pc.pushing = true → t = producer)
    (hpop : th.pc.popping = true → t = consumer) (hlocal : Local h th.pc)
    (hbuilt : th.pc.built = (s.thread t).pc.built) (hbegun : th.pc.begun = (s.thread t).pc.begun)
    (htailCached : t = producer → ∃ c, th.cached = BitVec.ofNat 64 c ∧ c ≤ e / 3 ∧
      h.pushed.length + th.pc.claiming.toNat ≤ c + 2 ^ k)
    (hheadCached : t = consumer → ∃ c, th.cached = BitVec.ofNat 64 c ∧ c ≤ d / 2 ∧
      h.popped.length + th.pc.taking.toNat ≤ c) :
    InvTso k producer consumer { s with thread := Function.update s.thread t th } h d e := by
  have hmade := apply_update_same (f := s.thread) (t := t) (g := fun th => th.pc.built) hbuilt producer
  have hmoved := apply_update_same (f := s.thread) (t := t) (g := fun th => th.pc.begun) hbegun consumer
  refine ⟨?_, ?_, hinv.others, ?_, hinv.order, ?_, ?_, ?_, ?_, ?_, ?_, ?_⟩
  · rw [Function.forall_update_iff s.thread fun u th => th.pc.pushing = true → u = producer]
    exact ⟨hpush, fun u _ => hinv.producer_only u⟩
  · rw [Function.forall_update_iff s.thread fun u th => th.pc.popping = true → u = consumer]
    exact ⟨hpop, fun u _ => hinv.consumer_only u⟩
  · rw [Function.forall_update_iff s.thread fun _ th => Local h th.pc]
    exact ⟨hlocal, fun u _ => hinv.owns u⟩
  · simp only [hmade]
    exact hinv.pushed_le
  · simp only [hmoved]
    exact hinv.popped_le
  · simp only [hmade]
    exact hinv.pushes
  · simp only [hmoved]
    exact hinv.pops
  · simp only [hmade]
    exact hinv.mem
  · by_cases heq : producer = t
    · simp only [heq, Function.update_self]
      exact htailCached heq.symm
    · simp only [Function.update_of_ne heq]
      exact hinv.tailCached
  · by_cases heq : consumer = t
    · simp only [heq, Function.update_self]
      exact hheadCached heq.symm
    · simp only [Function.update_of_ne heq]
      exact hinv.headCached

/-! ### The stores of the producer -/

variable (h' th) in
/-- The producer stores number `2 * pushed + built` of its script. -/
theorem store_push (hinv : InvTso k producer consumer s h d e) (hne : producer ≠ consumer)
    (hlocal : Local h' th.pc)
    (hpop : th.pc.popping = false) (hcached : th.cached = (s.thread producer).cached)
    (hothers : ∀ u, u ≠ producer → Local h' (s.thread u).pc)
    (hpopped : h'.popped = h.popped) (hpushed : h.pushed <+: h'.pushed)
    (hcount : 2 * h'.pushed.length + th.pc.built.length =
      2 * h.pushed.length + (s.thread producer).pc.built.length + 1)
    (hmade : h.pushed ++ (s.thread producer).pc.built <+: h'.pushed ++ th.pc.built)
    (hclaim : h'.pushed.length + th.pc.claiming.toNat ≤
      h.pushed.length + (s.thread producer).pc.claiming.toNat)
    (hwrite : w = pushWrite (h'.pushed ++ th.pc.built)
      (2 * h.pushed.length + (s.thread producer).pc.built.length)) :
    InvTso k producer consumer { s with
      buffer := Function.update s.buffer producer (s.buffer producer ++ [w])
      thread := Function.update s.thread producer th } h' d e := by
  have hbuilt := (s.thread producer).pc.built_le
  have hd := hinv.pushed_le
  -- the values up to the first one that is not constructed yet
  have hsame : ∀ p, 2 * p < 2 * h.pushed.length + (s.thread producer).pc.built.length →
      (h'.pushed ++ th.pc.built)[p]? = (h.pushed ++ (s.thread producer).pc.built)[p]? := by
    intro p hp
    obtain ⟨rest, hrest⟩ := hmade
    rw [← hrest, List.getElem?_append_left]
    rw [List.length_append]
    omega
  have hnever : th.pc.popping = true → producer = consumer := by
    rw [hpop]
    exact nofun
  have hconsumer : Function.update s.thread producer th consumer = s.thread consumer :=
    Function.update_of_ne hne.symm ..
  refine ⟨?_, ?_, fun u hu hu' => ?_, ?_, ?_, ?_, ?_, ?_, ?_, ?_, ?_, ?_⟩
  · rw [Function.forall_update_iff s.thread fun u th => th.pc.pushing = true → u = producer]
    exact ⟨fun _ => rfl, fun u _ => hinv.producer_only u⟩
  · rw [Function.forall_update_iff s.thread fun u th => th.pc.popping = true → u = consumer]
    exact ⟨hnever, fun u _ => hinv.consumer_only u⟩
  · simp only [Function.update_of_ne hu]
    exact hinv.others u hu hu'
  · rw [Function.forall_update_iff s.thread fun _ th => Local h' th.pc]
    exact ⟨hlocal, fun u hu => hothers u hu⟩
  · rw [hpopped]
    exact hinv.order.trans (hpushed.map some)
  · simp only [Function.update_self]
    omega
  · simp only [hconsumer, hpopped]
    exact hinv.popped_le
  · simp only [Function.update_self]
    rw [hcount, TsoProgram.script_concat hd, ← hwrite, hinv.pushes]
    congr 1
    refine TsoProgram.script_congr fun j _ hj => ?_
    rw [pushWrite, pushWrite, hsame (j / 2) (by omega)]
  · simp only [Function.update_of_ne hne.symm, hpopped]
    exact hinv.pops
  · simp only [Function.update_self]
    exact hinv.mem.congr fun p hp => hsame p (by omega)
  · obtain ⟨c, hc, hle, hroom⟩ := hinv.tailCached
    simp only [Function.update_self]
    exact ⟨c, hcached.trans hc, hle, by omega⟩
  · simp only [hconsumer, hpopped]
    exact hinv.headCached

variable (h' th) in
/-- The consumer stores number `3 * popped + begun` of its script. -/
theorem store_pop (hinv : InvTso k producer consumer s h d e) (hne : producer ≠ consumer)
    (hlocal : Local h' th.pc)
    (hpush : th.pc.pushing = false) (hcached : th.cached = (s.thread consumer).cached)
    (hothers : ∀ u, u ≠ consumer → Local h' (s.thread u).pc)
    (hpushed : h'.pushed = h.pushed) (horder : h'.popped <+: h'.pushed.map some)
    (hcount : 3 * h'.popped.length + th.pc.begun = 3 * h.popped.length + (s.thread consumer).pc.begun + 1)
    (htake : h'.popped.length + th.pc.taking.toNat ≤ h.popped.length + (s.thread consumer).pc.taking.toNat)
    (hwrite : w = popWrite V (3 * h.popped.length + (s.thread consumer).pc.begun)) :
    InvTso k producer consumer { s with
      buffer := Function.update s.buffer consumer (s.buffer consumer ++ [w])
      thread := Function.update s.thread consumer th } h' d e := by
  have he := hinv.popped_le
  have hnever : th.pc.pushing = true → consumer = producer := by
    rw [hpush]
    exact nofun
  have hproducer : Function.update s.thread consumer th producer = s.thread producer :=
    Function.update_of_ne hne ..
  refine ⟨?_, ?_, fun u hu hu' => ?_, ?_, horder, ?_, ?_, ?_, ?_, ?_, ?_, ?_⟩
  · rw [Function.forall_update_iff s.thread fun u th => th.pc.pushing = true → u = producer]
    exact ⟨hnever, fun u _ => hinv.producer_only u⟩
  · rw [Function.forall_update_iff s.thread fun u th => th.pc.popping = true → u = consumer]
    exact ⟨fun _ => rfl, fun u _ => hinv.consumer_only u⟩
  · simp only [Function.update_of_ne hu']
    exact hinv.others u hu hu'
  · rw [Function.forall_update_iff s.thread fun _ th => Local h' th.pc]
    exact ⟨hlocal, fun u hu => hothers u hu⟩
  · simp only [hproducer, hpushed]
    exact hinv.pushed_le
  · simp only [Function.update_self]
    omega
  · simp only [Function.update_of_ne hne, hpushed]
    exact hinv.pushes
  · simp only [Function.update_self]
    rw [hcount, TsoProgram.script_concat he, ← hwrite, hinv.pops]
  · simp only [hproducer, hpushed]
    exact hinv.mem
  · simp only [hproducer, hpushed]
    exact hinv.tailCached
  · obtain ⟨c, hc, hle, htaken⟩ := hinv.headCached
    simp only [Function.update_self]
    exact ⟨c, hcached.trans hc, hle, by omega⟩

/-! ### The steps -/

variable (t th) in
/-- Both copies as they are, for a thread that does not begin to claim or to take. -/
theorem copies (hinv : InvTso k producer consumer s h d e) (hcached : th.cached = (s.thread t).cached)
    (hclaiming : th.pc.claiming = (s.thread t).pc.claiming) (htaking : th.pc.taking = (s.thread t).pc.taking) :
    (t = producer → ∃ c, th.cached = BitVec.ofNat 64 c ∧ c ≤ e / 3 ∧
      h.pushed.length + th.pc.claiming.toNat ≤ c + 2 ^ k) ∧
    (t = consumer → ∃ c, th.cached = BitVec.ofNat 64 c ∧ c ≤ d / 2 ∧
      h.popped.length + th.pc.taking.toNat ≤ c) := by
  rw [hcached, hclaiming, htaking]
  constructor
  · rintro rfl
    exact hinv.tailCached
  · rintro rfl
    exact hinv.headCached

/-- A store of either side reaches memory. -/
theorem drain (hinv : InvTso k producer consumer s h d e) (hk : k ≤ 63) (hne : producer ≠ consumer)
    (hbuffer : s.buffer t = w :: ws) : ∃ d' e', InvTso k producer consumer
      { s with mem := w.apply (ringMask k) s.mem, buffer := Function.update s.buffer t ws } h d' e' := by
  obtain ⟨hpops, hpushes, -, -⟩ := hinv.bounds
  by_cases hproducer : t = producer
  · subst hproducer
    have he := hinv.popped_le
    rw [hinv.pushes] at hbuffer
    obtain ⟨hlt, rfl, rfl⟩ := TsoProgram.script_eq_cons hbuffer
    obtain ⟨c, hc, hle, htaken⟩ := hinv.headCached
    refine ⟨d + 1, e, hinv.producer_only, hinv.consumer_only, fun u hu hu' => ?_, hinv.owns, hinv.order,
      hlt, hinv.popped_le, ?_, ?_, hinv.mem.push hk (by omega) (by omega), hinv.tailCached,
      ⟨c, hc, by omega, htaken⟩⟩
    · simp only [Function.update_of_ne hu]
      exact hinv.others u hu hu'
    · simp only [Function.update_self]
    · simp only [Function.update_of_ne hne.symm]
      exact hinv.pops
  · by_cases hconsumer : t = consumer
    · subst hconsumer
      have hd := hinv.pushed_le
      rw [hinv.pops] at hbuffer
      obtain ⟨hlt, rfl, rfl⟩ := TsoProgram.script_eq_cons hbuffer
      obtain ⟨c, hc, hle, hroom⟩ := hinv.tailCached
      refine ⟨d, e + 1, hinv.producer_only, hinv.consumer_only, fun u hu hu' => ?_, hinv.owns, hinv.order,
        hinv.pushed_le, hlt, ?_, ?_, hinv.mem.pop hk (by omega) (by omega), ⟨c, hc, by omega, hroom⟩,
        hinv.headCached⟩
      · simp only [Function.update_of_ne hu']
        exact hinv.others u hu hu'
      · simp only [Function.update_of_ne hne]
        exact hinv.pushes
      · simp only [Function.update_self]
    · rw [hinv.others t hproducer hconsumer] at hbuffer
      cases hbuffer

/-- The producer compares its index with a copy of the other one. -/
theorem push_quiet {mask cached head tail : U64} {value : V} {other : Pc V}
    (hinv : InvTso k producer consumer s h d e) (hne : producer ≠ consumer)
    (hbuilt : (s.thread producer).pc.built = []) (hbegun : (s.thread producer).pc.begun = 0)
    (hhead : head = BitVec.ofNat 64 h.pushed.length) (hother : other.popping = false)
    (hnone : other.built = []) (hidle : other.begun = 0) (hlocal : Local h other)
    (htailCached : ∃ c, cached = BitVec.ofNat 64 c ∧ c ≤ e / 3 ∧ h.pushed.length +
      (if full mask head tail then other else .pushConstruct value head).claiming.toNat ≤ c + 2 ^ k) :
    InvTso k producer consumer { s with thread := (Function.update s.thread producer
      ⟨cached, if full mask head tail then other else .pushConstruct value head⟩) } h d e := by
  refine hinv.quiet (fun _ => rfl) ?_ ?_ ?_ ?_ (fun _ => htailCached) fun heq => absurd heq hne
  · split_ifs
    · simp only [hother]
      exact nofun
    · exact nofun
  · split_ifs
    · exact hlocal
    · exact hhead
  · split_ifs
    · exact hnone.trans hbuilt.symm
    · exact hbuilt.symm
  · split_ifs
    · exact hidle.trans hbegun.symm
    · exact hbegun.symm

/-- The consumer compares its index with a copy of the other one. -/
theorem pop_quiet {cached head tail : U64} {other : Pc V}
    (hinv : InvTso k producer consumer s h d e) (hne : producer ≠ consumer)
    (hbuilt : (s.thread consumer).pc.built = []) (hbegun : (s.thread consumer).pc.begun = 0)
    (htail : tail = BitVec.ofNat 64 h.popped.length) (hother : other.pushing = false)
    (hnone : other.built = []) (hidle : other.begun = 0) (hlocal : Local h other)
    (hheadCached : ∃ c, cached = BitVec.ofNat 64 c ∧ c ≤ d / 2 ∧ h.popped.length +
      (if tail = head then other else .popMove tail).taking.toNat ≤ c) :
    InvTso k producer consumer { s with thread := (Function.update s.thread consumer
      ⟨cached, if tail = head then other else .popMove tail⟩) } h d e := by
  refine hinv.quiet ?_ (fun _ => rfl) ?_ ?_ ?_ (fun heq => absurd heq.symm hne) fun _ => hheadCached
  · split_ifs
    · simp only [hother]
      exact nofun
    · exact nofun
  · split_ifs
    · exact hlocal
    · exact htail
  · split_ifs
    · exact hnone.trans hbuilt.symm
    · exact hbuilt.symm
  · split_ifs
    · exact hidle.trans hbegun.symm
    · exact hbegun.symm

section Steps

variable {capacity : U64} {l : Label V}

/-- A step that only loads. -/
theorem load (hinv : InvTso (ringBits capacity) producer consumer s h d e) (hcap : capacity.toNat ≤ 2 ^ 63)
    (hne : producer ≠ consumer) (haccess : l.access (s.thread t) = .load) {m m' : Ring V}
    (hm : m = (buffered V capacity producer consumer).view s t)
    (hstep : stepTso (maskOf capacity) (t = producer) (t = consumer) l m (s.thread t) = some (m', th)) :
    InvTso (ringBits capacity) producer consumer { s with thread := Function.update s.thread t th }
      (h.step l (s.thread t).pc) d e := by
  have hk : ringBits capacity ≤ 63 := ringBits_le (by decide) hcap
  have hlocal := hinv.owns t
  have hlap := hinv.lap
  obtain ⟨-, -, he, hd⟩ := hinv.bounds
  generalize hth : s.thread t = old at haccess hstep hlocal
  obtain ⟨cached, pc⟩ := old
  cases l with
  | tryPush value =>
      cases pc with
      | idle =>
          simp only [stepTso, Option.ite_none_right_eq_some, decide_eq_true_eq, Option.some.injEq,
            Prod.mk.injEq] at hstep
          obtain ⟨rfl, -, rfl⟩ := hstep
          obtain ⟨hc, hc'⟩ := hinv.copies t ⟨cached, .pushHead value⟩ (by rw [hth])
            (by rw [hth]; rfl) (by rw [hth]; rfl)
          exact hinv.quiet (fun _ => rfl) nofun trivial (by rw [hth]; rfl) (by rw [hth]; rfl) hc hc'
      | _ => cases hstep
  | tryPop =>
      cases pc with
      | idle =>
          simp only [stepTso, Option.ite_none_right_eq_some, decide_eq_true_eq, Option.some.injEq,
            Prod.mk.injEq] at hstep
          obtain ⟨rfl, -, rfl⟩ := hstep
          obtain ⟨hc, hc'⟩ := hinv.copies t ⟨cached, .popTail⟩ (by rw [hth])
            (by rw [hth]; rfl) (by rw [hth]; rfl)
          exact hinv.quiet nofun (fun _ => rfl) trivial (by rw [hth]; rfl) (by rw [hth]; rfl) hc hc'
      | _ => cases hstep
  | run =>
      simp only [stepTso, Option.map_eq_some_iff] at hstep
      obtain ⟨th', hadvance, heq⟩ := hstep
      obtain rfl := (Prod.mk.inj heq).2
      clear heq
      cases pc with
      | idle => cases hadvance
      | pushConstruct | pushStore | popMove | popDestroy | popStore => cases haccess
      | pushed result | popped result =>
          cases hadvance
          obtain ⟨hc, hc'⟩ := hinv.copies t ⟨cached, .idle⟩ (by rw [hth])
            (by rw [hth]; rfl) (by rw [hth]; rfl)
          exact hinv.quiet nofun nofun trivial (by rw [hth]; rfl) (by rw [hth]; rfl) hc hc'
      | pushHead value =>
          obtain rfl := hinv.producer_only t (by rw [hth]; rfl)
          have hhead : m.head = BitVec.ofNat 64 h.pushed.length := by
            have hview := (hinv.view_producer hcap).head
            rw [← hm, hth] at hview
            exact hview.trans (congrArg _ (Nat.mul_div_cancel_left _ Nat.two_pos))
          obtain ⟨c, hcached, hc, hroom⟩ := hinv.tailCached
          rw [hth] at hcached hroom
          obtain rfl : cached = BitVec.ofNat 64 c := hcached
          obtain rfl := Option.some.inj hadvance
          have hclaim : h.pushed.length + (if full _ m.head (BitVec.ofNat 64 c) then Pc.pushTail value m.head
              else .pushConstruct value m.head).claiming.toNat ≤ _ :=
            claim_of_compare hk hhead (hc.trans he) hlap.1 hroom rfl
          rw [← mask_eq] at hclaim
          exact hinv.push_quiet hne (by rw [hth]; rfl) (by rw [hth]; rfl) hhead rfl rfl rfl hhead
            ⟨c, rfl, hc, hclaim⟩
      | pushTail value head =>
          obtain rfl := hinv.producer_only t (by rw [hth]; rfl)
          have htail : m.tail = BitVec.ofNat 64 (e / 3) := by
            rw [hm]
            exact (hinv.view_producer hcap).tail
          obtain ⟨c, hcached, hc, hroom⟩ := hinv.tailCached
          rw [hth] at hroom
          have hroom' : h.pushed.length ≤ c + 2 ^ ringBits capacity := hroom
          obtain rfl := Option.some.inj hadvance
          have hclaim : h.pushed.length + (if full _ head (BitVec.ofNat 64 (e / 3)) then Pc.pushed false
              else .pushConstruct value head).claiming.toNat ≤ _ :=
            claim_of_compare hk hlocal he hlap.1 (by omega) rfl
          rw [← mask_eq, ← htail] at hclaim
          exact hinv.push_quiet hne (by rw [hth]; rfl) (by rw [hth]; rfl) hlocal rfl rfl rfl trivial
            ⟨e / 3, htail, le_rfl, hclaim⟩
      | popTail =>
          obtain rfl := hinv.consumer_only t (by rw [hth]; rfl)
          have htail : m.tail = BitVec.ofNat 64 h.popped.length := by
            have hview := (hinv.view_consumer hcap).tail
            rw [← hm, hth] at hview
            exact hview.trans (congrArg _ (Nat.mul_div_cancel_left _ (by omega)))
          obtain ⟨c, hcached, hc, htaken⟩ := hinv.headCached
          rw [hth] at hcached htaken
          obtain rfl : cached = BitVec.ofNat 64 c := hcached
          obtain rfl := Option.some.inj hadvance
          exact hinv.pop_quiet hne (by rw [hth]; rfl) (by rw [hth]; rfl) htail rfl rfl rfl htail
            ⟨c, rfl, hc, take_of_compare htail htaken rfl⟩
      | popHead tail =>
          obtain rfl := hinv.consumer_only t (by rw [hth]; rfl)
          have hhead : m.head = BitVec.ofNat 64 (d / 2) := by
            rw [hm]
            exact (hinv.view_consumer hcap).head
          obtain ⟨c, hcached, hc, htaken⟩ := hinv.headCached
          rw [hth] at htaken
          have htaken' : h.popped.length ≤ c := htaken
          obtain rfl := Option.some.inj hadvance
          have htake : h.popped.length + (if tail = BitVec.ofNat 64 (d / 2) then Pc.popped none
              else .popMove tail).taking.toNat ≤ _ := take_of_compare hlocal (by omega) rfl
          rw [← hhead] at htake
          exact hinv.pop_quiet hne (by rw [hth]; rfl) (by rw [hth]; rfl) hlocal rfl rfl rfl trivial
            ⟨d / 2, hhead, le_rfl, htake⟩

/-- The slot of the first item, as the consumer sees it. -/
theorem front_slot (hinv : InvTso (ringBits capacity) producer consumer s h d e)
    (hcap : capacity.toNat ≤ 2 ^ 63) (htaking : (s.thread consumer).pc.taking = true) :
    h.popped.length < d / 2 ∧ ((buffered V capacity producer consumer).view s consumer).buffer
      (cell 64 (ringBits capacity) h.popped.length) =
        slotAt (h.pushed ++ (s.thread producer).pc.built) d
          (3 * h.popped.length + (s.thread consumer).pc.begun) h.popped.length := by
  obtain ⟨c, -, hc, htaken⟩ := hinv.headCached
  have hbegun := (s.thread consumer).pc.begun_le
  have hpos := Nat.two_pow_pos (ringBits capacity)
  rw [htaking] at htaken hbegun
  simp only [Bool.toNat_true] at htaken hbegun
  exact ⟨by omega, (hinv.view_consumer hcap).slots _ (by omega) (by omega)⟩

/-- An item that has reached memory is one that was pushed. -/
theorem item_eq (hinv : InvTso k producer consumer s h d e) {p : ℕ} (hp : p < d / 2) :
    ∃ v, h.pushed[p]? = some v ∧ (h.pushed ++ (s.thread producer).pc.built)[p]? = some v := by
  obtain ⟨-, -, -, hd⟩ := hinv.bounds
  have hlt : p < h.pushed.length := by omega
  exact ⟨_, List.getElem?_eq_getElem hlt, by rw [List.getElem?_append_left hlt, List.getElem?_eq_getElem hlt]⟩

/-- A step that stores. -/
theorem store (hinv : InvTso (ringBits capacity) producer consumer s h d e) (hcap : capacity.toNat ≤ 2 ^ 63)
    (hne : producer ≠ consumer) (haccess : l.access (s.thread t) = .store w) {m m' : Ring V}
    (hm : m = (buffered V capacity producer consumer).view s t)
    (hstep : stepTso (maskOf capacity) (t = producer) (t = consumer) l m (s.thread t) = some (m', th)) :
    InvTso (ringBits capacity) producer consumer { s with
      buffer := Function.update s.buffer t (s.buffer t ++ [w])
      thread := Function.update s.thread t th } (h.step l (s.thread t).pc) d e := by
  have hlocal := hinv.owns t
  generalize hth : s.thread t = old at haccess hstep hlocal
  obtain ⟨cached, pc⟩ := old
  cases l with
  | tryPush | tryPop => cases haccess
  | run =>
      simp only [stepTso, Option.map_eq_some_iff] at hstep
      obtain ⟨th', hadvance, heq⟩ := hstep
      obtain rfl := (Prod.mk.inj heq).2
      clear heq
      cases pc with
      | idle | pushHead | pushTail | pushed | popTail | popHead | popped => cases haccess
      | pushConstruct value head =>
          obtain rfl := hinv.producer_only t (by rw [hth]; rfl)
          cases haccess
          cases hadvance
          refine hinv.store_push _ _ hne hlocal rfl (by rw [hth]; rfl) (fun u _ => hinv.owns u) rfl
            (List.prefix_refl _) (by rw [hth]; rfl) ?_ (by rw [hth]; exact le_rfl) ?_
          · rw [hth]
            exact List.prefix_append_right_inj _ |>.mpr List.nil_prefix
          · rw [hth]
            change Write.slot head (.live value) = pushWrite (h.pushed ++ [value]) (2 * h.pushed.length)
            rw [pushWrite, if_pos (Nat.mul_mod_right ..), Nat.mul_div_cancel_left _ Nat.two_pos,
              List.getElem?_concat_length, hlocal]
            rfl
      | pushStore value head =>
          obtain rfl := hinv.producer_only t (by rw [hth]; rfl)
          cases haccess
          cases hadvance
          refine hinv.store_push ⟨h.pushed ++ [value], h.popped⟩ ⟨cached, .pushed true⟩ hne trivial
            rfl (by rw [hth]) (fun u hu => (hinv.owns u).push fun hpush => hu (hinv.producer_only u hpush))
            rfl (List.prefix_append _ _) ?_ ?_ ?_ ?_
          · rw [hth]
            simp only [Pc.built, List.length_append, List.length_singleton, List.length_nil]
            omega
          · rw [hth]
            exact List.prefix_append _ _
          · rw [hth]
            simp only [Pc.claiming, List.length_append, List.length_singleton, Bool.toNat_true, Bool.toNat_false]
            omega
          · rw [hth]
            change Write.head (head + 1) = pushWrite _ (2 * h.pushed.length + 1)
            rw [pushWrite, if_neg (by omega), show (2 * h.pushed.length + 1) / 2 = h.pushed.length by omega,
              ofNat_succ, hlocal]
            rfl
      | popMove tail =>
          obtain rfl := hinv.consumer_only t (by rw [hth]; rfl)
          cases haccess
          obtain ⟨hlt, hslot⟩ := hinv.front_slot hcap (by rw [hth]; rfl)
          obtain ⟨v, hv, hv'⟩ := hinv.item_eq hlt
          have hvalue : (m.buffer (tail &&& maskOf capacity)).value = some v := by
            have hcell : tail &&& maskOf capacity = cell 64 (ringBits capacity) h.popped.length := by
              rw [mask_eq, show tail = _ from hlocal]
              rfl
            rw [hcell, hm, hslot, slotAt_live (by omega) (by rw [hth]; exact le_rfl), hv']
            rfl
          obtain rfl := Option.some.inj hadvance
          refine hinv.store_pop h _ hne ⟨hlocal, ?_⟩ rfl (by rw [hth]; rfl) (fun u _ => hinv.owns u)
            rfl hinv.order (by rw [hth]; rfl) (by rw [hth]; exact le_rfl) ?_
          · rw [List.getElem?_map, hv, hvalue]
            rfl
          · rw [hth]
            change Write.slot tail .moved = popWrite V (3 * h.popped.length)
            rw [popWrite, if_pos (Nat.mul_mod_right ..), Nat.mul_div_cancel_left _ (by omega),
              show tail = _ from hlocal]
      | popDestroy tail out =>
          obtain rfl := hinv.consumer_only t (by rw [hth]; rfl)
          cases haccess
          obtain rfl := Option.some.inj hadvance
          refine hinv.store_pop h _ hne hlocal rfl (by rw [hth]; rfl) (fun u _ => hinv.owns u)
            rfl hinv.order (by rw [hth]; rfl) (by rw [hth]; exact le_rfl) ?_
          rw [hth]
          change Write.slot tail .raw = popWrite V (3 * h.popped.length + 1)
          rw [popWrite, if_neg (by omega), if_pos (by omega),
            show (3 * h.popped.length + 1) / 3 = h.popped.length by omega, hlocal.1]
      | popStore tail out =>
          obtain rfl := hinv.consumer_only t (by rw [hth]; rfl)
          cases haccess
          obtain rfl := Option.some.inj hadvance
          refine hinv.store_pop ⟨h.pushed, h.popped ++ [out]⟩ ⟨cached, .popped (some out)⟩ hne trivial
            rfl (by rw [hth]) (fun u hu => (hinv.owns u).pop fun hpop => hu (hinv.consumer_only u hpop))
            rfl (order_concat hinv.order hlocal.2) ?_ ?_ ?_
          · rw [hth]
            simp only [Pc.begun, List.length_append, List.length_singleton]
            omega
          · rw [hth]
            simp only [Pc.taking, List.length_append, List.length_singleton, Bool.toNat_true, Bool.toNat_false]
            omega
          · rw [hth]
            change Write.tail (tail + 1) = popWrite V (3 * h.popped.length + 2)
            rw [popWrite, if_neg (by omega), if_neg (by omega),
              show (3 * h.popped.length + 2) / 3 = h.popped.length by omega, ofNat_succ, hlocal.1]
            rfl

end Steps

end InvTso

/-! ### The queue -/

/-- How the content of a slot may change. -/
inductive Slot.Turns : Slot V → Slot V → Prop
  | construct (value : V) : Turns .raw (.live value)
  | move (value : V) : Turns (.live value) .moved
  | destroy : Turns .moved .raw

section Law

variable {capacity : U64}

theorem inv_of_reachable_tso {w : TsoState V Tid × History V} (hcap : capacity.toNat ≤ 2 ^ 63)
    (hne : producer ≠ consumer) (hreach : (observedTso V capacity producer consumer).Reachable anyStep w) :
    ∃ d e, InvTso (ringBits capacity) producer consumer w.1 w.2 d e := by
  refine hreach.induct (I := fun w => ∃ d e, InvTso (ringBits capacity) producer consumer w.1 w.2 d e)
    ⟨0, 0, .init⟩ ?_
  rintro ⟨s, h⟩ a ⟨s', h'⟩ - ⟨d, e, hinv⟩ hnext -
  obtain ⟨hnext, hrecord⟩ := Machine.observe_next hnext
  obtain rfl : h' = recordTso h s a s' := hrecord
  cases TsoProgram.transition_of_next hnext with
  | load haccess hstep => exact ⟨d, e, hinv.load hcap hne haccess rfl hstep⟩
  | store haccess hstep => exact ⟨d, e, hinv.store hcap hne haccess rfl hstep⟩
  | @locked t l m th haccess hempty hstep =>
      simp only [buffered, Label.access] at haccess
      split at haccess <;> cases haccess
  | @drain t w ws hbuffer =>
      have hdrain := hinv.drain (ringBits_le (by decide) hcap) hne hbuffer
      rwa [← mask_eq] at hdrain

namespace InvTso

/-- A store that a thread is about to make turns the content of the slot that it sees. -/
theorem stores (hinv : InvTso (ringBits capacity) producer consumer s h d e) (hcap : capacity.toNat ≤ 2 ^ 63)
    {i : U64} {content : Slot V} (hwrite : (s.thread t).pc.write = some (.slot i content)) :
    (((buffered V capacity producer consumer).view s t).buffer (i &&& maskOf capacity)).Turns content := by
  have hlocal := hinv.owns t
  have hcell : ∀ {i : U64} {p : ℕ}, i = BitVec.ofNat 64 p →
      i &&& maskOf capacity = cell 64 (ringBits capacity) p := by
    rintro i p rfl
    rw [mask_eq]
    rfl
  cases hpc : (s.thread t).pc with
  | idle | pushHead | pushTail | pushStore | pushed | popTail | popHead | popStore | popped =>
      rw [hpc] at hwrite
      cases hwrite
  | pushConstruct value head =>
      obtain rfl := hinv.producer_only t (by rw [hpc]; rfl)
      rw [hpc] at hwrite hlocal
      cases hwrite
      obtain ⟨hpops, hpushes, he, hd⟩ := hinv.bounds
      obtain ⟨c, -, hc, hroom⟩ := hinv.tailCached
      rw [hpc] at hroom
      simp only [Pc.claiming, Bool.toNat_true] at hroom
      have hslot := (hinv.view_producer hcap).slots h.pushed.length (by omega) (by omega)
      rw [hcell hlocal, hslot, hpc, slotAt, if_pos (by rfl)]
      exact .construct value
  | popMove tail =>
      obtain rfl := hinv.consumer_only t (by rw [hpc]; rfl)
      rw [hpc] at hwrite hlocal
      cases hwrite
      obtain ⟨hlt, hslot⟩ := hinv.front_slot hcap (by rw [hpc]; rfl)
      obtain ⟨v, -, hv⟩ := hinv.item_eq hlt
      rw [hcell hlocal, hslot, hpc, slotAt_live (by omega) (by rfl), hv]
      exact .move v
  | popDestroy tail out =>
      obtain rfl := hinv.consumer_only t (by rw [hpc]; rfl)
      rw [hpc] at hwrite hlocal
      cases hwrite
      obtain ⟨hlt, hslot⟩ := hinv.front_slot hcap (by rw [hpc]; rfl)
      rw [hcell hlocal.1, hslot, hpc, slotAt, if_neg (by omega), if_neg (by simp only [Pc.begun]; omega),
        if_pos (by rfl)]
      exact .destroy

/-- And so does a store when it reaches memory. -/
theorem arrivals (hinv : InvTso (ringBits capacity) producer consumer s h d e) {i : U64} {content : Slot V}
    (hbuffer : s.buffer t = .slot i content :: ws) :
    (s.mem.buffer (i &&& maskOf capacity)).Turns content := by
  obtain ⟨hpops, hpushes, he, hd⟩ := hinv.bounds
  have hpos := Nat.two_pow_pos (ringBits capacity)
  have hslot := hinv.mem.slots
  rw [mask_eq]
  by_cases hproducer : t = producer
  · subst hproducer
    rw [hinv.pushes] at hbuffer
    obtain ⟨hlt, hw, -⟩ := TsoProgram.script_eq_cons hbuffer
    rw [pushWrite] at hw
    split_ifs at hw with heven
    cases hw
    have hmade : d / 2 < (h.pushed ++ (s.thread t).pc.built).length := by
      rw [List.length_append]
      omega
    have hraw := hslot (d / 2) (by omega) (by omega)
    rw [slotAt, if_pos (by omega)] at hraw
    rw [show BitVec.ofNat 64 (d / 2) &&& ringMask (ringBits capacity) = cell 64 _ (d / 2) from rfl, hraw,
      List.getElem?_eq_getElem hmade]
    exact .construct _
  · by_cases hconsumer : t = consumer
    · subst hconsumer
      rw [hinv.pops] at hbuffer
      obtain ⟨hlt, hw, -⟩ := TsoProgram.script_eq_cons hbuffer
      have hcontent := hslot (e / 3) le_rfl (by omega)
      rw [popWrite] at hw
      split_ifs at hw with hmove hdestroy <;> cases hw
      · obtain ⟨v, -, hv⟩ := hinv.item_eq (p := e / 3) (by omega)
        rw [slotAt_live (by omega) (by omega), hv] at hcontent
        rw [show BitVec.ofNat 64 (e / 3) &&& ringMask (ringBits capacity) = cell 64 _ (e / 3) from rfl, hcontent]
        exact .move v
      · rw [slotAt, if_neg (by omega), if_neg (by omega), if_pos (by omega)] at hcontent
        rw [show BitVec.ofNat 64 (e / 3) &&& ringMask (ringBits capacity) = cell 64 _ (e / 3) from rfl, hcontent]
        exact .destroy
    · rw [hinv.others t hproducer hconsumer] at hbuffer
      cases hbuffer

/-- What a step does to the items. -/
theorem queueStep (hinv : InvTso k producer consumer s h d e) (l : Label V) :
    QueueStep (2 ^ k) h.items (h.step l (s.thread t).pc).items := by
  have hlap := hinv.lap
  obtain ⟨-, hpushes, he, -⟩ := hinv.bounds
  cases l with
  | run =>
      cases hpc : (s.thread t).pc with
      | pushStore value head =>
          obtain rfl := hinv.producer_only t (by rw [hpc]; rfl)
          rw [hpc] at hpushes
          simp only [Pc.built, List.length_singleton] at hpushes
          exact .of_append value hlap.1 (by omega)
      | popStore tail out =>
          obtain rfl := hinv.consumer_only t (by rw [hpc]; rfl)
          obtain ⟨c, -, hc, htaken⟩ := hinv.headCached
          have hd := hinv.bounds.2.2.2
          rw [hpc] at htaken
          simp only [Pc.taking, Bool.toNat_true] at htaken
          simp only [History.items, History.step, List.length_append, List.length_singleton]
          exact .of_drop (by omega)
      | _ => exact .stay _
  | _ => exact .stay _

/-- Memory holds the counts of the two scripts, and all of them where nothing waits. -/
theorem settled (hinv : InvTso k producer consumer s h d e) :
    (s.buffer producer = [] → d / 2 = h.pushed.length) ∧ (s.buffer consumer = [] → e / 3 = h.popped.length) := by
  have hbuilt := (s.thread producer).pc.built_le
  have hbegun := (s.thread consumer).pc.begun_le
  have hclaim := (s.thread producer).pc.claiming.toNat_le
  have htake := (s.thread consumer).pc.taking.toNat_le
  have hd := hinv.pushed_le
  have he := hinv.popped_le
  refine ⟨fun hempty => ?_, fun hempty => ?_⟩
  · rw [hinv.pushes] at hempty
    have hall := TsoProgram.script_eq_nil hempty
    omega
  · rw [hinv.pops] at hempty
    have hall := TsoProgram.script_eq_nil hempty
    omega

end InvTso

/-- What the queue promises with store buffers. A slot turns in one way for the thread that stores to it and
in memory; a refusal is exact for the index that has reached memory. -/
structure TsoLaw (capacity : U64) (producer consumer : Tid) (w : TsoState V Tid × History V) : Prop where
  fifo : w.2.popped <+: w.2.pushed.map some
  steps : ∀ a w', (observedTso V capacity producer consumer).next w a = some w' →
    QueueStep (capacityOf (maskOf capacity)).toNat w.2.items w'.2.items
  stores : ∀ t i content, (w.1.thread t).pc.write = some (.slot i content) →
    (((buffered V capacity producer consumer).view w.1 t).buffer (i &&& maskOf capacity)).Turns content
  arrivals : ∀ t i content ws, w.1.buffer t = .slot i content :: ws →
    (w.1.mem.buffer (i &&& maskOf capacity)).Turns content
  /-- A push that returns `true` has accepted its value. -/
  accepted : ∀ t w', (observedTso V capacity producer consumer).next w (.step t .run) = some w' →
    (w'.1.thread t).pc = .pushed true →
    ∃ value head, (w.1.thread t).pc = .pushStore value head ∧ w'.2.pushed = w.2.pushed ++ [value]
  /-- A pop that returns `true` has taken the item that it returns. -/
  delivered : ∀ t out w', (observedTso V capacity producer consumer).next w (.step t .run) = some w' →
    (w'.1.thread t).pc = .popped (some out) → w'.2.popped = w.2.popped ++ [out]
  /-- A push returns `false` only at a load of `tail_` that finds the ring full. -/
  refusedFull : ∀ t w', (observedTso V capacity producer consumer).next w (.step t .run) = some w' →
    (w'.1.thread t).pc = .pushed false →
    (∃ value head, (w.1.thread t).pc = .pushTail value head) ∧
    ∃ n ≤ w.2.popped.length, w.1.mem.tail = BitVec.ofNat 64 n ∧
      w.2.pushed.length = n + (capacityOf (maskOf capacity)).toNat ∧
      (w.1.buffer consumer = [] → n = w.2.popped.length)
  /-- A pop returns `false` only at a load of `head_` that finds the ring empty. -/
  refusedEmpty : ∀ t w', (observedTso V capacity producer consumer).next w (.step t .run) = some w' →
    (w'.1.thread t).pc = .popped none →
    (∃ tail, (w.1.thread t).pc = .popHead tail) ∧
    ∃ n ≤ w.2.pushed.length, w.1.mem.head = BitVec.ofNat 64 n ∧ w.2.popped.length = n ∧
      (w.1.buffer producer = [] → n = w.2.pushed.length)

/-- A step on the memory that the thread sees is a step on a memory with its cached index. -/
theorem run_of_advance {mask : U64} {m : Ring V} {th th' : Thread V} (h : advance mask m th = some th') :
    ∃ m', run mask ⟨m.head, th.cached, m.tail, th.cached, m.buffer⟩ th.pc = some (m', th'.pc) := by
  obtain ⟨cached, pc⟩ := th
  cases pc <;> cases h <;> exact ⟨_, rfl⟩

theorem run_of_next {w w' : TsoState V Tid × History V} {t : Tid}
    (hnext : (observedTso V capacity producer consumer).next w (.step t .run) = some w') :
    (∃ m', run (maskOf capacity) ⟨((buffered V capacity producer consumer).view w.1 t).head,
      (w.1.thread t).cached, ((buffered V capacity producer consumer).view w.1 t).tail, (w.1.thread t).cached,
      ((buffered V capacity producer consumer).view w.1 t).buffer⟩ (w.1.thread t).pc =
        some (m', (w'.1.thread t).pc)) ∧ w'.2 = w.2.step .run (w.1.thread t).pc := by
  obtain ⟨hnext, hrecord⟩ := Machine.observe_next hnext
  refine ⟨?_, hrecord⟩
  have hcode : ∀ {m : Ring V} {th : Thread V},
      stepTso (maskOf capacity) (t = producer) (t = consumer) .run
        ((buffered V capacity producer consumer).view w.1 t) (w.1.thread t) = some (m, th) →
      ∃ m', run (maskOf capacity) ⟨((buffered V capacity producer consumer).view w.1 t).head,
        (w.1.thread t).cached, ((buffered V capacity producer consumer).view w.1 t).tail,
        (w.1.thread t).cached, ((buffered V capacity producer consumer).view w.1 t).buffer⟩
          (w.1.thread t).pc = some (m', th.pc) := by
    intro m th hstep
    rw [stepTso.eq_def] at hstep
    simp only [Option.map_eq_some_iff, Prod.mk.injEq] at hstep
    obtain ⟨th', hadvance, -, rfl⟩ := hstep
    exact run_of_advance hadvance
  generalize w'.1 = s' at hnext
  cases TsoProgram.transition_of_next hnext with
  | load haccess hstep =>
      simp only [Function.update_self]
      exact hcode hstep
  | store haccess hstep =>
      simp only [Function.update_self]
      exact hcode hstep
  | locked haccess hempty hstep =>
      simp only [buffered, Label.access] at haccess
      split at haccess <;> cases haccess

end Law

/-- The ring is filled while the second item waits, and the first one is taken while the release of its slot
waits: either side is then refused, though one item is in the queue. -/
def waitingRun : List (TsoAct Runner (Label ℕ)) :=
  [.step .a (.tryPush 5), .step .a .run, .step .a .run, .step .a .run, .step .a .run,
    .step .a (.tryPush 6), .step .a .run, .step .a .run, .step .a .run, .step .a .run,
    .drain .a, .drain .a, .step .b .tryPop, .step .b .run, .step .b .run, .step .b .run, .step .b .run,
    .step .b .run, .step .b .run, .step .b .tryPop, .step .b .run,
    .step .a (.tryPush 7), .step .a .run]

end Psync.SPSCQueue
