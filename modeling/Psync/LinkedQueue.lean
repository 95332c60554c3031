import Psync.LinkedState
import Psync.RunMachine

/-! The parking lot, one operation after the other, is a map from addresses to independent queues. A
bucket holds the nodes of several addresses; the queue of an address is what the list of its bucket
has for it. -/

namespace Psync.LinkedLot

open Concurrency
open ParkingLot (UnparkResult hashAddress)

set_option linter.unusedSectionVars false

variable {Node : Type*} [DecidableEq Node]

/-! ### The operations -/

/-- `park` up to the loop on the wake flag. The value says whether the thread waits. -/
def parkBody (address : U64) (node : Node) (valid : Bool) (lot : Lot Node) (pc : ParkPc) :
    Option (Next (Lot Node) ParkPc Bool) :=
  match park address node valid lot pc with
  | some (.at lot' .load) => some (.ret lot' true)
  | r => r

/-- The threads that `futex::wake` is called for. -/
def UnparkPc.wakes : UnparkPc Node → List Node
  | .wake target _ => [target]
  | _ => []

def UnparkAllPc.wakes : UnparkAllPc Node → List Node
  | .wake _ curr _ => [curr]
  | _ => []

inductive Op (Node : Type*)
  | park (address : U64) (node : Node) (valid : Bool)
  | unparkOne (address : U64)
  | unparkAll (address : U64)
  deriving DecidableEq

/-- What an operation returns, and whom it wakes, in order. -/
inductive Outcome (Node : Type*)
  | parked (waits : Bool)
  | unparked (woken : List Node) (result : UnparkResult)
  | unparkedAll (woken : List Node) (count : ℕ)
  deriving DecidableEq

def Op.address : Op Node → U64
  | .park address _ _ | .unparkOne address | .unparkAll address => address

def Outcome.woken : Outcome Node → List Node
  | .parked _ => []
  | .unparked woken _ | .unparkedAll woken _ => woken

/-- The code of an operation, run alone for at most `fuel` steps. -/
def Op.exec (fuel : ℕ) (lot : Lot Node) : Op Node → Option (Lot Node × Outcome Node)
  | .park address node valid =>
      (Concurrency.exec (parkBody address node valid) (fun _ => ([] : List Node)) fuel lot
        .lockBucket).map
        fun o => (o.2.1, .parked o.2.2)
  | .unparkOne address =>
      (Concurrency.exec (fun lot pc => some (LinkedLot.unparkOne address lot pc)) UnparkPc.wakes fuel lot
        .lockBucket).map fun o => (o.2.1, .unparked o.1 o.2.2)
  | .unparkAll address =>
      (Concurrency.exec (fun lot pc => some (LinkedLot.unparkAll address lot pc)) UnparkAllPc.wakes fuel lot
        .lockBucket).map fun o => (o.2.1, .unparkedAll o.1 o.2.2)

/-- The parking lot, and the nodes whose threads are in `park`. -/
structure State (Node : Type*) where
  lot : Lot Node
  parked : Node → Bool

/-- A thread that is parked cannot park again with the same node. -/
def Op.enabled (s : State Node) : Op Node → Bool
  | .park _ node _ => !s.parked node
  | _ => true

/-- A thread is parked from its `park` to its wake. -/
def Op.parked (parked : Node → Bool) : Op Node → Outcome Node → Node → Bool
  | .park _ node _, .parked waits, n => if n = node then waits else parked n
  | _, .unparked woken _, n | _, .unparkedAll woken _, n => if n ∈ woken then false else parked n
  | _, _, n => parked n

def perform (fuel : ℕ) (s : State Node) (op : Op Node) : Option (State Node × Outcome Node) :=
  if op.enabled s then
    (op.exec fuel s.lot).map fun o => (⟨o.1, op.parked s.parked o.2⟩, o.2)
  else none

/-- All sequences of operations. The label of a step is an operation and a bound for its run. -/
def operations (Node : Type*) [DecidableEq Node] : Machine (State Node) (Op Node × ℕ) where
  init := ⟨.init, fun _ => false⟩
  next s a := (perform a.2 s a.1).map Prod.fst

/-! ### The abstract queues -/

/-- The threads waiting on each address, in order of arrival. -/
abbrev Queues (Node : Type*) := U64 → List Node

/-- What an operation does to the queues, and its outcome. -/
def Op.spec (w : Queues Node) : Op Node → Queues Node × Outcome Node
  | .park address node true =>
      (Function.update w address (w address ++ [node]), .parked true)
  | .park _ _ false => (w, .parked false)
  | .unparkOne address => match w address with
    | [] => (w, .unparked [] .none)
    | oldest :: rest => (Function.update w address rest,
        .unparked [oldest] (if rest = [] then .noMoreWaiters else .hasMoreWaiters))
  | .unparkAll address =>
      (Function.update w address [], .unparkedAll (w address) (w address).length)

/-- An operation touches no other queue. -/
theorem Op.spec_others (w : Queues Node) (op : Op Node) {address : U64} (h : address ≠ op.address) :
    (op.spec w).1 address = w address := by
  cases op with
  | park a node valid =>
      cases valid with
      | true => exact Function.update_of_ne h ..
      | false => rfl
  | unparkOne a =>
      rw [Op.spec]
      split
      · rfl
      · exact Function.update_of_ne h ..
  | unparkAll a => exact Function.update_of_ne h ..

/-- A bucket and its list. -/
structure Represents (lot : Lot Node) (b : U64) (q : List Node) : Prop where
  list : lot.Queue b q
  acyclic : q.Nodup
  tail : (lot.buckets b).tail = q.getLast?
  null : (lot.buckets b).head = none ↔ (lot.buckets b).tail = none
  unlocked : (lot.buckets b).lockState = 0
  home : ∀ n ∈ q, hashAddress (lot.key n) = b

/-- The lists of the buckets represent the queues. -/
structure Refines (lot : Lot Node) (queue : U64 → List Node) (w : Queues Node) : Prop where
  buckets : ∀ b, Represents lot b (queue b)
  queues : ∀ address, w address = (queue (hashAddress address)).filter fun n => lot.key n = address

/-! ### Runs of `park` and `unpark_one` -/

variable {lot : Lot Node} {address : U64} {node : Node}

theorem lockBucket_free {P R : Type*} {locked retry : P} (hfree : (lot.bucket address).lockState = 0) :
    lockBucket (R := R) address lot locked retry = .at (lot.setLockState address 1) locked :=
  if_pos hfree

/-- The parking lot after a node has been linked. -/
def Lot.enqueue (lot : Lot Node) (address : U64) (node : Node) : Lot Node :=
  let lot := ((lot.setKey node address).setWakeFlag node 0).setNext node none
  (lot.setLink address (lot.bucket address).tail (some node)).setTail address (some node)

theorem park_run (hfree : (lot.bucket address).lockState = 0) (valid : Bool) :
    Solo (parkBody address node valid) (fun _ => ([] : List Node)) lot .lockBucket []
      (if valid then ((lot.setLockState address 1).enqueue address node).setLockState address 0 else lot)
      valid := by
  have hlock : parkBody address node valid lot .lockBucket =
      some (.at (lot.setLockState address 1) .validate) := by
    rw [parkBody, park, lockBucket_free hfree]
  refine .quiet hlock rfl ?_
  cases valid with
  | false =>
      refine .quiet rfl rfl (.done ?_ rfl)
      change some (Next.ret ((lot.setLockState address 1).setLockState address 0) false) = _
      rw [Lot.setLockState_restore _ _ _ hfree]
      rfl
  | true =>
      exact .quiet rfl rfl <| .quiet rfl rfl <| .quiet rfl rfl <| .quiet rfl rfl <| .quiet rfl rfl <|
        .quiet rfl rfl <| .done rfl rfl

section UnparkOne

/-- The code of `unpark_one`, as a function that may end. -/
abbrev unparkOneStep (address : U64) (lot : Lot Node) (pc : UnparkPc Node) :
    Option (Next (Lot Node) (UnparkPc Node) UnparkResult) := some (unparkOne address lot pc)

abbrev UnparkRun (address : U64) :=
  Solo (@unparkOneStep Node _ address) UnparkPc.wakes

variable {before after : List Node} {p : Option Node} {es : List Node} {lot' : Lot Node}
  {r : UnparkResult}

/-- The scan passes over the nodes of other addresses. -/
theorem scan_run {prev stop : Option Node} (hq : Segment lot.next p before stop)
    (hother : ∀ n ∈ before, lot.key n ≠ address)
    (hstop : UnparkRun address lot (scan (if before = [] then prev else before.getLast?) stop) es lot' r) :
    UnparkRun address lot (scan prev p) es lot' r := by
  induction before generalizing p prev with
  | nil =>
      rw [if_pos rfl] at hstop
      rwa [Segment.nil.mp hq]
  | cons n before ih =>
      obtain ⟨rfl, hq⟩ := hq
      have hkey : unparkOneStep address lot (.key prev n) = some (.at lot (.next n)) := by
        have hne : ¬ (lot.nodes n).key = address := hother n List.mem_cons_self
        rw [unparkOneStep, unparkOne, if_neg hne]
      refine .quiet hkey rfl (.quiet rfl rfl ?_)
      refine ih hq (fun m hm => hother m (List.mem_cons_of_mem n hm)) ?_
      cases before with
      | nil => exact hstop
      | cons m before => exact hstop

/-- The second scan looks for another node of the address. -/
theorem check_run {target : Node} (hq : Segment lot.next p before none)
    (hrest : UnparkRun address lot (.callback (some target)
      (if ∃ n ∈ before, lot.key n = address then .hasMoreWaiters else .noMoreWaiters)) es lot' r) :
    UnparkRun address lot (check target p) es lot' r := by
  induction before generalizing p with
  | nil =>
      rw [Segment.nil.mp hq]
      rwa [if_neg (by simp)] at hrest
  | cons n before ih =>
      obtain ⟨rfl, hq⟩ := hq
      by_cases hkey : lot.key n = address
      · have hstep : unparkOneStep address lot (.checkKey target n) =
            some (.at lot (.callback (some target) .hasMoreWaiters)) := by
          have hkey' : (lot.nodes n).key = address := hkey
          rw [unparkOneStep, unparkOne, if_pos hkey']
        rw [if_pos ⟨n, List.mem_cons_self, hkey⟩] at hrest
        exact .quiet hstep rfl hrest
      · have hstep : unparkOneStep address lot (.checkKey target n) =
            some (.at lot (.checkNext target n)) := by
          have hkey' : ¬ (lot.nodes n).key = address := hkey
          rw [unparkOneStep, unparkOne, if_neg hkey']
        refine .quiet hstep rfl (.quiet rfl rfl (ih hq ?_))
        have hiff : (∃ m ∈ n :: before, lot.key m = address) ↔ ∃ m ∈ before, lot.key m = address := by
          simp [hkey]
        simpa only [hiff] using hrest

theorem unparkOne_run_none (hfree : (lot.bucket address).lockState = 0)
    (hq : lot.Queue (hashAddress address) before) (hother : ∀ n ∈ before, lot.key n ≠ address) :
    UnparkRun address lot .lockBucket [] lot .none := by
  have hlock : unparkOneStep address lot .lockBucket =
      some (.at (lot.setLockState address 1) .loadHead) := by
    rw [unparkOneStep, unparkOne, lockBucket_free hfree]
  have hhead : ((lot.setLockState address 1).bucket address).head = (lot.bucket address).head := by
    rw [Lot.setLockState_bucket]
  refine .quiet hlock rfl (.quiet rfl rfl ?_)
  rw [hhead]
  refine scan_run (show Segment (lot.setLockState address 1).next _ before none from hq) hother
    (.quiet rfl rfl (.done ?_ rfl))
  change some (Next.ret ((lot.setLockState address 1).setLockState address 0) UnparkResult.none) = _
  rw [Lot.setLockState_restore _ _ _ hfree]

/-- The parking lot after a node has been unlinked and flagged. -/
def Lot.release (lot : Lot Node) (address : U64) (prev : Option Node) (target : Node) : Lot Node :=
  ((lot.setLink address prev (lot.next target)).fixTail address prev target).setWakeFlag target 1

/-- The list of the bucket is `before ++ target :: after`, and `target` is the first node of the
address. -/
theorem unparkOne_run_some {target : Node} (hfree : (lot.bucket address).lockState = 0)
    (hq : lot.Queue (hashAddress address) (before ++ target :: after))
    (hother : ∀ n ∈ before, lot.key n ≠ address) (hkey : lot.key target = address) :
    UnparkRun address lot .lockBucket [target]
      (((lot.setLockState address 1).release address before.getLast? target).setLockState address 0)
      (if ∃ n ∈ before ++ after, lot.key n = address then .hasMoreWaiters else .noMoreWaiters) := by
  have hlock : unparkOneStep address lot .lockBucket =
      some (.at (lot.setLockState address 1) .loadHead) := by
    rw [unparkOneStep, unparkOne, lockBucket_free hfree]
  generalize hlot₁ : lot.setLockState address 1 = lot₁ at hlock ⊢
  have hq₁ : lot₁.Queue (hashAddress address) (before ++ target :: after) := by
    rw [← hlot₁]
    exact setLockState_queue.mpr hq
  have hkey₁ : lot₁.key = lot.key := by rw [← hlot₁]; rfl
  rw [← hkey₁] at hother hkey ⊢
  obtain ⟨r, hbefore, rfl, -⟩ := Segment.append.mp hq₁
  have hmatch : unparkOneStep address lot₁ (.key before.getLast? target) =
      some (.at lot₁ (.loadNext before.getLast? target)) := by
    have hkey' : (lot₁.nodes target).key = address := hkey
    rw [unparkOneStep, unparkOne, if_pos hkey']
  refine .quiet hlock rfl (.quiet rfl rfl (scan_run hbefore hother ?_))
  have hprev : (if before = [] then none else before.getLast?) = before.getLast? := by
    split_ifs with h
    · rw [h]
      rfl
    · rfl
  rw [hprev]
  refine .quiet hmatch rfl <| .quiet rfl rfl <| .quiet rfl rfl <| .quiet rfl rfl <| .quiet rfl rfl ?_
  have hrest : ((lot₁.setLink address before.getLast? (lot₁.next target)).fixTail address
      before.getLast? target).Queue (hashAddress address) (before ++ after) :=
    fixTail_queue.mpr (queue_unlink hq₁)
  refine check_run hrest ?_
  rw [Lot.fixTail_key, Lot.setLink_key]
  exact .quiet rfl rfl <| .quiet rfl rfl <| .quiet rfl rfl <| .ret rfl

end UnparkOne

/-! ### Runs of `unpark_all` -/

abbrev UnparkAllRun (address : U64) :=
  Solo (fun (lot : Lot Node) pc => some (unparkAll address lot pc)) UnparkAllPc.wakes

/-- The scan of `unpark_all` between two nodes: `kept` has been passed, `rest` is to come, and `wake`
has been taken out. -/
structure Sweeping (lot : Lot Node) (address : U64) (l : Sweep Node) (kept rest wake : List Node) :
    Prop where
  queue : lot.Queue (hashAddress address) (kept ++ rest)
  tail : (lot.bucket address).tail = (kept ++ rest).getLast?
  prev : l.prev = kept.getLast?
  list : ToWake lot l wake
  nodup : (kept ++ rest ++ wake).Nodup
  count : l.count = wake.length

/-- Outside the list `q` of the bucket of `address` two memories agree, but for wake flags. -/
structure Agree (lot lot' : Lot Node) (address : U64) (q : List Node) : Prop where
  key : lot'.key = lot.key
  lockState : (lot'.bucket address).lockState = (lot.bucket address).lockState
  buckets : ∀ b, b ≠ hashAddress address → lot'.buckets b = lot.buckets b
  next : ∀ n, n ∉ q → lot'.next n = lot.next n

theorem Agree.refl (lot : Lot Node) (address : U64) (q : List Node) : Agree lot lot address q :=
  ⟨rfl, rfl, fun _ _ => rfl, fun _ _ => rfl⟩

theorem Agree.trans {lot lot' lot'' : Lot Node} {q : List Node} (h : Agree lot lot' address q)
    (h' : Agree lot' lot'' address q) : Agree lot lot'' address q :=
  ⟨h'.key.trans h.key, h'.lockState.trans h.lockState,
    fun b hb => (h'.buckets b hb).trans (h.buckets b hb),
    fun n hn => (h'.next n hn).trans (h.next n hn)⟩

/-- One node of the address goes from the list of the bucket to the list of those to wake. -/
theorem Sweeping.take {l : Sweep Node} {kept rest wake : List Node}
    (h : Sweeping lot address l kept (node :: rest) wake) :
    ∃ lot', Sweeping lot' address (l.append node) kept rest (wake ++ [node]) ∧
      Agree lot lot' address (kept ++ (node :: rest) ++ wake) ∧
      ∀ {es lot'' r}, UnparkAllRun address lot' (sweep (l.append node) (lot.next node)) es lot'' r →
        UnparkAllRun address lot (.unlink l node (lot.next node)) es lot'' r := by
  have hperm : (kept ++ node :: rest ++ wake).Perm (kept ++ rest ++ (wake ++ [node])) :=
    ((List.perm_middle.append_right wake).trans (List.perm_append_singleton node _).symm).trans
      (.of_eq (List.append_assoc (kept ++ rest) wake [node]))
  have hnodup := hperm.nodup_iff.mp h.nodup
  have hnode : node ∉ kept ++ rest ++ wake := by
    intro hmem
    rw [← List.append_assoc, List.nodup_append] at hnodup
    exact hnodup.2.2 node hmem node (List.mem_singleton_self node) rfl
  have hkept : node ∉ kept ++ rest := fun hmem => hnode (List.mem_append_left _ hmem)
  have hwake : node ∉ wake := fun hmem => hnode (List.mem_append_right _ hmem)
  have hdisjoint : ∀ n ∈ wake, n ∉ kept ++ rest := by
    intro n hn hmem
    rw [List.nodup_append] at hnodup
    exact hnodup.2.2 n hmem n (List.mem_append_left _ hn) rfl
  have hprev : ∀ n, n ∉ kept → l.prev ≠ some n := by
    intro n hn hp
    rw [h.prev] at hp
    exact hn (List.mem_of_getLast? hp)
  have hlast : ∀ n, n ∉ wake → l.toWakeTail ≠ some n := by
    intro n hn hp
    rw [h.list.last] at hp
    exact hn (List.mem_of_getLast? hp)
  let lot₁ := lot.setLink address l.prev (lot.next node)
  let lot₃ := (lot₁.fixTail address l.prev node).setNext node none
  have hnext : ∀ n, n ∉ kept → n ≠ node → lot₃.next n = lot.next n := by
    intro n hn hne
    rw [Lot.setNext_next, Function.update_of_ne hne, Lot.fixTail_next]
    exact Lot.setLink_next _ _ _ _ (hprev n hn)
  have hqueue : lot₁.Queue (hashAddress address) (kept ++ rest) := by
    change (lot.setLink address l.prev (lot.next node)).Queue _ _
    rw [h.prev]
    exact queue_unlink h.queue
  have hqueue₃ : lot₃.Queue (hashAddress address) (kept ++ rest) := by
    change Segment ((lot₁.fixTail address l.prev node).setNext node none).next _ _ _
    rw [Lot.setNext_next]
    exact (fixTail_queue.mpr hqueue).update_of_notMem hkept none
  refine ⟨lot₃.append l.toWakeTail node, ⟨?_, ?_, h.prev, ?_, hnodup, ?_⟩, ⟨?_, ?_, ?_, ?_⟩, ?_⟩
  · rw [Lot.Queue, Lot.append_buckets]
    refine hqueue₃.congr fun n hn => Lot.append_next _ _ _ (hlast n fun hw => hdisjoint n hw hn)
  · rw [Lot.append_bucket, Lot.setNext_bucket, h.prev]
    exact tail_fix (h.nodup.sublist (List.sublist_append_left _ _)) ((lot.setLink_tail ..).trans h.tail)
  · refine (h.list.congr fun n hn => ?_).append hwake ?_
    · exact hnext n (fun hk => hdisjoint n hn (List.mem_append_left _ hk)) fun he => hwake (he ▸ hn)
    · rw [Lot.setNext_next, Function.update_self]
  · rw [Sweep.append, List.length_append, h.count]
    rfl
  · rw [Lot.append_key, Lot.setNext_key, Lot.fixTail_key, Lot.setLink_key]
  · rw [Lot.append_bucket, Lot.setNext_bucket, Lot.fixTail_lockState]
    exact lot.setLink_lockState ..
  · intro b hb
    rw [Lot.append_buckets, Lot.setNext_buckets, Lot.fixTail_of_ne _ _ _ _ hb]
    exact lot.setLink_of_ne _ _ _ hb
  · intro n hn
    simp only [List.mem_append, List.mem_cons, not_or] at hn
    rw [Lot.append_next _ _ _ (hlast n hn.2)]
    exact hnext n hn.1.1 hn.1.2.1
  · intro es lot'' r hrun
    exact .quiet rfl rfl <| .quiet rfl rfl <| .quiet rfl rfl <| .quiet rfl rfl hrun

/-- A node of another address stays. -/
theorem Sweeping.pass {l : Sweep Node} {kept rest wake : List Node}
    (h : Sweeping lot address l kept (node :: rest) wake) :
    Sweeping lot address { l with prev := some node } (kept ++ [node]) rest wake := by
  have hsplit : kept ++ node :: rest = kept ++ [node] ++ rest := by simp
  refine ⟨?_, ?_, by rw [List.getLast?_concat], ⟨h.list.list, h.list.last⟩, ?_, h.count⟩
  · rw [← hsplit]
    exact h.queue
  · rw [← hsplit]
    exact h.tail
  · rw [← hsplit]
    exact h.nodup

theorem Sweeping.next {l : Sweep Node} {kept rest wake : List Node}
    (h : Sweeping lot address l kept (node :: rest) wake) : lot.next node = rest.head? := by
  obtain ⟨_, -, hrest⟩ := Segment.append.mp h.queue
  exact hrest.2.head

/-- The whole scan. -/
theorem sweep_run {l : Sweep Node} {kept rest wake : List Node}
    (h : Sweeping lot address l kept rest wake) :
    ∃ lot' l', Sweeping lot' address l' (kept ++ rest.filter fun n => lot.key n ≠ address) []
        (wake ++ rest.filter fun n => lot.key n = address) ∧
      Agree lot lot' address (kept ++ rest ++ wake) ∧
      ∀ {es lot'' r}, UnparkAllRun address lot' (.unlockBucket l') es lot'' r →
        UnparkAllRun address lot (sweep l rest.head?) es lot'' r := by
  induction rest generalizing lot l kept wake with
  | nil => exact ⟨lot, l, by simpa using h, .refl _ _ _, id⟩
  | cons n rest ih =>
      by_cases hkey : lot.key n = address
      · obtain ⟨lot₁, htaken, hagree₁, hrun₁⟩ := h.take
        obtain ⟨lot', l', hdone, hagree, hrun⟩ := ih htaken
        have hmem : ∀ m, m ∈ kept ++ n :: rest ++ wake ↔ m ∈ kept ++ rest ++ (wake ++ [n]) := by
          intro m
          simp only [List.mem_append, List.mem_cons, List.not_mem_nil, or_false]
          tauto
        refine ⟨lot', l', ?_, hagree₁.trans ⟨hagree.key, hagree.lockState, hagree.buckets,
          fun m hm => hagree.next m ((hmem m).not.mp hm)⟩, fun {es lot'' r} hend => ?_⟩
        · rw [hagree₁.key] at hdone
          simpa [hkey] using hdone
        · have hmatch : some (unparkAll address lot (.key l n (lot.next n))) =
              some (.at lot (.unlink l n (lot.next n))) := by
            have hkey' : (lot.nodes n).key = address := hkey
            rw [unparkAll, if_pos hkey']
          refine .quiet rfl rfl (.quiet hmatch rfl (hrun₁ ?_))
          rw [h.next]
          exact hrun hend
      · obtain ⟨lot', l', hdone, hagree, hrun⟩ := ih h.pass
        have hsplit : kept ++ n :: rest = kept ++ [n] ++ rest := by simp
        refine ⟨lot', l', by simpa [hkey] using hdone, by rwa [hsplit], fun {es lot'' r} hend => ?_⟩
        have hpass : some (unparkAll address lot (.key l n (lot.next n))) =
            some (.at lot (sweep { l with prev := some n } (lot.next n))) := by
          have hkey' : ¬ (lot.nodes n).key = address := hkey
          rw [unparkAll, if_neg hkey']
        refine .quiet rfl rfl (.quiet hpass rfl ?_)
        rw [h.next]
        exact hrun hend

/-- Every node of a list is flagged. -/
def Lot.flagAll (lot : Lot Node) (nodes : List Node) : Lot Node :=
  nodes.foldl (fun lot n => lot.setWakeFlag n 1) lot

/-- The loop that wakes goes through its list in order. -/
theorem wake_run {count : ℕ} {rest : List Node}
    (h : Segment lot.next (some node) (node :: rest) none) :
    UnparkAllRun address lot (.wakeNext count node) (node :: rest) (lot.flagAll (node :: rest)) count := by
  induction rest generalizing lot node with
  | nil =>
      have hnext : lot.next node = none := h.2
      refine .quiet rfl rfl (.quiet rfl rfl (.ret ?_))
      change some (wakeAll (lot.setWakeFlag node 1) count (lot.next node)) = _
      rw [hnext]
      rfl
  | cons n rest ih =>
      have hnext : lot.next node = some n := h.2.1
      refine .quiet rfl rfl (.quiet rfl rfl (.at ?_ (ih ?_)))
      · change some (wakeAll (lot.setWakeFlag node 1) count (lot.next node)) = _
        rw [hnext]
        rfl
      · rw [Lot.setWakeFlag_next]
        exact ⟨rfl, h.2.2⟩

theorem flagAll_fields (lot : Lot Node) (nodes : List Node) : (lot.flagAll nodes).next = lot.next ∧
    (lot.flagAll nodes).key = lot.key ∧ (lot.flagAll nodes).buckets = lot.buckets := by
  induction nodes generalizing lot with
  | nil => exact ⟨rfl, rfl, rfl⟩
  | cons n nodes ih =>
      obtain ⟨hnext, hkey, hbuckets⟩ := ih (lot.setWakeFlag n 1)
      exact ⟨hnext.trans (lot.setWakeFlag_next n 1), hkey.trans (lot.setWakeFlag_key n 1), hbuckets⟩

theorem flagAll_wakeFlag {nodes : List Node} {n : Node} (h : n ∈ nodes ∨ lot.wakeFlag n ≠ 0) :
    (lot.flagAll nodes).wakeFlag n ≠ 0 := by
  induction nodes generalizing lot with
  | nil => exact h.resolve_left List.not_mem_nil
  | cons m nodes ih =>
      refine ih ?_
      by_cases hn : n = m
      · rw [hn, Lot.setWakeFlag_wakeFlag, Function.update_self]
        exact Or.inr (by decide)
      · rw [Lot.setWakeFlag_wakeFlag, Function.update_of_ne hn]
        exact h.imp_left fun hmem => (List.mem_cons.mp hmem).resolve_left hn

theorem represents_of {b : U64} {q : List Node} (hq : lot.Queue b q)
    (htail : (lot.buckets b).tail = q.getLast?) (hunlocked : (lot.buckets b).lockState = 0)
    (home : ∀ n ∈ q, hashAddress (lot.key n) = b) : Represents lot b q where
  list := hq
  acyclic := hq.nodup
  tail := htail
  null := by rw [hq.head, htail, List.head?_eq_none_iff, List.getLast?_eq_none_iff]
  unlocked := hunlocked
  home := home

theorem wakeAll_run {count : ℕ} {wake : List Node} {p : Option Node} {pc : UnparkAllPc Node}
    (hq : Segment lot.next p wake none) (hpc : UnparkAllPc.wakes pc = []) {lot₀ : Lot Node}
    (hstep : unparkAll address lot₀ pc = wakeAll lot count p) :
    UnparkAllRun address lot₀ pc wake (lot.flagAll wake) count := by
  cases wake with
  | nil =>
      rw [Segment.nil.mp hq] at hstep
      exact .done (congrArg some hstep) hpc
  | cons n wake =>
      obtain ⟨rfl, hrest⟩ := hq
      exact .quiet (congrArg some hstep) hpc (wake_run ⟨rfl, hrest⟩)

theorem unparkAll_run {q : List Node} (hrep : Represents lot (hashAddress address) q) :
    ∃ lot', UnparkAllRun address lot .lockBucket (q.filter fun n => lot.key n = address) lot'
        (q.filter fun n => lot.key n = address).length ∧
      Represents lot' (hashAddress address) (q.filter fun n => lot.key n ≠ address) ∧
      Agree lot lot' address q ∧ ∀ n ∈ q.filter fun n => lot.key n = address, lot'.wakeFlag n ≠ 0 := by
  have hlock : some (unparkAll address lot .lockBucket) =
      some (.at (lot.setLockState address 1) .loadHead) := by
    rw [unparkAll, lockBucket_free hrep.unlocked]
  have hstart : Sweeping (lot.setLockState address 1) address ⟨none, none, none, 0⟩ [] q [] := by
    refine ⟨setLockState_queue.mpr hrep.list, ?_, rfl, ⟨rfl, rfl⟩, by simpa using hrep.acyclic, rfl⟩
    rw [Lot.setLockState_bucket]
    exact hrep.tail
  obtain ⟨lot', l', hdone, hagree, hrun⟩ := sweep_run hstart
  simp only [List.nil_append, List.append_nil] at hdone hagree
  change Sweeping lot' address l' (q.filter fun n => lot.key n ≠ address) []
    (q.filter fun n => lot.key n = address) at hdone
  generalize hwake : (q.filter fun n => lot.key n = address) = wake at hdone ⊢
  generalize hkept : (q.filter fun n => lot.key n ≠ address) = kept at hdone ⊢
  obtain ⟨hnext, hkey, hbuckets⟩ := flagAll_fields (lot'.setLockState address 0) wake
  have hbucket : ((lot'.setLockState address 0).flagAll wake).bucket address =
      { lot'.bucket address with lockState := 0 } := by
    rw [← lot'.setLockState_bucket]
    exact congrFun hbuckets _
  refine ⟨(lot'.setLockState address 0).flagAll wake, ?_, represents_of ?_ ?_ ?_ fun n hn => ?_,
    ⟨hkey.trans hagree.key, ?_, fun b hb => ?_, fun n hn => ?_⟩,
    fun n hn => flagAll_wakeFlag (Or.inl hn)⟩
  · have hhead : ((lot.setLockState address 1).bucket address).head = q.head? := hstart.queue.head
    refine .quiet hlock rfl (.quiet rfl rfl ?_)
    rw [hhead]
    refine hrun ?_
    rw [← hdone.count]
    have hlist : Segment (lot'.setLockState address 0).next l'.toWakeHead wake none := hdone.list.list
    exact wakeAll_run hlist rfl rfl
  · refine (queue_iff hnext (by rw [hbuckets])).mpr (setLockState_queue.mpr ?_)
    simpa using hdone.queue
  · change (((lot'.setLockState address 0).flagAll wake).bucket address).tail = _
    rw [hbucket]
    simpa using hdone.tail
  · change (((lot'.setLockState address 0).flagAll wake).bucket address).lockState = _
    rw [hbucket]
  · rw [← hkept] at hn
    rw [hkey.trans hagree.key]
    exact hrep.home n (List.mem_of_mem_filter hn)
  · rw [hbucket]
    exact hrep.unlocked.symm
  · rw [hbuckets]
    exact (lot'.setBucket_of_ne _ _ hb).trans
      ((hagree.buckets b hb).trans (lot.setBucket_of_ne _ _ hb))
  · rw [hnext]
    exact hagree.next n hn

/-! ### Refinement -/

variable {queue : U64 → List Node} {w : Queues Node} {lot' : Lot Node}

/-- Nodes of different buckets are different. -/
theorem Refines.disjoint (h : Refines lot queue w) {b b' : U64} {n : Node} (hn : n ∈ queue b)
    (hn' : n ∈ queue b') : b = b' := by
  rw [← (h.buckets b).home n hn, (h.buckets b').home n hn']

/-- An operation on one bucket that leaves the nodes of the others alone. -/
theorem Refines.update (h : Refines lot queue w) {q : List Node} {v : List Node}
    (hrep : Represents lot' (hashAddress address) q)
    (hbuckets : ∀ b, b ≠ hashAddress address → lot'.buckets b = lot.buckets b)
    (hnodes : ∀ b, b ≠ hashAddress address → ∀ n ∈ queue b, lot'.next n = lot.next n ∧
      lot'.key n = lot.key n)
    (hself : v = q.filter fun n => lot'.key n = address)
    (hother : ∀ a, a ≠ address → hashAddress a = hashAddress address →
      (q.filter fun n => lot'.key n = a) = (queue (hashAddress a)).filter fun n => lot.key n = a) :
    Refines lot' (Function.update queue (hashAddress address) q) (Function.update w address v) := by
  refine ⟨fun b => ?_, fun a => ?_⟩
  · by_cases hb : b = hashAddress address
    · rw [hb, Function.update_self]
      exact hrep
    · rw [Function.update_of_ne hb]
      have hold := h.buckets b
      refine represents_of ?_ ?_ ?_ fun n hn => ?_
      · rw [Lot.Queue, hbuckets b hb]
        exact hold.list.congr fun n hn => (hnodes b hb n hn).1
      · rw [hbuckets b hb, hold.tail]
      · rw [hbuckets b hb, hold.unlocked]
      · rw [(hnodes b hb n hn).2, hold.home n hn]
  · by_cases ha : a = address
    · rw [ha, Function.update_self, Function.update_self, hself]
    · rw [Function.update_of_ne ha, h.queues a]
      by_cases hb : hashAddress a = hashAddress address
      · rw [hb, Function.update_self, hother a ha hb, hb]
      · rw [Function.update_of_ne hb]
        refine List.filter_congr fun n hn => ?_
        rw [(hnodes _ hb n hn).2]

/-- The operation ends, and every evaluation that ends has this outcome. -/
def Op.Performs (op : Op Node) (lot lot' : Lot Node) (o : Outcome Node) : Prop :=
  (∃ fuel, op.exec fuel lot = some (lot', o)) ∧ ∀ fuel r, op.exec fuel lot = some r → r = (lot', o)

/-- Each case of `Op.exec` renames what a run of the code returns. -/
theorem performs_of_solo {P R : Type*} {step : Lot Node → P → Option (Next (Lot Node) P R)}
    {emit : P → List Node} {pc : P} {es : List Node} {r : R} {f : List Node → R → Outcome Node}
    {op : Op Node} (hrun : Solo step emit lot pc es lot' r)
    (hop : ∀ fuel, op.exec fuel lot =
      (Concurrency.exec step emit fuel lot pc).map fun o => (o.2.1, f o.1 o.2.2)) :
    op.Performs lot lot' (f es r) := by
  refine ⟨?_, fun fuel o ho => ?_⟩
  · obtain ⟨fuel, hfuel⟩ := hrun.exec
    exact ⟨fuel, by rw [hop, hfuel]; rfl⟩
  · rw [hop, Option.map_eq_some_iff] at ho
    obtain ⟨o', ho', rfl⟩ := ho
    rw [hrun.eq_of_exec ho']

/-- The state after `park` has linked a node. -/
theorem Refines.enqueue (h : Refines lot queue w) (hn : ∀ b, node ∉ queue b) :
    Refines (((lot.setLockState address 1).enqueue address node).setLockState address 0)
      (Function.update queue (hashAddress address) (queue (hashAddress address) ++ [node]))
      (Function.update w address (w address ++ [node])) := by
  have hrep := h.buckets (hashAddress address)
  generalize hq : queue (hashAddress address) = q at hrep ⊢
  have hnq : node ∉ q := by
    rw [← hq]
    exact hn _
  let lot₁ := (((lot.setLockState address 1).setKey node address).setWakeFlag node 0).setNext node none
  let lot' := ((lot.setLockState address 1).enqueue address node).setLockState address 0
  have htail : (lot₁.bucket address).tail = q.getLast? := by
    change ((lot.setLockState address 1).bucket address).tail = _
    rw [Lot.setLockState_bucket]
    exact hrep.tail
  have hkey : lot'.key = Function.update lot.key node address := by
    change (lot₁.setLink address (lot₁.bucket address).tail (some node)).key = _
    rw [Lot.setLink_key, Lot.setNext_key, Lot.setWakeFlag_key, Lot.setKey_key]
    rfl
  have hnext₁ : lot₁.next = Function.update lot.next node none := by
    rw [Lot.setNext_next, Lot.setWakeFlag_next, Lot.setKey_next]
    rfl
  have hqueue₁ : lot₁.Queue (hashAddress address) q := by
    change Segment lot₁.next ((lot.setLockState address 1).buckets (hashAddress address)).head q none
    rw [hnext₁]
    exact Segment.update_of_notMem (setLockState_queue.mpr hrep.list) hnq none
  have hlinked := queue_link hqueue₁ htail hnq (by rw [hnext₁, Function.update_self])
  have hrep' : Represents lot' (hashAddress address) (q ++ [node]) := by
    refine represents_of (setLockState_queue.mpr (setTail_queue.mpr hlinked)) ?_ ?_ fun n hmem => ?_
    · change (lot'.bucket address).tail = _
      rw [Lot.setLockState_bucket, List.getLast?_concat]
      exact congrArg Bucket.tail (Lot.setTail_bucket ..)
    · change (lot'.bucket address).lockState = _
      rw [Lot.setLockState_bucket]
    · rw [hkey]
      rcases List.mem_append.mp hmem with hmem | hmem
      · rw [Function.update_of_ne (ne_of_mem_of_not_mem hmem hnq)]
        exact hrep.home n hmem
      · rw [List.mem_singleton.mp hmem, Function.update_self]
  have hold : ∀ a, (q.filter fun n => Function.update lot.key node address n = a) =
      q.filter fun n => lot.key n = a := by
    intro a
    refine List.filter_congr fun n hmem => ?_
    rw [Function.update_of_ne (ne_of_mem_of_not_mem hmem hnq)]
  change Refines lot' _ _
  refine h.update hrep' (fun b hb => ?_) (fun b hb n hmem => ?_) ?_ fun a ha hb => ?_
  · exact (Lot.setBucket_of_ne _ _ _ hb).trans <| (Lot.setBucket_of_ne _ _ _ hb).trans <|
      (Lot.setLink_of_ne _ _ _ _ hb).trans (Lot.setBucket_of_ne _ _ _ hb)
  · have hne : n ≠ node := fun he => hn b (he ▸ hmem)
    refine ⟨?_, by rw [hkey, Function.update_of_ne hne]⟩
    have hlast : (lot₁.bucket address).tail ≠ some n := by
      intro hp
      rw [htail, ← hq] at hp
      exact hb (h.disjoint hmem (List.mem_of_getLast? hp))
    refine (Lot.setLink_next lot₁ address _ _ hlast).trans ?_
    rw [hnext₁, Function.update_of_ne hne]
  · rw [h.queues address, hq, List.filter_append, hkey, hold]
    simp
  · rw [List.filter_append, hkey, hb, hq, hold]
    simp [Ne.symm ha]

/-- The state after `unpark_one` has released the oldest node of the address. -/
theorem Refines.release (h : Refines lot queue w) {before after : List Node}
    (hq : queue (hashAddress address) = before ++ node :: after)
    (hother : ∀ n ∈ before, lot.key n ≠ address) (hkey : lot.key node = address) :
    Refines (((lot.setLockState address 1).release address before.getLast? node).setLockState address 0)
      (Function.update queue (hashAddress address) (before ++ after))
      (Function.update w address (after.filter fun n => lot.key n = address)) := by
  have hrep := h.buckets (hashAddress address)
  rw [hq] at hrep
  let lot₁ := lot.setLockState address 1
  let lot₂ := (lot₁.setLink address before.getLast? (lot₁.next node)).fixTail address before.getLast? node
  let lot' := (lot₂.setWakeFlag node 1).setLockState address 0
  have hqueue : lot₁.Queue (hashAddress address) (before ++ node :: after) :=
    setLockState_queue.mpr hrep.list
  have hkey' : lot'.key = lot.key := by
    change (lot₂.setWakeFlag node 1).key = _
    rw [Lot.setWakeFlag_key, Lot.fixTail_key, Lot.setLink_key]
    rfl
  have hrep' : Represents lot' (hashAddress address) (before ++ after) := by
    refine represents_of ?_ ?_ ?_ fun n hmem => ?_
    · exact setLockState_queue.mpr (setWakeFlag_queue.mpr (fixTail_queue.mpr (queue_unlink hqueue)))
    · change (lot'.bucket address).tail = _
      rw [Lot.setLockState_bucket]
      refine tail_fix hrep.acyclic ((lot₁.setLink_tail ..).trans ?_)
      rw [Lot.setLockState_bucket]
      exact hrep.tail
    · change (lot'.bucket address).lockState = _
      rw [Lot.setLockState_bucket]
    · rw [hkey']
      refine hrep.home n ?_
      simp only [List.mem_append, List.mem_cons] at hmem ⊢
      tauto
  change Refines lot' _ _
  refine h.update hrep' (fun b hb => ?_) (fun b hb n hmem => ?_) ?_ fun a ha hb => ?_
  · exact (Lot.setBucket_of_ne _ _ _ hb).trans <| (Lot.fixTail_of_ne _ _ _ _ hb).trans <|
      (Lot.setLink_of_ne _ _ _ _ hb).trans (Lot.setBucket_of_ne _ _ _ hb)
  · refine ⟨?_, by rw [hkey']⟩
    have hprev : before.getLast? ≠ some n := by
      intro hp
      refine hb (h.disjoint hmem ?_)
      rw [hq]
      exact List.mem_append_left _ (List.mem_of_getLast? hp)
    change (lot₂.setWakeFlag node 1).next n = _
    rw [Lot.setWakeFlag_next, Lot.fixTail_next]
    exact Lot.setLink_next lot₁ address _ _ hprev
  · have hbefore : (before.filter fun n => lot.key n = address) = [] :=
      List.filter_eq_nil_iff.mpr (by simpa using hother)
    rw [hkey', List.filter_append, hbefore, List.nil_append]
  · rw [hkey', hb, hq, List.filter_append, List.filter_append, List.filter_cons_of_neg]
    simpa [hkey] using Ne.symm ha

theorem Refines.releaseAll (h : Refines lot queue w)
    (hrep' : Represents lot' (hashAddress address)
      ((queue (hashAddress address)).filter fun n => lot.key n ≠ address))
    (hagree : Agree lot lot' address (queue (hashAddress address))) :
    Refines lot' (Function.update queue (hashAddress address)
      ((queue (hashAddress address)).filter fun n => lot.key n ≠ address))
      (Function.update w address []) := by
  refine h.update hrep' hagree.buckets (fun b hb n hmem => ?_) ?_ fun a ha hb => ?_
  · exact ⟨hagree.next n fun hn => hb (h.disjoint hmem hn), by rw [hagree.key]⟩
  · rw [hagree.key, List.filter_filter]
    simp
  · rw [hagree.key, List.filter_filter, hb]
    refine List.filter_congr fun n _ => ?_
    by_cases hn : lot.key n = a
    · simp [hn, ha]
    · simp [hn]

theorem mem_update {q : List Node} {n : Node} :
    (∃ b, n ∈ Function.update queue (hashAddress address) q b) ↔
      n ∈ q ∨ ∃ b, b ≠ hashAddress address ∧ n ∈ queue b := by
  constructor
  · rintro ⟨b, hn⟩
    by_cases hb : b = hashAddress address
    · rw [hb, Function.update_self] at hn
      exact Or.inl hn
    · rw [Function.update_of_ne hb] at hn
      exact Or.inr ⟨b, hb, hn⟩
  · rintro (hn | ⟨b, hb, hn⟩)
    · exact ⟨hashAddress address, by rwa [Function.update_self]⟩
    · exact ⟨b, by rwa [Function.update_of_ne hb]⟩

/-- The lists of the buckets hold the nodes of the threads in `park`. -/
structure Sound (s : State Node) (queue : U64 → List Node) (w : Queues Node) : Prop where
  refines : Refines s.lot queue w
  parked : ∀ n, s.parked n = true ↔ ∃ b, n ∈ queue b

theorem exists_mem_iff {a : U64} {n : Node} : (∃ b, n ∈ queue b) ↔
    n ∈ queue (hashAddress a) ∨ ∃ b, b ≠ hashAddress a ∧ n ∈ queue b := by
  rw [← mem_update, Function.update_eq_self]

variable {s : State Node}

theorem Sound.park (h : Sound s queue w) (address : U64) (hnode : s.parked node = false) (valid : Bool) :
    ∃ lot' queue', (Op.park address node valid).Performs s.lot lot' (.parked valid) ∧
      Sound ⟨lot', (Op.park address node valid).parked s.parked (.parked valid)⟩ queue'
        ((Op.park address node valid).spec w).1 ∧ (valid = false → lot' = s.lot) := by
  have hfree := (h.refines.buckets (hashAddress address)).unlocked
  have hperforms : (Op.park address node valid).Performs s.lot
      (if valid then ((s.lot.setLockState address 1).enqueue address node).setLockState address 0
        else s.lot) (.parked valid) :=
    performs_of_solo (f := fun _ b => .parked b) (park_run hfree valid) fun _ => rfl
  have hnot : ∀ b, node ∉ queue b := by
    intro b hmem
    have hparked := (h.parked node).mpr ⟨b, hmem⟩
    rw [hnode] at hparked
    cases hparked
  cases valid with
  | false =>
      refine ⟨_, queue, hperforms, ⟨h.refines, fun n => ?_⟩, fun _ => rfl⟩
      rw [← h.parked n]
      by_cases hn : n = node
      · rw [hn, hnode]
        simp [Op.parked]
      · simp [Op.parked, hn]
  | true =>
      refine ⟨_, _, hperforms, ⟨h.refines.enqueue hnot, fun n => ?_⟩, nofun⟩
      rw [mem_update, List.mem_append, List.mem_singleton, or_right_comm,
        ← exists_mem_iff (a := address), ← h.parked n]
      by_cases hn : n = node
      · simp [Op.parked, hn]
      · simp [Op.parked, hn]

/-- The nodes that an operation wakes have left the list of the bucket. -/
theorem Sound.woken (h : Sound s queue w) {q woken : List Node}
    (hq : ∀ n, n ∈ q ↔ n ∈ queue (hashAddress address) ∧ n ∉ woken)
    (hwoken : ∀ n ∈ woken, n ∈ queue (hashAddress address)) (n : Node) :
    (if n ∈ woken then false else s.parked n) = true ↔
      ∃ b, n ∈ Function.update queue (hashAddress address) q b := by
  rw [mem_update, hq]
  by_cases hn : n ∈ woken
  · have hother : ¬ ∃ b, b ≠ hashAddress address ∧ n ∈ queue b := by
      rintro ⟨b, hb, hmem⟩
      exact hb (h.refines.disjoint hmem (hwoken n hn))
    simp [hn, hother]
  · rw [if_neg hn, h.parked n, exists_mem_iff (a := address)]
    simp [hn]

theorem Sound.unparkOne (h : Sound s queue w) (address : U64) :
    ∃ lot' queue', (Op.unparkOne address).Performs s.lot lot' ((Op.unparkOne address).spec w).2 ∧
      Sound ⟨lot', (Op.unparkOne address).parked s.parked ((Op.unparkOne address).spec w).2⟩ queue'
        ((Op.unparkOne address).spec w).1 ∧
      ∀ n ∈ ((Op.unparkOne address).spec w).2.woken, lot'.wakeFlag n ≠ 0 := by
  have hrep := h.refines.buckets (hashAddress address)
  have hw := h.refines.queues address
  cases hwaiting : w address with
  | nil =>
      rw [hwaiting, eq_comm, List.filter_eq_nil_iff] at hw
      have hother : ∀ n ∈ queue (hashAddress address), s.lot.key n ≠ address := by simpa using hw
      have hspec : (Op.unparkOne address).spec w = (w, .unparked [] .none) := by
        simp only [Op.spec, hwaiting]
      rw [hspec]
      refine ⟨s.lot, queue, performs_of_solo (f := .unparked)
        (unparkOne_run_none hrep.unlocked hrep.list hother) fun _ => rfl, ⟨h.refines, fun n => ?_⟩, nofun⟩
      simpa [Op.parked] using h.parked n
  | cons oldest rest =>
      rw [hwaiting, eq_comm, List.filter_eq_cons_iff] at hw
      obtain ⟨before, after, hq, hbefore, hkey, rfl⟩ := hw
      have hother : ∀ n ∈ before, s.lot.key n ≠ address := by simpa using hbefore
      replace hkey : s.lot.key oldest = address := by simpa using hkey
      have hresult : (if ∃ n ∈ before ++ after, s.lot.key n = address then UnparkResult.hasMoreWaiters
          else .noMoreWaiters) = if (after.filter fun n => s.lot.key n = address) = [] then
            .noMoreWaiters else .hasMoreWaiters := by
        have hiff : (∃ n ∈ before ++ after, s.lot.key n = address) ↔
            ¬ (after.filter fun n => s.lot.key n = address) = [] := by
          rw [List.filter_eq_nil_iff]
          constructor
          · rintro ⟨n, hmem, hn⟩ hnone
            rcases List.mem_append.mp hmem with hmem | hmem
            · exact hother n hmem hn
            · exact hnone n hmem (by simpa using hn)
          · intro hsome
            simp only [not_forall, not_not, decide_eq_true_eq] at hsome
            obtain ⟨n, hmem, hn⟩ := hsome
            exact ⟨n, List.mem_append_right _ hmem, hn⟩
        rw [if_congr hiff rfl rfl, ite_not]
      have hspec : (Op.unparkOne address).spec w = (Function.update w address
          (after.filter fun n => s.lot.key n = address), .unparked [oldest]
            (if ∃ n ∈ before ++ after, s.lot.key n = address then .hasMoreWaiters
              else .noMoreWaiters)) := by
        simp only [Op.spec, hwaiting, hresult]
      have hlist := hrep.list
      have hnodup := hrep.acyclic
      rw [hq] at hlist hnodup
      rw [hspec]
      refine ⟨_, _, performs_of_solo (f := .unparked)
        (unparkOne_run_some hrep.unlocked hlist hother hkey) fun _ => rfl,
        ⟨h.refines.release hq hother hkey, h.woken (fun n => ?_) fun n hn => ?_⟩, fun n hn => ?_⟩
      · have hperm : (oldest :: (before ++ after)).Nodup := List.perm_middle.nodup_iff.mp hnodup
        have hout := (List.nodup_cons.mp hperm).1
        rw [hq, List.mem_singleton]
        constructor
        · intro hmem
          refine ⟨?_, fun he => hout (he ▸ hmem)⟩
          exact List.perm_middle.mem_iff.mpr (List.mem_cons_of_mem _ hmem)
        · rintro ⟨hmem, hne⟩
          exact (List.mem_cons.mp (List.perm_middle.mem_iff.mp hmem)).resolve_left hne
      · rw [hq, List.mem_singleton.mp hn]
        simp
      · rw [List.mem_singleton.mp hn]
        change (Lot.setWakeFlag _ oldest 1).wakeFlag oldest ≠ 0
        rw [Lot.setWakeFlag_wakeFlag, Function.update_self]
        decide

theorem Sound.unparkAll (h : Sound s queue w) (address : U64) :
    ∃ lot' queue', (Op.unparkAll address).Performs s.lot lot' ((Op.unparkAll address).spec w).2 ∧
      Sound ⟨lot', (Op.unparkAll address).parked s.parked ((Op.unparkAll address).spec w).2⟩ queue'
        ((Op.unparkAll address).spec w).1 ∧
      ∀ n ∈ ((Op.unparkAll address).spec w).2.woken, lot'.wakeFlag n ≠ 0 := by
  obtain ⟨lot', hrun, hrep', hagree, hflag⟩ := unparkAll_run (h.refines.buckets (hashAddress address))
  have hw := h.refines.queues address
  rw [← hw] at hrun hflag
  refine ⟨lot', _, performs_of_solo (f := .unparkedAll) hrun fun _ => rfl,
    ⟨h.refines.releaseAll hrep' hagree, h.woken (fun n => ?_) fun n hn => ?_⟩, hflag⟩
  · rw [hw, List.mem_filter, List.mem_filter]
    simp only [decide_eq_true_eq]
    tauto
  · rw [hw] at hn
    exact List.mem_of_mem_filter hn

theorem Sound.init : Sound (operations Node).init (fun _ => []) (fun _ => []) where
  refines := ⟨fun _ => ⟨rfl, List.nodup_nil, rfl, Iff.rfl, rfl, fun _ h => nomatch h⟩, fun _ => rfl⟩
  parked _ := ⟨fun h => (nomatch h), fun ⟨_, h⟩ => (nomatch h)⟩

/-- Every operation does what the queues say, and a failed validation changes nothing. -/
theorem Sound.performs (h : Sound s queue w) {op : Op Node} (hop : op.enabled s = true) :
    ∃ lot' queue', op.Performs s.lot lot' (op.spec w).2 ∧
      Sound ⟨lot', op.parked s.parked (op.spec w).2⟩ queue' (op.spec w).1 ∧
      (∀ n ∈ (op.spec w).2.woken, lot'.wakeFlag n ≠ 0) ∧
      ∀ address node, op = .park address node false → lot' = s.lot := by
  cases op with
  | park address node valid =>
      have hnode : s.parked node = false := by simpa [Op.enabled] using hop
      obtain ⟨lot', queue', hperforms, hsound, hsame⟩ := h.park address hnode valid
      cases valid with
      | false => exact ⟨lot', queue', hperforms, hsound, nofun, fun _ _ _ => hsame rfl⟩
      | true => exact ⟨lot', queue', hperforms, hsound, nofun, nofun⟩
  | unparkOne address =>
      obtain ⟨lot', queue', hperforms, hsound, hflag⟩ := h.unparkOne address
      exact ⟨lot', queue', hperforms, hsound, hflag, nofun⟩
  | unparkAll address =>
      obtain ⟨lot', queue', hperforms, hsound, hflag⟩ := h.unparkAll address
      exact ⟨lot', queue', hperforms, hsound, hflag, nofun⟩

theorem perform_eq_some {fuel : ℕ} {op : Op Node} {s' : State Node} {o : Outcome Node}
    (h : perform fuel s op = some (s', o)) : op.enabled s = true ∧
      ∃ lot', op.exec fuel s.lot = some (lot', o) ∧ s' = ⟨lot', op.parked s.parked o⟩ := by
  simp only [perform, Option.ite_none_right_eq_some, Option.map_eq_some_iff] at h
  obtain ⟨hop, ⟨lot', o'⟩, hexec, heq⟩ := h
  cases heq
  exact ⟨hop, lot', hexec, rfl⟩

theorem sound_of_reachable (h : (operations Node).Reachable anyStep s) :
    ∃ queue w, Sound s queue w := by
  refine h.induct (I := fun s => ∃ queue w, Sound s queue w) ⟨_, _, .init⟩ ?_
  rintro s ⟨op, fuel⟩ s' - ⟨queue, w, ih⟩ hnext -
  simp only [operations, Option.map_eq_some_iff] at hnext
  obtain ⟨⟨s', o⟩, hperform, rfl⟩ := hnext
  obtain ⟨hop, lot', hexec, rfl⟩ := perform_eq_some hperform
  obtain ⟨lot₁, queue', hperforms, hsound, -⟩ := ih.performs hop
  cases hperforms.2 fuel _ hexec
  exact ⟨queue', _, hsound⟩

/-- After every sequence of operations the lists of the buckets represent a queue for each address,
and the next operation ends, does to the queues what `Op.spec` says and returns what it says. -/
theorem parking_lot_refines_queues (h : (operations Node).Reachable anyStep s) :
    ∃ queue w, Refines s.lot queue w ∧ ∀ op : Op Node, op.enabled s = true →
      (∃ fuel, (perform fuel s op).isSome) ∧
      ∀ fuel s' o, perform fuel s op = some (s', o) → o = (op.spec w).2 ∧
        (∃ queue', Refines s'.lot queue' (op.spec w).1) ∧
        (∀ a, a ≠ op.address → (op.spec w).1 a = w a) ∧
        (∀ n ∈ o.woken, s'.lot.wakeFlag n ≠ 0) ∧ ∀ a n, op = .park a n false → s'.lot = s.lot := by
  obtain ⟨queue, w, hsound⟩ := sound_of_reachable h
  refine ⟨queue, w, hsound.refines, fun op hop => ?_⟩
  obtain ⟨lot', queue', ⟨⟨fuel, hfuel⟩, honly⟩, hsound', hflag, hsame⟩ := hsound.performs hop
  refine ⟨⟨fuel, ?_⟩, fun fuel' s' o hperform => ?_⟩
  · rw [perform, if_pos hop, hfuel]
    rfl
  · obtain ⟨-, lot₁, hexec, rfl⟩ := perform_eq_some hperform
    cases honly fuel' _ hexec
    exact ⟨rfl, ⟨queue', hsound'.refines⟩, fun a ha => op.spec_others w ha, hflag, hsame⟩

/-- Three threads are parked in one bucket, `b` on another address than `a` and `c`. -/
def collidingRun : List (Op Runner × ℕ) :=
  [(.park 0x1000 .a true, 20), (.park 0x1200 .b true, 20), (.park 0x1000 .c true, 20)]

theorem parking_lot_refines_queues_colliding : hashAddress 0x1000 = hashAddress 0x1200 ∧
    ∃ (s : State Runner) (queue : U64 → List Runner) (w : Queues Runner), s.parked .a = true ∧
      s.parked .b = true ∧ s.parked .c = true ∧ Refines s.lot queue w ∧
        ∃ fuel, (perform fuel s (.unparkOne 0x1000)).isSome :=
  let M := operations Runner
  let s := (M.run anyStep M.init collidingRun).get (by decide)
  have ⟨queue, w, hrefines, hall⟩ := parking_lot_refines_queues (s := s) (.of_run _ _)
  ⟨by decide, s, queue, w, by decide, by decide, by decide, hrefines,
    (hall (.unparkOne 0x1000) rfl).1⟩

end Psync.LinkedLot
