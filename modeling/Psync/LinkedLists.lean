import Psync.LinkedQueue
import Psync.ParkingState

/-! The parking lot over lists, on which the locks are built, beside the one with pointers. One call after the
other, both do to the queues of the addresses what `Op.spec` says, so they return the same and wake the same
threads. The lists have no `unpark_all`, which no lock calls. -/

namespace Psync.LinkedLot

open Concurrency
open ParkingLot (UnparkResult hashAddress)

set_option linter.unusedSectionVars false

variable {Node : Type*} [DecidableEq Node]

/-! ### The calls over lists -/

def ofFlow {P R : Type*} : Unit × ParkingLot.Lot Node × ParkingLot.Flow P R → Next (ParkingLot.Lot Node) P R
  | (_, lot, .at pc) => .at lot pc
  | (_, lot, .ret result) => .ret lot result

/-- `park` up to the loop on the wake flag; the callback returns `valid`. -/
def listPark (address : U64) (node : Node) (valid : Bool) (lot : ParkingLot.Lot Node)
    (pc : ParkingLot.ParkPc Node Unit) :
    Option (Next (ParkingLot.Lot Node) (ParkingLot.ParkPc Node Unit) Bool) :=
  match (ParkingLot.park () (fun _ _ => ((), .ret valid)) address node () lot pc).map ofFlow with
  | some (.at lot' .load) => some (.ret lot' true)
  | r => r

/-- `unpark_one`, which returns from its call into the kernel. The callback does not touch the parking lot. -/
def listUnparkOne (address : U64) (lot : ParkingLot.Lot Node) (pc : ParkingLot.UnparkPc Node) :
    Option (Next (ParkingLot.Lot Node) (ParkingLot.UnparkPc Node) UnparkResult) :=
  match ParkingLot.unparkWake id pc with
  | some call => some (.ret lot call.after)
  | none => (ParkingLot.unparkOne (fun _ _ => ()) address () lot pc).map ofFlow

/-- The thread that `futex::wake` is called for. -/
def listWakes (pc : ParkingLot.UnparkPc Node) : List Node :=
  ((ParkingLot.unparkWake (id : UnparkResult → UnparkResult) pc).map WakeCall.addr).toList

/-- The code of an operation over lists, run alone for at most `fuel` steps. -/
def Op.execLists (fuel : ℕ) (lot : ParkingLot.Lot Node) :
    Op Node → Option (ParkingLot.Lot Node × Outcome Node)
  | .park address node valid =>
      (Concurrency.exec (listPark address node valid) (fun _ => ([] : List Node)) fuel lot .lockBucket).map
        fun o => (o.2.1, .parked o.2.2)
  | .unparkOne address =>
      (Concurrency.exec (listUnparkOne address) listWakes fuel lot .lockBucket).map
        fun o => (o.2.1, .unparked o.1 o.2.2)
  | .unparkAll _ => none

/-- The lists of the buckets, with the bucket locks free, hold the queues. -/
structure Lists (lot : ParkingLot.Lot Node) (w : Queues Node) : Prop where
  unlocked : ∀ b, (lot.buckets b).lockState = 0
  queues : ∀ address, w address = ((lot.bucket address).queue.filter fun x => x.1 = address).map Prod.snd

/-! ### The scan -/

variable {address : U64} {queue : List (U64 × Node)} {w : Queues Node} {lot lot' : ParkingLot.Lot Node}

theorem unlink_target : (ParkingLot.unlink address queue).1 =
    ((queue.filter fun x => x.1 = address).map Prod.snd).head? := by
  induction queue with
  | nil => rfl
  | cons curr next ih =>
      rw [ParkingLot.unlink]
      by_cases hkey : curr.1 = address
      · simp [hkey]
      · simp [hkey, ih]

theorem unlink_rest : ((ParkingLot.unlink address queue).2.filter fun x => x.1 = address) =
    (queue.filter fun x => x.1 = address).tail := by
  induction queue with
  | nil => rfl
  | cons curr next ih =>
      rw [ParkingLot.unlink]
      by_cases hkey : curr.1 = address
      · simp [hkey]
      · simp [hkey, ih]

theorem unlink_other {a : U64} (ha : a ≠ address) :
    ((ParkingLot.unlink address queue).2.filter fun x => x.1 = a) = queue.filter fun x => x.1 = a := by
  induction queue with
  | nil => rfl
  | cons curr next ih =>
      rw [ParkingLot.unlink]
      by_cases hkey : curr.1 = address
      · simp [hkey, Ne.symm ha]
      · rw [if_neg hkey, List.filter_cons, List.filter_cons, ih]

theorem hasMore_eq : ParkingLot.hasMore address queue = ((queue.filter fun x => x.1 = address) ≠ [] : Bool) := by
  rw [Bool.eq_iff_iff, decide_eq_true_iff, ne_eq, List.filter_eq_nil_iff]
  simp [ParkingLot.hasMore]

/-! ### Runs -/

/-- What a call leaves of the bucket of its address. -/
structure Leaves (lot lot' : ParkingLot.Lot Node) (address : U64) (queue : List (U64 × Node)) : Prop where
  bucket : lot'.bucket address = ⟨0, queue⟩
  others : ∀ b, b ≠ hashAddress address → lot'.buckets b = lot.buckets b

theorem leaves_of_unlock (hqueue : (lot'.bucket address).queue = queue)
    (hothers : ∀ b, b ≠ hashAddress address → lot'.buckets b = lot.buckets b) :
    Leaves lot (ParkingLot.unlockBucket address lot') address queue := by
  refine ⟨?_, fun b hb => (ParkingLot.setBucket_of_ne _ hb).trans (hothers b hb)⟩
  rw [← hqueue]
  exact ParkingLot.setBucket_self ..

theorem listPark_run (hfree : (lot.bucket address).lockState = 0) (node : Node) (valid : Bool) :
    ∃ lot', Solo (listPark address node valid) (fun _ => ([] : List Node)) lot .lockBucket [] lot' valid ∧
      Leaves lot lot' address (if valid then (lot.bucket address).queue ++ [(address, node)]
        else (lot.bucket address).queue) := by
  have hlock : listPark address node valid lot .lockBucket =
      some (.at (lot.setLockState address 1) (.validate ())) := by
    simp only [listPark, ParkingLot.park, ParkingLot.lockBucket, if_pos hfree, Option.map_some, ofFlow]
  have hbucket : (lot.setLockState address 1).bucket address = { lot.bucket address with lockState := 1 } :=
    ParkingLot.setBucket_self ..
  cases valid with
  | false =>
      refine ⟨_, .quiet hlock rfl (.quiet rfl rfl (.done rfl rfl)), leaves_of_unlock ?_ fun b hb => ?_⟩
      · rw [hbucket]
        rfl
      · exact ParkingLot.setBucket_of_ne _ hb
  | true =>
      refine ⟨_, .quiet hlock rfl (.quiet rfl rfl (.quiet rfl rfl (.done rfl rfl))),
        leaves_of_unlock ?_ fun b hb => ?_⟩
      · rw [ParkingLot.Lot.enqueue, ParkingLot.Lot.bucket, ParkingLot.setQueue_queue]
        have hqueue : ((lot.setLockState address 1).bucket address).queue = (lot.bucket address).queue := by
          rw [hbucket]
        exact congrArg (fun queue => queue ++ [(address, node)]) hqueue
      · exact (ParkingLot.setBucket_of_ne _ hb).trans (ParkingLot.setBucket_of_ne _ hb)

theorem listUnparkOne_run (hfree : (lot.bucket address).lockState = 0) :
    ∃ lot', Solo (listUnparkOne address) listWakes lot .lockBucket
        (ParkingLot.unlink address (lot.bucket address).queue).1.toList lot'
        (ParkingLot.unparkResult (ParkingLot.unlink address (lot.bucket address).queue).1
          (ParkingLot.hasMore address (ParkingLot.unlink address (lot.bucket address).queue).2)) ∧
      Leaves lot lot' address (ParkingLot.unlink address (lot.bucket address).queue).2 := by
  have hlock : listUnparkOne address lot .lockBucket = some (.at (lot.setLockState address 1) .dequeue) := by
    simp only [listUnparkOne, ParkingLot.unparkWake, ParkingLot.unparkOne, ParkingLot.lockBucket, if_pos hfree,
      Option.map_some, ofFlow]
  have hbucket : (lot.setLockState address 1).bucket address = { lot.bucket address with lockState := 1 } :=
    ParkingLot.setBucket_self ..
  generalize hr : ParkingLot.unlink address (lot.bucket address).queue = r
  obtain ⟨target, rest⟩ := r
  have hdequeue : listUnparkOne address (lot.setLockState address 1) .dequeue =
      some (.at ((lot.setLockState address 1).setQueue address rest)
        (.callback target (ParkingLot.unparkResult target (ParkingLot.hasMore address rest)))) := by
    simp only [listUnparkOne, ParkingLot.unparkWake, ParkingLot.unparkOne, hbucket, hr, Option.map_some, ofFlow]
  have hqueue : (((lot.setLockState address 1).setQueue address rest).bucket address).queue = rest := by
    rw [ParkingLot.Lot.bucket, ParkingLot.setQueue_queue]
  have hothers : ∀ b, b ≠ hashAddress address →
      ((lot.setLockState address 1).setQueue address rest).buckets b = lot.buckets b :=
    fun b hb => (ParkingLot.setBucket_of_ne _ hb).trans (ParkingLot.setBucket_of_ne _ hb)
  cases target with
  | none =>
      exact ⟨_, .quiet hlock rfl (.quiet hdequeue rfl (.quiet rfl rfl (.done rfl rfl))),
        leaves_of_unlock hqueue hothers⟩
  | some target =>
      refine ⟨_, .quiet hlock rfl (.quiet hdequeue rfl (.quiet rfl rfl (.quiet rfl rfl (.quiet rfl rfl (.ret rfl))))),
        leaves_of_unlock hqueue hothers⟩

/-! ### Both levels do what the queues say -/

theorem Lists.init : Lists (.init : ParkingLot.Lot Node) fun _ => [] := ⟨fun _ => rfl, fun _ => rfl⟩

theorem Lists.update (h : Lists lot w) (hleaves : Leaves lot lot' address queue) {v : List Node}
    (hself : v = (queue.filter fun x => x.1 = address).map Prod.snd)
    (hother : ∀ a, a ≠ address → (queue.filter fun x => x.1 = a) =
      (lot.bucket address).queue.filter fun x => x.1 = a) : Lists lot' (Function.update w address v) := by
  refine ⟨fun b => ?_, fun a => ?_⟩
  · by_cases hb : b = hashAddress address
    · rw [hb]
      exact congrArg ParkingLot.Bucket.lockState hleaves.bucket
    · rw [hleaves.others b hb]
      exact h.unlocked b
  · by_cases ha : a = address
    · rw [ha, Function.update_self, hleaves.bucket]
      exact hself
    · rw [Function.update_of_ne ha, h.queues a]
      by_cases hb : hashAddress a = hashAddress address
      · have hsame : ∀ lot : ParkingLot.Lot Node, lot.bucket a = lot.bucket address :=
          fun lot => congrArg lot.buckets hb
        rw [hsame, hsame, hleaves.bucket, hother a ha]
      · rw [ParkingLot.Lot.bucket, ParkingLot.Lot.bucket, hleaves.others _ hb]

/-- The operation ends over lists, and every evaluation that ends has this outcome. -/
def Op.PerformsLists (op : Op Node) (lot lot' : ParkingLot.Lot Node) (o : Outcome Node) : Prop :=
  (∃ fuel, op.execLists fuel lot = some (lot', o)) ∧ ∀ fuel r, op.execLists fuel lot = some r → r = (lot', o)

theorem performsLists_of_solo {P R : Type*}
    {step : ParkingLot.Lot Node → P → Option (Next (ParkingLot.Lot Node) P R)} {emit : P → List Node} {pc : P}
    {es : List Node} {r : R} {f : List Node → R → Outcome Node} {op : Op Node}
    (hrun : Solo step emit lot pc es lot' r)
    (hop : ∀ fuel, op.execLists fuel lot =
      (Concurrency.exec step emit fuel lot pc).map fun o => (o.2.1, f o.1 o.2.2)) :
    op.PerformsLists lot lot' (f es r) := by
  refine ⟨?_, fun fuel o ho => ?_⟩
  · obtain ⟨fuel, hfuel⟩ := hrun.exec
    exact ⟨fuel, by rw [hop, hfuel]; rfl⟩
  · rw [hop, Option.map_eq_some_iff] at ho
    obtain ⟨o', ho', rfl⟩ := ho
    rw [hrun.eq_of_exec ho']

theorem Lists.park (h : Lists lot w) (address : U64) (node : Node) (valid : Bool) :
    ∃ lot', (Op.park address node valid).PerformsLists lot lot' (.parked valid) ∧
      Lists lot' ((Op.park address node valid).spec w).1 := by
  obtain ⟨lot', hrun, hleaves⟩ := listPark_run (h.unlocked (hashAddress address)) node valid
  refine ⟨lot', performsLists_of_solo (f := fun _ b => .parked b) hrun fun _ => rfl, ?_⟩
  cases valid with
  | false =>
      have hsame := h.update hleaves (h.queues address) fun _ _ => rfl
      rwa [Function.update_eq_self] at hsame
  | true =>
      refine h.update hleaves ?_ fun a ha => ?_
      · simp [h.queues address]
      · simp [Ne.symm ha]

theorem Lists.unparkOne (h : Lists lot w) (address : U64) :
    ∃ lot', (Op.unparkOne address).PerformsLists lot lot' ((Op.unparkOne address).spec w).2 ∧
      Lists lot' ((Op.unparkOne address).spec w).1 := by
  obtain ⟨lot', hrun, hleaves⟩ := listUnparkOne_run (h.unlocked (hashAddress address))
  have hqueue := h.queues address
  have hupdate := h.update (v := (w address).tail) hleaves
    (by rw [unlink_rest, List.map_tail, hqueue]) fun a ha => unlink_other ha
  have hperforms : (Op.unparkOne address).PerformsLists lot lot' (.unparked _ _) :=
    performsLists_of_solo (f := .unparked) hrun fun _ => rfl
  refine ⟨lot', ?_⟩
  rw [unlink_target, hasMore_eq, unlink_rest, ← hqueue] at hperforms
  cases hw : w address with
  | nil =>
      have hsame : Function.update w address (w address).tail = w := by
        rw [hw, List.tail_nil, ← hw, Function.update_eq_self]
      have hspec : (Op.unparkOne address).spec w = (w, .unparked [] .none) := by
        simp only [Op.spec, hw]
      rw [hspec]
      rw [hsame] at hupdate
      rw [hw] at hperforms
      exact ⟨hperforms, hupdate⟩
  | cons oldest rest =>
      have hrest : rest = [] ↔ ((lot.bucket address).queue.filter fun x => x.1 = address).tail = [] := by
        rw [← List.map_eq_nil_iff (f := Prod.snd), List.map_tail, ← hqueue, hw, List.tail_cons]
      have hspec : (Op.unparkOne address).spec w = (Function.update w address (w address).tail,
          .unparked [oldest] (if rest = [] then .noMoreWaiters else .hasMoreWaiters)) := by
        simp only [Op.spec, hw, List.tail_cons]
      rw [hspec]
      refine ⟨?_, hupdate⟩
      rw [hw] at hperforms
      by_cases hnone : rest = []
      · rw [if_pos hnone]
        rw [hrest.mp hnone] at hperforms
        exact hperforms
      · rw [if_neg hnone]
        have htail := hrest.not.mp hnone
        simp only [ne_eq, htail, not_false_eq_true, decide_true] at hperforms
        exact hperforms

/-- Both levels side by side. The label of a step is an operation and the bounds for its two runs. -/
def together (Node : Type*) [DecidableEq Node] : Machine (State Node × ParkingLot.Lot Node) (Op Node × ℕ × ℕ) where
  init := ((operations Node).init, .init)
  next s a := (perform a.2.1 s.1 a.1).bind fun r => (a.1.execLists a.2.2 s.2).map fun r' => (r.1, r'.1)

theorem Lists.performs (h : Lists lot w) {op : Op Node} (hone : ∀ address, op ≠ .unparkAll address) :
    ∃ lot', op.PerformsLists lot lot' (op.spec w).2 ∧ Lists lot' (op.spec w).1 := by
  cases op with
  | park address node valid =>
      obtain ⟨lot', hperforms, hlists⟩ := h.park address node valid
      cases valid <;> exact ⟨lot', hperforms, hlists⟩
  | unparkOne address => exact h.unparkOne address
  | unparkAll address => exact absurd rfl (hone address)

theorem lists_of_reachable {s : State Node × ParkingLot.Lot Node} (h : (together Node).Reachable anyStep s) :
    ∃ queue w, Sound s.1 queue w ∧ Lists s.2 w := by
  refine h.induct (I := fun s => ∃ queue w, Sound s.1 queue w ∧ Lists s.2 w) ⟨_, _, .init, .init⟩ ?_
  rintro ⟨s, lot⟩ ⟨op, fuel, fuel'⟩ s' - ⟨queue, w, hsound, hlists⟩ hnext -
  simp only [together, Option.bind_eq_some_iff, Option.map_eq_some_iff] at hnext
  obtain ⟨⟨s₁, o⟩, hperform, ⟨lot₁, o'⟩, hexec, rfl⟩ := hnext
  obtain ⟨hop, lot₂, hlinked, rfl⟩ := perform_eq_some hperform
  obtain ⟨lot₃, queue', hperforms, hsound', -⟩ := hsound.performs hop
  have hone : ∀ address, op ≠ .unparkAll address := by
    rintro address rfl
    cases hexec
  obtain ⟨lot₄, hperforms', hlists'⟩ := hlists.performs hone
  cases hperforms.2 fuel _ hlinked
  cases hperforms'.2 fuel' _ hexec
  exact ⟨queue', _, hsound', hlists'⟩

/-- After every sequence of calls of `park` and `unpark_one` the next one ends at both levels, returns the same
and wakes the same threads. -/
theorem lists_agree {s : State Node × ParkingLot.Lot Node} (h : (together Node).Reachable anyStep s)
    {op : Op Node} (hop : op.enabled s.1 = true) (hone : ∀ address, op ≠ .unparkAll address) :
    (∃ fuel fuel', ((together Node).next s (op, fuel, fuel')).isSome) ∧
      ∀ fuel s' o fuel' lot' o', perform fuel s.1 op = some (s', o) →
        op.execLists fuel' s.2 = some (lot', o') → o = o' := by
  obtain ⟨queue, w, hsound, hlists⟩ := lists_of_reachable h
  obtain ⟨lot₁, queue', ⟨⟨fuel, hfuel⟩, honly⟩, -⟩ := hsound.performs hop
  obtain ⟨lot₂, ⟨⟨fuel', hfuel'⟩, honly'⟩, -⟩ := hlists.performs hone
  refine ⟨⟨fuel, fuel', ?_⟩, fun fuel s' o fuel' lot' o' hperform hexec => ?_⟩
  · simp only [together, perform, if_pos hop, hfuel, hfuel', Option.map_some, Option.bind_some, Option.isSome_some]
  · obtain ⟨-, lot₃, hlinked, -⟩ := perform_eq_some hperform
    cases honly fuel _ hlinked
    cases honly' fuel' _ hexec
    rfl

end Psync.LinkedLot
