import Psync.LinkedSteps

/-! A waiter node lives on the stack of the thread that parks on it. Whoever else touches the node has
it in its hands, and the owner is then still parked: the flag that lets the owner return is the last
access of any other thread. -/

namespace Psync.LinkedLot

open Concurrency
open ParkingLot (UnparkResult hashAddress)

set_option linter.unusedSectionVars false

variable {Tid Node : Type*} [Fintype Tid] [DecidableEq Tid] [DecidableEq Node] {owner : Node → Tid}
  {queue : U64 → List Node} {s : Process Tid Node} {w : History Tid Node} {t : Tid} {n m : Node}

/-! ### Steps that leave a node alone -/

section ignores

variable {lot : Lot Node} {address : U64} {v : WaiterNode Node} {p r : Option Node}

theorem setNode_nodes_of_ne (hm : m ≠ n) : (lot.setNode n v).nodes m = lot.nodes m :=
  Function.update_of_ne hm ..

/-- Writes to two nodes commute. -/
theorem setNode_comm (hm : m ≠ n) (g : WaiterNode Node → WaiterNode Node) :
    (lot.setNode n v).setNode m (g ((lot.setNode n v).nodes m)) =
      (lot.setNode m (g (lot.nodes m))).setNode n v := by
  rw [setNode_nodes_of_ne hm, Lot.setNode, Lot.setNode, Lot.setNode, Lot.setNode, Lot.mk.injEq]
  exact ⟨rfl, Function.update_comm hm.symm ..⟩

theorem setKey_setNode (hm : m ≠ n) (key : U64) :
    (lot.setNode n v).setKey m key = (lot.setKey m key).setNode n v :=
  setNode_comm hm fun x => { x with key := key }

theorem setWakeFlag_setNode (hm : m ≠ n) (flag : U32) :
    (lot.setNode n v).setWakeFlag m flag = (lot.setWakeFlag m flag).setNode n v :=
  setNode_comm hm fun x => { x with wakeFlag := flag }

theorem setNext_setNode (hm : m ≠ n) (p : Option Node) :
    (lot.setNode n v).setNext m p = (lot.setNext m p).setNode n v :=
  setNode_comm hm fun x => { x with next := p }

theorem setLink_setNode (hp : p ≠ some n) :
    (lot.setNode n v).setLink address p r = (lot.setLink address p r).setNode n v := by
  cases p with
  | none => rfl
  | some prev => exact setNext_setNode (fun he => hp (by rw [he])) r

theorem fixTail_setNode : (lot.setNode n v).fixTail address p m = (lot.fixTail address p m).setNode n v := by
  rw [Lot.fixTail, Lot.fixTail]
  change (if (lot.bucket address).tail = some m then _ else _) = _
  split_ifs <;> rfl

theorem append_setNode (hp : p ≠ some n) :
    (lot.setNode n v).append p m = (lot.append p m).setNode n v := by
  cases p with
  | none => rfl
  | some tail => exact setNext_setNode (fun he => hp (by rw [he])) _

theorem lockBucket_setNode {P R : Type*} {locked retry : P} :
    (lockBucket address (lot.setNode n v) locked retry : Next (Lot Node) P R) =
      (lockBucket address lot locked retry).map (·.setNode n v) := by
  rw [lockBucket, lockBucket]
  change (if (lot.bucket address).lockState = 0 then _ else _) = _
  split_ifs <;> rfl

theorem park_setNode {valid : Bool} {pc : ParkPc} (hm : m ≠ n) (htail : (lot.bucket address).tail ≠ some n) :
    park address m valid (lot.setNode n v) pc =
      (park address m valid lot pc).map fun r => r.map (·.setNode n v) := by
  cases pc with
  | lockBucket => exact congrArg some lockBucket_setNode
  | validate => rfl
  | abort => rfl
  | setKey => rw [park, park, setKey_setNode hm]; rfl
  | setFlag => rw [park, park, setWakeFlag_setNode hm]; rfl
  | setNext => rw [park, park, setNext_setNode hm]; rfl
  | link =>
      rw [park, park]
      exact congrArg some (congrArg (Next.at · _) (setLink_setNode htail))
  | setTail => rfl
  | unlockBucket => rfl
  | load =>
      rw [park, park, setNode_nodes_of_ne hm]
      split_ifs <;> rfl
  | wait => rfl

/-- A step of `unpark_one` leaves alone every node it has no pointer to. -/
theorem unparkOne_setNode {pc : UnparkPc Node} (hn : n ∉ pc.pointers) :
    unparkOne address (lot.setNode n v) pc = (unparkOne address lot pc).map (·.setNode n v) := by
  cases pc with
  | lockBucket => exact lockBucket_setNode
  | loadHead => rfl
  | key prev curr =>
      rw [unparkOne, unparkOne, setNode_nodes_of_ne (List.ne_of_not_mem_cons hn).symm]
      rfl
  | next curr =>
      rw [unparkOne, unparkOne, setNode_nodes_of_ne (List.ne_of_not_mem_cons hn).symm]
      rfl
  | loadNext prev target =>
      rw [unparkOne, unparkOne, setNode_nodes_of_ne (List.ne_of_not_mem_cons hn).symm]
      rfl
  | unlink prev target next =>
      rw [unparkOne, unparkOne, setLink_setNode fun hp => hn (by simp [UnparkPc.pointers, hp])]
      rfl
  | fixTail prev target =>
      rw [unparkOne, unparkOne, fixTail_setNode]
      rfl
  | loadCheck target => rfl
  | checkKey target check =>
      rw [unparkOne, unparkOne, setNode_nodes_of_ne fun he => hn (by simp [UnparkPc.pointers, he])]
      rfl
  | checkNext target check =>
      rw [unparkOne, unparkOne, setNode_nodes_of_ne fun he => hn (by simp [UnparkPc.pointers, he])]
      rfl
  | callback target result => cases target <;> rfl
  | setFlag target result =>
      rw [unparkOne, unparkOne, setWakeFlag_setNode (List.ne_of_not_mem_cons hn).symm]
      rfl
  | unlockBucket target result => cases target <;> rfl
  | wake target result => rfl

theorem wakeAll_setNode {count : ℕ} {curr : Option Node} :
    wakeAll (lot.setNode n v) count curr = (wakeAll lot count curr).map (·.setNode n v) := by
  cases curr <;> rfl

/-- A step of `unpark_all` leaves alone every node it has no pointer to. -/
theorem unparkAll_setNode {pc : UnparkAllPc Node} (hn : n ∉ pc.pointers) :
    unparkAll address (lot.setNode n v) pc = (unparkAll address lot pc).map (·.setNode n v) := by
  cases pc with
  | lockBucket => exact lockBucket_setNode
  | loadHead => rfl
  | next l curr =>
      rw [unparkAll, unparkAll, setNode_nodes_of_ne (List.ne_of_not_mem_cons hn).symm]
      rfl
  | key l curr next =>
      rw [unparkAll, unparkAll, setNode_nodes_of_ne (List.ne_of_not_mem_cons hn).symm]
      rfl
  | unlink l curr next =>
      rw [unparkAll, unparkAll, setLink_setNode fun hp => hn (by simp [UnparkAllPc.pointers, hp])]
      rfl
  | fixTail l curr next =>
      rw [unparkAll, unparkAll, fixTail_setNode]
      rfl
  | clear l curr next =>
      rw [unparkAll, unparkAll, setNext_setNode (List.ne_of_not_mem_cons hn).symm]
      rfl
  | link l curr next =>
      rw [unparkAll, unparkAll, append_setNode fun hp => hn (by simp [UnparkAllPc.pointers, hp])]
      rfl
  | unlockBucket l =>
      have hwake : wakeAll ((lot.setLockState address 0).setNode n v) l.count l.toWakeHead = _ :=
        wakeAll_setNode
      exact hwake
  | wakeNext count curr =>
      rw [unparkAll, unparkAll, setNode_nodes_of_ne (List.ne_of_not_mem_cons hn).symm]
      rfl
  | setFlag count curr next =>
      rw [unparkAll, unparkAll, setWakeFlag_setNode (List.ne_of_not_mem_cons hn).symm]
      rfl
  | wake count curr next => exact wakeAll_setNode

theorem enter_map {P R : Type*} {call : P → Pc Node} {r : Next (Lot Node) P R} :
    enter call (r.map fun lot => lot.setNode n v) = ((enter call r).1.setNode n v, (enter call r).2) := by
  cases r <;> rfl

theorem run_setNode {valid : Bool} {th : Pc Node} (hpointers : n ∉ th.pointers)
    (hpark : ∀ address pc, th ≠ .park address n pc) (htail : ∀ b, (lot.buckets b).tail ≠ some n) :
    run valid (lot.setNode n v) th = (run valid lot th).map fun r => (r.1.setNode n v, r.2) := by
  cases th with
  | idle => rfl
  | park address node pc =>
      have hne : node ≠ n := by
        rintro rfl
        exact hpark address pc rfl
      rw [run, run, park_setNode hne (htail _), Option.map_map, Option.map_map]
      congr 1
      funext r
      exact enter_map
  | unparkOne address pc =>
      cases pc with
      | wake target result => rfl
      | _ => exact congrArg some ((congrArg _ (unparkOne_setNode hpointers)).trans enter_map)
  | unparkAll address pc =>
      cases pc with
      | wake count curr next => rfl
      | _ => exact congrArg some ((congrArg _ (unparkAll_setNode hpointers)).trans enter_map)

/-- A thread leaves alone every node that it is not parked on, that it has no pointer to, and that no
bucket ends in. -/
theorem ignores (howner : owner n ≠ t) (hpointers : n ∉ (s.thread t).pointers)
    (hpark : ∀ address pc, s.thread t ≠ .park address n pc)
    (htail : ∀ b, (s.mem.buckets b).tail ≠ some n) : Ignores owner s t n where
  step l v := by
    cases l with
    | park address node => simp only [step]; split_ifs <;> rfl
    | unparkOne address => simp only [step]; split_ifs <;> rfl
    | unparkAll address => simp only [step]; split_ifs <;> rfl
    | run valid => exact run_setNode hpointers hpark htail
    | store node v' =>
        simp only [step]
        split_ifs with h
        · have hne : node ≠ n := by
            rintro rfl
            exact howner h.2
          exact congrArg (fun lot => some (lot, _)) (setNode_comm hne fun _ => v')
        · rfl
  wait c hc v := by
    cases hth : s.thread t with
    | idle => rw [hth] at hc; cases hc
    | unparkOne address pc => rw [hth] at hc; cases hc
    | unparkAll address pc => rw [hth] at hc; cases hc
    | park address node pc =>
        rw [hth] at hc
        have hne : node ≠ n := by
          rintro rfl
          exact hpark address pc hth
        cases pc with
        | wait =>
            cases hc
            dsimp only
            rw [setNode_nodes_of_ne hne]
        | _ => cases hc

end ignores

/-! ### Every run -/

namespace Inv

variable (h : Inv owner queue s w)

include h

theorem live_of_pointer (hn : n ∈ (s.thread t).pointers) : Live owner s n := by
  obtain ⟨taken, hmem, hknows⟩ := h.knows t
  rcases hknows.pointers h.list hn with ⟨b, hn⟩ | hn
  · exact h.live_of_queue hn
  · exact h.live_of_taken ((hmem n).mp hn)

theorem live_of_head {b : U64} (hn : (s.mem.buckets b).head = some n) : Live owner s n :=
  h.live_of_queue (At.head (h.list b) hn).mem

theorem live_of_tail {b : U64} (hn : (s.mem.buckets b).tail = some n) : Live owner s n := by
  by_cases hfree : (s.mem.buckets b).lockState = 0
  · rw [h.tails b hfree] at hn
    exact h.live_of_queue (List.mem_of_getLast? hn)
  · obtain ⟨t, ht⟩ := (h.guard b).iff.mp hfree
    obtain ⟨taken, hmem, hknows⟩ := h.knows t
    rcases hknows.tail ht hn with hn | hn
    · exact h.live_of_queue hn
    · exact h.live_of_taken ((hmem n).mp hn)

/-- A node whose owner is parked and not released is in a bucket, or in the hands of an unpark. -/
theorem queue_or_taken (hn : Live owner s n) : (∃ b, n ∈ queue b) ∨ ∃ t, w.Taken t n := by
  obtain ⟨hlinked, hflag⟩ := hn
  have hstage := h.stage n
  cases hlog : w.log n with
  | nil =>
      rw [hlog] at hstage
      cases hstage with
      | fresh out => exact absurd hlinked out
  | cons e l =>
      rw [hlog] at hstage
      have hlast : w.last n = some e := by rw [History.last, hlog]; rfl
      cases hstage with
      | linked => exact Or.inl ⟨_, (h.queued n _).mpr (keeper_of_linked hlast)⟩
      | removed => exact Or.inr ⟨_, _, hlast, rfl⟩
      | flagged parked flag => exact absurd hflag flag
      | returned out => exact absurd hlinked out

theorem live_of_next (hm : Live owner s m) (hn : s.mem.next m = some n) : Live owner s n := by
  rcases h.queue_or_taken hm with ⟨b, hm⟩ | ⟨t, hm⟩
  · exact h.live_of_queue ((h.list b).next_mem hm hn)
  · obtain ⟨taken, hmem, hknows⟩ := h.knows t
    rcases hknows.next ((hmem m).mpr hm) hn with ⟨b, hn⟩ | hn
    · exact h.live_of_queue hn
    · exact h.live_of_taken ((hmem n).mp hn)

end Inv

/-- What holds of the nodes at every moment. -/
structure Lifetime (owner : Node → Tid) (s : Process Tid Node) (w : History Tid Node) : Prop where
  /-- No thread reads or writes a node of another thread that is not parked on it, or has been
  released. -/
  untouched : ∀ t n, owner n ≠ t → ¬ Live owner s n → Ignores owner s t n
  /-- No pointer to such a node is left, in the locals of a thread or in a bucket or another node. -/
  pointers : ∀ t n, n ∈ (s.thread t).pointers → Live owner s n
  ends : ∀ b n, (s.mem.buckets b).head = some n ∨ (s.mem.buckets b).tail = some n → Live owner s n
  links : ∀ m n, Live owner s m → s.mem.next m = some n → Live owner s n
  /-- A node is in at most one bucket, and there at most once. -/
  queues : ∃ queue : U64 → List Node, (∀ b, s.mem.Queue b (queue b) ∧ (queue b).Nodup) ∧
    ∀ b b' n, n ∈ queue b → n ∈ queue b' → b = b'
  /-- A `park` that has returned true was released by one unpark of its address, which removed the
  node after this `park` had linked it, and then set the flag. -/
  released : ∀ n l park l', w.log n = l ++ .returned park :: l' → ∃ unpark l'',
    l' = .flagged unpark :: .removed unpark :: .linked park :: l'' ∧ unpark.address = park.address

theorem nodes_not_touched_after_return {s : Process Tid Node × History Tid Node}
    (h : (observed owner).Reachable anyStep s) : Lifetime owner s.1 s.2 := by
  obtain ⟨queue, h⟩ := inv_of_reachable h
  refine ⟨fun t n howner hlive => ?_, fun t n hn => h.live_of_pointer hn, fun b n hn => ?_,
    fun m n hm hn => h.live_of_next hm hn, ⟨queue, fun b => ⟨h.list b, (h.list b).nodup⟩,
      fun b b' n hn hn' => h.queue_disjoint hn hn'⟩, fun n => h.trace n⟩
  · refine ignores howner (fun hn => hlive (h.live_of_pointer hn)) (fun address pc hth => ?_)
      fun b hn => hlive (h.live_of_tail hn)
    exact howner (h.owned t address n pc hth)
  · rcases hn with hn | hn
    · exact h.live_of_head hn
    · exact h.live_of_tail hn

/-- `a` parks on its node and sleeps, and `b` releases it. `a` returns from the kernel and from `park`
before `b` gets to the wake. -/
def earlyRun : List (Act Runner (Label Runner)) :=
  .step .a (.park 0x1000 .a) :: List.replicate 9 (.step .a (.run true)) ++
    [.sleep .a, .step .b (.unparkOne 0x1000)] ++ List.replicate 10 (.step .b (.run true)) ++
    [.ret .a, .step .a (.run true)]

theorem nodes_not_touched_after_return_early :
    ∃ (s : Process Runner Runner) (w : History Runner Runner), s.thread .a = .idle ∧
      s.thread .b = .unparkOne 0x1000 (.wake .a .noMoreWaiters) ∧
      w.log .a = [.returned ⟨.a, 0x1000, 1⟩, .flagged ⟨.b, 0x1000, 1⟩, .removed ⟨.b, 0x1000, 1⟩,
        .linked ⟨.a, 0x1000, 1⟩] ∧ Lifetime id s w :=
  let M := observed (id : Runner → Runner)
  let s := (M.run anyStep M.init earlyRun).get (by decide)
  have h : Lifetime id s.1 s.2 := nodes_not_touched_after_return (.of_run _ _)
  ⟨s.1, s.2, by decide, by decide, by decide, h⟩

end Psync.LinkedLot
