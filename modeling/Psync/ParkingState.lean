import Psync.ParkingModel
import Psync.RunGuard

/-! Invariants of the parking lot, for any client: the bucket locks exclude, and the threads that are
parked are exactly the ones linked in a queue or about to be flagged by an `unpark_one`. Whoever sleeps in
the kernel with a flag that is set is about to be woken. -/

namespace Psync.ParkingLot

open Concurrency

set_option linter.unusedSectionVars false

variable {Node W V : Type*}

/-! ### The scan of `unpark_one` -/

theorem unlink_none {key : U64} {queue : List (U64 × Node)} (h : (unlink key queue).1 = none) :
    (unlink key queue).2 = queue ∧ ∀ node, (key, node) ∉ queue := by
  induction queue with
  | nil => exact ⟨rfl, fun _ => List.not_mem_nil⟩
  | cons curr next ih =>
      simp only [unlink] at h ⊢
      split_ifs at h ⊢ with hkey
      obtain ⟨hrest, hnot⟩ := ih h
      refine ⟨by rw [hrest], fun node hmem => ?_⟩
      rcases List.mem_cons.mp hmem with heq | hmem
      · exact hkey (congrArg Prod.fst heq).symm
      · exact hnot node hmem

/-- What the scan finds leaves the list, and nothing else does. -/
theorem unlink_some {key : U64} {node : Node} {queue : List (U64 × Node)}
    (h : (unlink key queue).1 = some node) : queue.Perm ((key, node) :: (unlink key queue).2) := by
  induction queue with
  | nil => cases h
  | cons curr next ih =>
      simp only [unlink] at h ⊢
      split_ifs at h ⊢ with hkey
      · obtain ⟨k, n⟩ := curr
        cases h
        cases hkey
        exact List.Perm.refl _
      · exact ((ih h).cons curr).trans (List.Perm.swap _ _ _)

theorem mem_of_mem_unlink {key : U64} {queue : List (U64 × Node)} {w : U64 × Node}
    (hw : w ∈ (unlink key queue).2) : w ∈ queue := by
  cases h : (unlink key queue).1 with
  | none => rwa [(unlink_none h).1] at hw
  | some node => exact (unlink_some h).mem_iff.mpr (List.mem_cons_of_mem _ hw)

theorem hasMore_eq_false {key : U64} {queue : List (U64 × Node)} :
    hasMore key queue = false ↔ ∀ node, (key, node) ∉ queue := by
  simp only [hasMore, List.any_eq_false, decide_eq_true_eq, Prod.forall]
  constructor
  · intro h node hmem
    exact h key node hmem rfl
  · rintro h k node hmem rfl
    exact h node hmem

/-- The callback learns the truth about the queue it leaves behind. -/
theorem unparkResult_eq_hasMore {key : U64} {queue : List (U64 × Node)} :
    unparkResult (unlink key queue).1 (hasMore key (unlink key queue).2) ≠ .hasMoreWaiters →
      ∀ node, (key, node) ∉ (unlink key queue).2 := by
  intro h node
  cases htarget : (unlink key queue).1 with
  | none =>
      rw [(unlink_none htarget).1]
      exact (unlink_none htarget).2 node
  | some target =>
      cases hmore : hasMore key (unlink key queue).2 with
      | false => exact hasMore_eq_false.mp hmore node
      | true =>
          rw [htarget, hmore] at h
          exact absurd rfl h

/-! ### Roles of the threads -/

/-- What matters about a thread: the bucket whose lock it holds, the key it is parked on, the node it has
unlinked and still has to flag, and the one it has flagged and still has to wake, with their key. -/
structure Role (Node : Type*) where
  inside : Option U64 := none
  queued : Option U64 := none
  target : Option (U64 × Node) := none
  waking : Option (U64 × Node) := none

def Role.out : Role Node := {}

def ParkPc.role (key : U64) : ParkPc Node V → Role Node
  | .lockBucket => .out
  | .validate _ | .abort | .enqueue => { inside := some (hashAddress key) }
  | .unlockBucket => { inside := some (hashAddress key), queued := some key }
  | .load | .wait _ => { queued := some key }

def UnparkPc.role (key : U64) : UnparkPc Node → Role Node
  | .lockBucket => .out
  | .dequeue => { inside := some (hashAddress key) }
  | .callback target _ => { inside := some (hashAddress key), target := target.map fun n => (key, n) }
  | .setFlag target _ => { inside := some (hashAddress key), target := some (key, target) }
  | .unlockBucket target _ => { inside := some (hashAddress key), waking := target.map fun n => (key, n) }
  | .wake target _ => { waking := some (key, target) }

variable [DecidableEq Node]

/-- The steps of thread `t` on the parking lot. -/
inductive Move (t : Node) (lot : Lot Node) : Role Node → Lot Node → Role Node → Prop
  | keep (r : Role Node) : Move t lot r lot r
  | lock (key : U64) (free : (lot.bucket key).lockState = 0) :
      Move t lot .out (lot.setLockState key 1) { inside := some (hashAddress key) }
  | unlock (key : U64) (queued : Option U64) (waking : Option (U64 × Node)) :
      Move t lot { inside := some (hashAddress key), queued := queued, waking := waking }
        (unlockBucket key lot) { queued := queued, waking := waking }
  | enqueue (key : U64) : Move t lot { inside := some (hashAddress key) } (lot.enqueue key t)
      { inside := some (hashAddress key), queued := some key }
  | dequeue (key : U64) : Move t lot { inside := some (hashAddress key) }
      (lot.setQueue key (unlink key (lot.bucket key).queue).2)
      { inside := some (hashAddress key), target := (unlink key (lot.bucket key).queue).1.map fun n => (key, n) }
  | setFlag (key : U64) (target : Node) :
      Move t lot { inside := some (hashAddress key), target := some (key, target) } (lot.setWakeFlag target 1)
        { inside := some (hashAddress key), waking := some (key, target) }
  | leave (key : U64) (woken : lot.wakeFlag t ≠ 0) : Move t lot { queued := some key } lot .out
  | wake (key : U64) (target : Node) : Move t lot { waking := some (key, target) } lot .out

theorem lockBucket_eq_some {key : U64} {lot lot' : Lot Node} (h : lockBucket key lot = some lot') :
    (lot.bucket key).lockState = 0 ∧ lot' = lot.setLockState key 1 := by
  simp only [lockBucket, Option.ite_none_right_eq_some, Option.some.injEq] at h
  exact ⟨h.1, h.2.symm⟩

def Flow.parkRole (key : U64) : Flow (ParkPc Node V) Bool → Role Node
  | .at pc => pc.role key
  | .ret _ => .out

def Flow.unparkRole (key : U64) : Flow (UnparkPc Node) UnparkResult → Role Node
  | .at pc => pc.role key
  | .ret _ => .out

/-- A step of `park`, or its return from the kernel. -/
inductive Parks (first : V) (validate : V → W → W × Flow V Bool) (key : U64) (t : Node) (word : W)
    (lot : Lot Node) : ParkPc Node V → W → Lot Node → Flow (ParkPc Node V) Bool → Prop
  | step {pc : ParkPc Node V} {word' : W} {lot' : Lot Node} {flow : Flow (ParkPc Node V) Bool}
      (h : park first validate key t word lot pc = some (word', lot', flow)) :
      Parks first validate key t word lot pc word' lot' flow
  | ret (node : Node) : Parks first validate key t word lot (.wait node) word lot (.at .load)

/-- A step of `unpark_one`, or its call into the kernel. -/
inductive Unparks (callback : UnparkResult → W → W) (key : U64) (word : W) (lot : Lot Node) :
    UnparkPc Node → W → Lot Node → Flow (UnparkPc Node) UnparkResult → Prop
  | step {pc : UnparkPc Node} {word' : W} {lot' : Lot Node} {flow : Flow (UnparkPc Node) UnparkResult}
      (h : unparkOne callback key word lot pc = some (word', lot', flow)) :
      Unparks callback key word lot pc word' lot' flow
  | wake (target : Node) (result : UnparkResult) :
      Unparks callback key word lot (.wake target result) word lot (.ret result)

section Moves

variable {first : V} {validate : V → W → W × Flow V Bool} {callback : UnparkResult → W → W} {key : U64}
  {t : Node} {word word' : W} {lot lot' : Lot Node}

theorem move_of_park {pc : ParkPc Node V} {flow : Flow (ParkPc Node V) Bool}
    (h : park first validate key t word lot pc = some (word', lot', flow)) :
    Move t lot (pc.role key) lot' (flow.parkRole key) := by
  cases pc with
  | lockBucket =>
      simp only [park] at h
      split at h
      · rename_i hlock
        cases h
        obtain ⟨free, rfl⟩ := lockBucket_eq_some hlock
        exact .lock key free
      · cases h
        exact .keep _
  | validate v =>
      simp only [park] at h
      split at h <;> cases h <;> exact .keep _
  | abort =>
      cases h
      exact .unlock key none none
  | enqueue =>
      cases h
      exact .enqueue key
  | unlockBucket =>
      cases h
      exact .unlock key (some key) none
  | load =>
      cases h
      split_ifs with hflag
      · exact .keep _
      · exact .leave key hflag
  | wait node => cases h

theorem Parks.move {pc : ParkPc Node V} {flow : Flow (ParkPc Node V) Bool}
    (h : Parks first validate key t word lot pc word' lot' flow) :
    Move t lot (pc.role key) lot' (flow.parkRole key) := by
  cases h with
  | step h => exact move_of_park h
  | ret node => exact .keep _

theorem move_of_unparkOne {pc : UnparkPc Node} {flow : Flow (UnparkPc Node) UnparkResult}
    (h : unparkOne callback key word lot pc = some (word', lot', flow)) :
    Move t lot (pc.role key) lot' (flow.unparkRole key) := by
  cases pc with
  | lockBucket =>
      simp only [unparkOne] at h
      split at h
      · rename_i hlock
        cases h
        obtain ⟨free, rfl⟩ := lockBucket_eq_some hlock
        exact .lock key free
      · cases h
        exact .keep _
  | dequeue =>
      cases h
      exact .dequeue key
  | callback target result =>
      cases target with
      | none =>
          cases h
          exact .keep _
      | some target =>
          cases h
          exact .keep _
  | setFlag target result =>
      cases h
      exact .setFlag key target
  | unlockBucket target result =>
      cases target with
      | none =>
          cases h
          exact .unlock key none none
      | some target =>
          cases h
          exact .unlock key none (some (key, target))
  | wake target result => cases h

theorem Unparks.move {pc : UnparkPc Node} {flow : Flow (UnparkPc Node) UnparkResult}
    (h : Unparks callback key word lot pc word' lot' flow) :
    Move t lot (pc.role key) lot' (flow.unparkRole key) := by
  cases h with
  | step h => exact move_of_unparkOne h
  | wake target result => exact .wake key target

/-- The code of `unpark_one` does not forget whom it has to wake. -/
theorem waking_of_unparkOne {pc : UnparkPc Node} {flow : Flow (UnparkPc Node) UnparkResult} {w : U64 × Node}
    (h : unparkOne callback key word lot pc = some (word', lot', flow)) (hw : (pc.role key).waking = some w) :
    (flow.unparkRole key).waking = some w := by
  cases pc with
  | unlockBucket target result =>
      cases target with
      | none => cases hw
      | some target =>
          cases h
          exact hw
  | wake target result => cases h
  | _ => cases hw

end Moves

/-! ### The invariant -/

structure Inv (lot : Lot Node) (role : Node → Role Node) : Prop where
  /-- `lock_state` guards the section between `lock_bucket` and `unlock_bucket`. -/
  guard : ∀ b, Guards ((lot.buckets b).lockState ≠ 0) (fun r => r.inside = some b) role
  /-- A linked node is in the bucket of its key, and its thread is parked. -/
  linked : ∀ b key node, (key, node) ∈ (lot.buckets b).queue →
    b = hashAddress key ∧ (role node).queued = some key ∧ lot.wakeFlag node = 0
  nodup : ∀ b, ((lot.buckets b).queue.map Prod.snd).Nodup
  /-- So does the thread of a node that has been unlinked and not been flagged. -/
  unlinked : ∀ t key node, (role t).target = some (key, node) → (role t).inside = some (hashAddress key) ∧
    (role node).queued = some key ∧ lot.wakeFlag node = 0 ∧ ¬ lot.Waits key node
  /-- No other thread waits for its flag. -/
  parked : ∀ key node, (role node).queued = some key → lot.wakeFlag node = 0 →
    lot.Waits key node ∨ ∃ t, (role t).target = some (key, node)

variable {lot lot' : Lot Node} {role : Node → Role Node} {t : Node} {r : Role Node}

theorem Inv.init : Inv (Lot.init : Lot Node) fun _ => .out where
  guard _ := ⟨⟨fun h => absurd rfl h, fun ⟨_, h⟩ => nomatch h⟩, fun _ _ h => nomatch h⟩
  linked _ _ _ h := nomatch h
  nodup _ := List.nodup_nil
  unlinked _ _ _ h := nomatch h
  parked _ _ h := nomatch h

@[simp] theorem setBucket_self (key : U64) (b : Bucket Node) :
    (lot.setBucket key b).buckets (hashAddress key) = b := Function.update_self ..

theorem setBucket_of_ne {key b : U64} (v : Bucket Node) (h : b ≠ hashAddress key) :
    (lot.setBucket key v).buckets b = lot.buckets b := Function.update_of_ne h ..

theorem setLockState_queue (key : U64) (v : U32) (b : U64) :
    ((lot.setLockState key v).buckets b).queue = (lot.buckets b).queue := by
  by_cases h : b = hashAddress key
  · rw [h, Lot.setLockState, setBucket_self]
    rfl
  · rw [Lot.setLockState, setBucket_of_ne _ h]

theorem setLockState_lockState (key : U64) (v : U32) :
    ((lot.setLockState key v).buckets (hashAddress key)).lockState = v := by
  rw [Lot.setLockState, setBucket_self]

theorem setQueue_lockState (key : U64) (queue : List (U64 × Node)) (b : U64) :
    ((lot.setQueue key queue).buckets b).lockState = (lot.buckets b).lockState := by
  by_cases h : b = hashAddress key
  · rw [h, Lot.setQueue, setBucket_self]
    rfl
  · rw [Lot.setQueue, setBucket_of_ne _ h]

theorem setQueue_queue (key : U64) (queue : List (U64 × Node)) :
    ((lot.setQueue key queue).buckets (hashAddress key)).queue = queue := by
  rw [Lot.setQueue, setBucket_self]

/-- A step that leaves the queues, the flags and what is queued or unlinked. -/
theorem Inv.calm (h : Inv lot role) (hqueue : ∀ b, (lot'.buckets b).queue = (lot.buckets b).queue)
    (hflag : lot'.wakeFlag = lot.wakeFlag) (hq : r.queued = (role t).queued)
    (hold : (role t).target = none) (hnew : r.target = none)
    (hguard : ∀ b, Guards ((lot'.buckets b).lockState ≠ 0) (fun r => r.inside = some b)
      (Function.update role t r)) : Inv lot' (Function.update role t r) where
  guard := hguard
  linked b key node hmem := by
    rw [hqueue] at hmem
    rw [apply_update_same (g := Role.queued) hq, hflag]
    exact h.linked b key node hmem
  nodup b := by
    rw [hqueue]
    exact h.nodup b
  unlinked u key node hu := by
    rw [apply_update_same (g := Role.target) (hnew.trans hold.symm)] at hu
    have hne : u ≠ t := by
      rintro rfl
      rw [hold] at hu
      cases hu
    obtain ⟨hin, hqueued, hzero, hnot⟩ := h.unlinked u key node hu
    refine ⟨by rwa [Function.update_of_ne hne], by rwa [apply_update_same (g := Role.queued) hq], by rwa [hflag], ?_⟩
    rwa [Lot.Waits, Lot.bucket, hqueue]
  parked key node hn hzero := by
    rw [apply_update_same (g := Role.queued) hq] at hn
    rw [hflag] at hzero
    rw [Lot.Waits, Lot.bucket, hqueue]
    rcases h.parked key node hn hzero with hw | ⟨u, hu⟩
    · exact Or.inl hw
    · exact Or.inr ⟨u, by rwa [apply_update_same (g := Role.target) (hnew.trans hold.symm)]⟩

/-- The target of an `unpark_one` is not the thread that runs it. -/
theorem Inv.linked_ne (h : Inv lot role) (hq : (role t).queued = none) {b key : U64} {node : Node}
    (hmem : (key, node) ∈ (lot.buckets b).queue) : node ≠ t := by
  rintro rfl
  have := (h.linked b key node hmem).2.1
  rw [hq] at this
  cases this

theorem Inv.lock (h : Inv lot role) {key : U64} (hr : role t = .out)
    (free : (lot.bucket key).lockState = 0) :
    Inv (lot.setLockState key 1) (Function.update role t { inside := some (hashAddress key) }) := by
  refine h.calm (setLockState_queue key 1) rfl (by rw [hr]; rfl) (by rw [hr]; rfl) rfl fun b => ?_
  by_cases hb : b = hashAddress key
  · subst hb
    refine (h.guard _).enter (fun hset => hset free) ?_ rfl
    rw [setLockState_lockState]
    decide
  · refine (h.guard b).same ?_ ?_
    · rw [Lot.setLockState, setBucket_of_ne _ hb]
    · rw [hr]
      exact ⟨fun he => absurd (Option.some.inj he).symm hb, fun he => nomatch he⟩

theorem Inv.unlock (h : Inv lot role) {key : U64} {queued : Option U64} {waking : Option (U64 × Node)}
    (hr : role t = { inside := some (hashAddress key), queued := queued, waking := waking }) :
    Inv (unlockBucket key lot) (Function.update role t { queued := queued, waking := waking }) := by
  refine h.calm (setLockState_queue key 0) rfl (by rw [hr]) (by rw [hr]) rfl fun b => ?_
  by_cases hb : b = hashAddress key
  · subst hb
    refine (h.guard _).leave (by rw [hr]) ?_ nofun
    rw [unlockBucket, setLockState_lockState]
    exact fun hset => hset rfl
  · refine (h.guard b).same ?_ ?_
    · rw [unlockBucket, Lot.setLockState, setBucket_of_ne _ hb]
    · rw [hr]
      exact ⟨fun he => (nomatch he), fun he => absurd (Option.some.inj he).symm hb⟩

theorem setWakeFlag_self (node : Node) (v : U32) : (lot.setWakeFlag node v).wakeFlag node = v :=
  Function.update_self ..

theorem setWakeFlag_of_ne {node node' : Node} (v : U32) (h : node' ≠ node) :
    (lot.setWakeFlag node v).wakeFlag node' = lot.wakeFlag node' :=
  Function.update_of_ne h ..

theorem enqueue_queue (key b : U64) : ((lot.enqueue key t).buckets b).queue =
    if b = hashAddress key then (lot.bucket key).queue ++ [(key, t)] else (lot.buckets b).queue := by
  split_ifs with h
  · rw [h, Lot.enqueue, setQueue_queue]
  · rw [Lot.enqueue, Lot.setQueue, setBucket_of_ne _ h]
    rfl

theorem enqueue_flag {key : U64} {node : Node} (hne : node ≠ t) :
    (lot.enqueue key t).wakeFlag node = lot.wakeFlag node :=
  setWakeFlag_of_ne 0 hne

theorem Inv.enqueue (h : Inv lot role) {key : U64}
    (hr : role t = { inside := some (hashAddress key) }) :
    Inv (lot.enqueue key t) (Function.update role t { inside := some (hashAddress key), queued := some key }) := by
  have hnew : ∀ b k node, (k, node) ∈ (lot.buckets b).queue → node ≠ t :=
    fun b k node hmem => h.linked_ne (by rw [hr]) hmem
  have htarget : ∀ u, (Function.update role t { inside := some (hashAddress key), queued := some key } u).target =
      (role u).target := apply_update_same (g := Role.target) (by rw [hr])
  refine ⟨fun b => (h.guard b).same ?_ (by rw [hr]), fun b k node hmem => ?_, fun b => ?_,
    fun u k node hu => ?_, fun k node hn hzero => ?_⟩
  · rw [Lot.enqueue, setQueue_lockState]
    rfl
  · have hcase : (b = hashAddress key ∧ k = key ∧ node = t) ∨ (k, node) ∈ (lot.buckets b).queue := by
      rw [enqueue_queue] at hmem
      split_ifs at hmem with hb
      · rcases List.mem_append.mp hmem with hmem | hmem
        · exact Or.inr (by rw [hb]; exact hmem)
        · cases List.mem_singleton.mp hmem
          exact Or.inl ⟨hb, rfl, rfl⟩
      · exact Or.inr hmem
    rcases hcase with ⟨rfl, rfl, rfl⟩ | hmem
    · exact ⟨rfl, by rw [Function.update_self], Function.update_self ..⟩
    · have hne := hnew b k node hmem
      rw [Function.update_of_ne hne, enqueue_flag hne]
      exact h.linked b k node hmem
  · rw [enqueue_queue]
    split_ifs with hb
    · rw [List.map_append, List.nodup_append]
      refine ⟨h.nodup _, List.nodup_singleton _, fun node hnode _ ht => ?_⟩
      obtain ⟨⟨k, n⟩, hmem, rfl⟩ := List.mem_map.mp hnode
      cases List.mem_singleton.mp ht
      exact hnew _ k n hmem
    · exact h.nodup b
  · rw [htarget] at hu
    obtain ⟨hin, hqueued, hzero, hnot⟩ := h.unlinked u k node hu
    have hne : node ≠ t := by
      rintro rfl
      rw [hr] at hqueued
      cases hqueued
    refine ⟨?_, by rwa [Function.update_of_ne hne], by rwa [enqueue_flag hne], fun hw => ?_⟩
    · rw [Function.update_apply]
      split_ifs with hut
      · rw [← hin, hut, hr]
      · exact hin
    · rw [Lot.Waits, Lot.bucket, enqueue_queue] at hw
      split_ifs at hw with hb
      · rcases List.mem_append.mp hw with hw | hw
        · rw [Lot.Waits, Lot.bucket, hb] at hnot
          exact hnot hw
        · cases List.mem_singleton.mp hw
          exact hne rfl
      · exact hnot hw
  · rw [Lot.Waits, Lot.bucket, enqueue_queue]
    by_cases hnt : node = t
    · subst hnt
      rw [Function.update_self] at hn
      cases hn
      exact Or.inl (by rw [if_pos rfl]; simp)
    · rw [Function.update_of_ne hnt] at hn
      rw [enqueue_flag hnt] at hzero
      rcases h.parked k node hn hzero with hw | ⟨u, hu⟩
      · refine Or.inl ?_
        split_ifs with hb
        · rw [Lot.Waits, Lot.bucket, hb] at hw
          exact List.mem_append_left _ hw
        · exact hw
      · exact Or.inr ⟨u, by rwa [htarget]⟩

theorem Inv.dequeue (h : Inv lot role) {key : U64}
    (hr : role t = { inside := some (hashAddress key) }) :
    Inv (lot.setQueue key (unlink key (lot.bucket key).queue).2) (Function.update role t
      { inside := some (hashAddress key), target := (unlink key (lot.bucket key).queue).1.map fun n => (key, n) }) := by
  have hsub : ∀ b w, w ∈ ((lot.setQueue key (unlink key (lot.bucket key).queue).2).buckets b).queue →
      w ∈ (lot.buckets b).queue := by
    intro b w hw
    by_cases hb : b = hashAddress key
    · rw [hb, setQueue_queue] at hw
      rw [hb]
      exact mem_of_mem_unlink hw
    · rwa [Lot.setQueue, setBucket_of_ne _ hb] at hw
  have hqueued : ∀ u, (Function.update role t
      { inside := some (hashAddress key), target := (unlink key (lot.bucket key).queue).1.map fun n => (key, n) }
        u).queued = (role u).queued := apply_update_same (g := Role.queued) (by rw [hr])
  refine ⟨fun b => (h.guard b).same (by rw [setQueue_lockState]) (by rw [hr]),
    fun b k node hmem => ?_, fun b => ?_, fun u k node hu => ?_, fun k node hn hzero => ?_⟩
  · rw [hqueued]
    exact h.linked b k node (hsub b _ hmem)
  · by_cases hb : b = hashAddress key
    · rw [hb, setQueue_queue]
      have hold := h.nodup (hashAddress key)
      cases htarget : (unlink key (lot.bucket key).queue).1 with
      | none => rwa [(unlink_none htarget).1]
      | some target => exact (((unlink_some htarget).map _).nodup_iff.mp hold).of_cons
    · rw [Lot.setQueue, setBucket_of_ne _ hb]
      exact h.nodup b
  · rw [hqueued]
    by_cases hut : u = t
    · subst hut
      rw [Function.update_self] at hu
      obtain ⟨target, htarget, heq⟩ := Option.map_eq_some_iff.mp hu
      cases heq
      have hperm := unlink_some htarget
      obtain ⟨-, hnode, hzero⟩ :=
        h.linked _ key node (hperm.mem_iff.mpr List.mem_cons_self)
      refine ⟨by rw [Function.update_self], hnode, hzero, fun hw => ?_⟩
      rw [Lot.Waits, Lot.bucket, setQueue_queue] at hw
      have hnodup := (hperm.map Prod.snd).nodup_iff.mp (h.nodup _)
      exact (List.nodup_cons.mp hnodup).1 (List.mem_map_of_mem (f := Prod.snd) hw)
    · rw [Function.update_of_ne hut] at hu ⊢
      obtain ⟨hin, hnode, hzero, hnot⟩ := h.unlinked u k node hu
      exact ⟨hin, hnode, hzero, fun hw => hnot (hsub _ _ hw)⟩
  · rw [hqueued] at hn
    rcases h.parked k node hn hzero with hw | ⟨u, hu⟩
    · by_cases hb : hashAddress k = hashAddress key
      · rw [Lot.Waits, Lot.bucket, hb] at hw
        rw [Lot.Waits, Lot.bucket, hb, setQueue_queue]
        cases htarget : (unlink key (lot.bucket key).queue).1 with
        | none =>
            rw [(unlink_none htarget).1]
            exact Or.inl hw
        | some target =>
            rcases List.mem_cons.mp ((unlink_some htarget).mem_iff.mp hw) with heq | hmem
            · cases heq
              exact Or.inr ⟨t, by rw [Function.update_self]; rfl⟩
            · exact Or.inl hmem
      · refine Or.inl ?_
        rw [Lot.Waits, Lot.bucket, Lot.setQueue, setBucket_of_ne _ hb]
        exact hw
    · have hne : u ≠ t := by
        rintro rfl
        rw [hr] at hu
        cases hu
      exact Or.inr ⟨u, by rwa [Function.update_of_ne hne]⟩

theorem Inv.setFlag (h : Inv lot role) {key : U64} {target : Node}
    (hr : role t = { inside := some (hashAddress key), target := some (key, target) }) :
    Inv (lot.setWakeFlag target 1) (Function.update role t
      { inside := some (hashAddress key), waking := some (key, target) }) := by
  obtain ⟨hin, htarget, -, hnot⟩ := h.unlinked t key target (by rw [hr])
  have hqueued : ∀ u, (Function.update role t
      { inside := some (hashAddress key), waking := some (key, target) } u).queued = (role u).queued :=
    apply_update_same (g := Role.queued) (by rw [hr])
  have hflag : ∀ node, node ≠ target → (lot.setWakeFlag target 1).wakeFlag node = lot.wakeFlag node :=
    fun node hne => setWakeFlag_of_ne 1 hne
  refine ⟨fun b => (h.guard b).same Iff.rfl (by rw [hr]), fun b k node hmem => ?_, h.nodup,
    fun u k node hu => ?_, fun k node hn hzero => ?_⟩
  · obtain ⟨rfl, hnode, hzero⟩ := h.linked b k node hmem
    have hne : node ≠ target := by
      rintro rfl
      rw [htarget] at hnode
      cases hnode
      exact hnot hmem
    rw [hqueued, hflag node hne]
    exact ⟨rfl, hnode, hzero⟩
  · have hut : u ≠ t := by
      rintro rfl
      rw [Function.update_self] at hu
      cases hu
    rw [Function.update_of_ne hut] at hu ⊢
    obtain ⟨hink, hnode, hzero, hnotk⟩ := h.unlinked u k node hu
    have hne : node ≠ target := by
      rintro rfl
      rw [htarget] at hnode
      cases hnode
      exact hut ((h.guard _).unique u t hink hin)
    exact ⟨hink, by rwa [hqueued], by rwa [hflag node hne], hnotk⟩
  · rw [hqueued] at hn
    have hne : node ≠ target := by
      rintro rfl
      rw [setWakeFlag_self] at hzero
      cases hzero
    rw [hflag node hne] at hzero
    rcases h.parked k node hn hzero with hw | ⟨u, hu⟩
    · exact Or.inl hw
    · have hut : u ≠ t := by
        rintro rfl
        rw [hr] at hu
        exact hne (congrArg Prod.snd (Option.some.inj hu)).symm
      exact Or.inr ⟨u, by rwa [Function.update_of_ne hut]⟩

theorem Inv.leave (h : Inv lot role) {key : U64} (hr : role t = { queued := some key })
    (woken : lot.wakeFlag t ≠ 0) : Inv lot (Function.update role t .out) := by
  have htarget : ∀ u, (Function.update role t .out u).target = (role u).target :=
    apply_update_same (g := Role.target) (by rw [hr]; rfl)
  have hother : ∀ node, lot.wakeFlag node = 0 → Function.update role t .out node = role node := by
    intro node hzero
    refine Function.update_of_ne ?_ ..
    rintro rfl
    exact woken hzero
  refine ⟨fun b => (h.guard b).same Iff.rfl (by rw [hr]; rfl), fun b k node hmem => ?_, h.nodup,
    fun u k node hu => ?_, fun k node hn hzero => ?_⟩
  · have hl := h.linked b k node hmem
    rwa [hother node hl.2.2]
  · rw [htarget] at hu
    obtain ⟨hin, hnode, hzero, hnot⟩ := h.unlinked u k node hu
    have hut : u ≠ t := by
      rintro rfl
      rw [hr] at hu
      cases hu
    exact ⟨by rwa [Function.update_of_ne hut], by rwa [hother node hzero], hzero, hnot⟩
  · rw [hother node hzero] at hn
    rcases h.parked k node hn hzero with hw | ⟨u, hu⟩
    · exact Or.inl hw
    · exact Or.inr ⟨u, by rwa [htarget]⟩

theorem Inv.wake (h : Inv lot role) {key : U64} {target : Node} (hr : role t = { waking := some (key, target) }) :
    Inv lot (Function.update role t .out) :=
  h.calm (fun _ => rfl) rfl (by rw [hr]; rfl) (by rw [hr]) rfl fun b => (h.guard b).same Iff.rfl (by rw [hr]; rfl)

/-- Only the owner of a node links it. -/
theorem Move.waits {r' : Role Node} {key : U64} {node : Node} (hmove : Move t lot r lot' r')
    (hw : lot'.Waits key node) : lot.Waits key node ∨
      node = t ∧ r.inside = some (hashAddress key) ∧ r.queued = none ∧ r'.queued = some key := by
  cases hmove with
  | keep => exact Or.inl hw
  | lock key' free =>
      rw [Lot.Waits, Lot.bucket, setLockState_queue] at hw
      exact Or.inl hw
  | unlock key' queued waking =>
      rw [Lot.Waits, Lot.bucket, unlockBucket, setLockState_queue] at hw
      exact Or.inl hw
  | enqueue key' =>
      rw [Lot.Waits, Lot.bucket, enqueue_queue] at hw
      split_ifs at hw with hb
      · rcases List.mem_append.mp hw with hw | hw
        · rw [Lot.Waits, Lot.bucket, hb]
          exact Or.inl hw
        · cases List.mem_singleton.mp hw
          exact Or.inr ⟨rfl, rfl, rfl, rfl⟩
      · exact Or.inl hw
  | dequeue key' =>
      refine Or.inl ?_
      by_cases hb : hashAddress key = hashAddress key'
      · rw [Lot.Waits, Lot.bucket, hb, setQueue_queue] at hw
        rw [Lot.Waits, Lot.bucket, hb]
        exact mem_of_mem_unlink hw
      · rw [Lot.Waits, Lot.bucket, Lot.setQueue, setBucket_of_ne _ hb] at hw
        exact hw
  | setFlag key' target => exact Or.inl hw
  | leave key' woken => exact Or.inl hw
  | wake key' target => exact Or.inl hw

section Calls

variable {first : V} {validate : V → W → W × Flow V Bool} {callback : UnparkResult → W → W} {key : U64}
  {word word' : W}

/-- Only the linking step of `park` adds to a queue. -/
theorem Parks.waits {pc : ParkPc Node V} {flow : Flow (ParkPc Node V) Bool} {address : U64} {node : Node}
    (h : Parks first validate key t word lot pc word' lot' flow) (hw : lot'.Waits address node) :
    lot.Waits address node ∨ node = t ∧ address = key ∧ pc = .enqueue := by
  refine (h.move.waits hw).imp_right ?_
  rintro ⟨rfl, hin, hq, hq'⟩
  cases h with
  | ret n => cases hq
  | step h =>
      cases pc with
      | enqueue =>
          cases h
          exact ⟨rfl, (Option.some.inj hq').symm, rfl⟩
      | lockBucket => cases hin
      | validate v =>
          simp only [park] at h
          split at h <;> cases h <;> cases hq'
      | abort =>
          cases h
          cases hq'
      | unlockBucket | load | wait => cases hq

theorem Unparks.waits {pc : UnparkPc Node} {flow : Flow (UnparkPc Node) UnparkResult} {address : U64} {node : Node}
    (h : Unparks callback key word lot pc word' lot' flow) (hw : lot'.Waits address node) :
    lot.Waits address node := by
  refine ((h.move (t := node)).waits hw).resolve_right ?_
  rintro ⟨-, -, -, hq'⟩
  cases flow with
  | «at» pc' => cases pc' <;> cases hq'
  | ret result => cases hq'

/-- The thread is about to wait on its own flag. -/
theorem Parks.wait {pc : ParkPc Node V} {node : Node}
    (h : Parks first validate key t word lot pc word' lot' (.at (.wait node))) : node = t := by
  cases h with
  | step h =>
      cases pc with
      | load =>
          simp only [park, Option.some.injEq, Prod.mk.injEq] at h
          obtain ⟨-, -, h⟩ := h
          split_ifs at h
          cases h
          rfl
      | lockBucket =>
          simp only [park] at h
          split at h <;> cases h
      | validate v =>
          simp only [park] at h
          split at h <;> cases h
      | abort | enqueue | unlockBucket | wait => cases h

/-- A thread that does not wait for its flag goes on, or is about to link its node. -/
theorem Parks.tries {pc : ParkPc Node V} {flow : Flow (ParkPc Node V) Bool}
    (h : Parks first validate key t word lot pc word' lot' flow) (hpc : pc.tries (lot.wakeFlag t) = true) :
    (∀ pc', flow = .at pc' → pc'.tries (lot'.wakeFlag t) = true) ∨ flow = .at .enqueue := by
  have hat : ∀ {pc' : ParkPc Node V}, flow = .at pc' → pc'.tries (lot'.wakeFlag t) = true →
      (∀ pc', flow = .at pc' → pc'.tries (lot'.wakeFlag t) = true) ∨ flow = .at .enqueue := by
    rintro pc' rfl hpc'
    exact Or.inl fun _ heq => by
      cases heq
      exact hpc'
  cases h with
  | ret node => exact hat rfl hpc
  | step h =>
      cases pc with
      | lockBucket =>
          simp only [park] at h
          split at h <;> cases h <;> exact hat rfl rfl
      | validate v =>
          simp only [park] at h
          split at h <;> cases h
          · exact hat rfl rfl
          · exact Or.inr rfl
          · exact hat rfl rfl
      | abort =>
          cases h
          exact Or.inl nofun
      | enqueue => cases hpc
      | unlockBucket =>
          cases h
          exact hat rfl hpc
      | load =>
          cases h
          refine Or.inl fun pc' heq => ?_
          rw [if_neg (of_decide_eq_true hpc)] at heq
          cases heq
      | wait node => cases h

theorem tries_mono {pc : ParkPc Node V} {flag flag' : U32} (hflag : flag ≠ 0 → flag' ≠ 0)
    (h : pc.tries flag = true) : pc.tries flag' = true := by
  cases pc with
  | unlockBucket | load | wait => exact decide_eq_true (hflag (of_decide_eq_true h))
  | _ => exact h

/-- A thread whose node has been flagged does not wait any more. -/
theorem tries_of_queued {pc : ParkPc Node V} {address : U64} {flag : U32}
    (hq : (pc.role key).queued = some address) (hflag : flag ≠ 0) : pc.tries flag = true := by
  cases pc with
  | unlockBucket | load | wait => exact decide_eq_true hflag
  | _ => cases hq

/-- An `unpark_one` goes on, or finds no thread to wake, or has set the flag of one. -/
theorem Unparks.notifies {pc : UnparkPc Node} {flow : Flow (UnparkPc Node) UnparkResult}
    (h : Unparks callback key word lot pc word' lot' flow) (hpc : pc.notifies = true) :
    (∃ pc', flow = .at pc' ∧ pc'.notifies = true) ∨ (pc = .dequeue ∧ ∀ u, ¬ lot'.Waits key u) ∨
      ∃ target result, pc = .setFlag target result ∧ lot'.wakeFlag target ≠ 0 := by
  cases h with
  | wake target result => cases hpc
  | step h =>
      cases pc with
      | lockBucket =>
          simp only [unparkOne] at h
          split at h <;> cases h <;> exact Or.inl ⟨_, rfl, rfl⟩
      | dequeue =>
          cases h
          cases htarget : (unlink key (lot.bucket key).queue).1 with
          | none =>
              refine Or.inr (Or.inl ⟨rfl, fun u => ?_⟩)
              rw [Lot.Waits, Lot.bucket, setQueue_queue, (unlink_none htarget).1]
              exact (unlink_none htarget).2 u
          | some target => exact Or.inl ⟨_, rfl, rfl⟩
      | callback target result =>
          cases target with
          | none => cases hpc
          | some target =>
              cases h
              exact Or.inl ⟨_, rfl, rfl⟩
      | setFlag target result =>
          cases h
          refine Or.inr (Or.inr ⟨target, result, rfl, ?_⟩)
          rw [setWakeFlag_self]
          decide
      | unlockBucket target result => cases hpc
      | wake target result => cases hpc

end Calls

/-- A parked thread stays queued until it is flagged. -/
theorem Move.queued {r' : Role Node} {key : U64} (hmove : Move t lot r lot' r')
    (hq : r.queued = some key) (hzero : lot.wakeFlag t = 0) : r'.queued = some key := by
  cases hmove with
  | keep => exact hq
  | unlock key' queued waking => exact hq
  | leave key' woken => exact absurd hzero woken
  | _ => cases hq

/-- Nobody else clears the wake flag of a node. -/
theorem Move.flag {r' : Role Node} {node : Node} (hmove : Move t lot r lot' r') (hne : node ≠ t)
    (hset : lot.wakeFlag node ≠ 0) : lot'.wakeFlag node ≠ 0 := by
  cases hmove with
  | enqueue key => rwa [enqueue_flag hne]
  | setFlag key target =>
      by_cases heq : node = target
      · rw [heq, setWakeFlag_self]
        decide
      · rwa [setWakeFlag_of_ne 1 heq]
  | _ => exact hset

theorem Inv.move (h : Inv lot role) (hmove : Move t lot (role t) lot' r) :
    Inv lot' (Function.update role t r) := by
  generalize hr : role t = r₀ at hmove
  cases hmove with
  | keep =>
      rw [← hr, Function.update_eq_self]
      exact h
  | lock key free => exact h.lock hr free
  | unlock key queued waking => exact h.unlock hr
  | enqueue key => exact h.enqueue hr
  | dequeue key => exact h.dequeue hr
  | setFlag key target => exact h.setFlag hr
  | leave key woken => exact h.leave hr woken
  | wake key target => exact h.wake hr

/-! ### Who sleeps -/

/-- A thread sleeps only in `park`, on the flag of its own node; a flag on which it sleeps is set only by an
`unpark_one` for its key that has still to wake it. -/
structure Sleeps (lot : Lot Node) (role : Node → Role Node) (asleep : Node → Option Node) : Prop where
  own : ∀ t node, asleep t = some node → node = t
  parked : ∀ t, asleep t ≠ none → ∃ key, role t = { queued := some key }
  woken : ∀ t key, asleep t ≠ none → (role t).queued = some key → lot.wakeFlag t ≠ 0 →
    ∃ u, (role u).waking = some (key, t)

variable {asleep asleep' : Node → Option Node}

theorem Sleeps.init : Sleeps lot role fun _ => none where
  own _ _ h := nomatch h
  parked _ h := absurd rfl h
  woken _ _ h := absurd rfl h

/-- A flag that a step sets is that of the thread which the `unpark_one` is going to wake. -/
theorem Move.woken {r r' : Role Node} {node : Node} (hmove : Move t lot r lot' r') (hzero : lot.wakeFlag node = 0)
    (hset : lot'.wakeFlag node ≠ 0) (hne : node ≠ t) :
    ∃ key, r.target = some (key, node) ∧ r'.waking = some (key, node) := by
  cases hmove with
  | enqueue key =>
      rw [enqueue_flag hne] at hset
      exact absurd hzero hset
  | setFlag key target =>
      by_cases heq : node = target
      · rw [heq]
        exact ⟨key, rfl, rfl⟩
      · rw [setWakeFlag_of_ne 1 heq] at hset
        exact absurd hzero hset
  | _ => exact absurd hzero hset

/-- A step of a thread that does not forget whom it has to wake. -/
theorem Sleeps.move (h : Sleeps lot role asleep) (hinv : Inv lot role) (hmove : Move t lot (role t) lot' r)
    (awake : asleep t = none) (hwaking : ∀ w, (role t).waking = some w → r.waking = some w) :
    Sleeps lot' (Function.update role t r) asleep := by
  have hne : ∀ {u}, asleep u ≠ none → u ≠ t := by
    rintro u hu rfl
    exact hu awake
  refine ⟨h.own, fun u hu => ?_, fun u key hu hq hset => ?_⟩
  · rw [Function.update_of_ne (hne hu)]
    exact h.parked u hu
  · rw [Function.update_of_ne (hne hu)] at hq
    by_cases hzero : lot.wakeFlag u = 0
    · obtain ⟨key', htarget, hw⟩ := hmove.woken hzero hset (hne hu)
      have hq' := (h.parked u hu)
      obtain ⟨-, hqueued, -, -⟩ := hinv.unlinked t key' u htarget
      obtain rfl : key = key' := Option.some.inj (hq.symm.trans hqueued)
      exact ⟨t, by rwa [Function.update_self]⟩
    · obtain ⟨v, hv⟩ := h.woken u key hu hq hzero
      refine ⟨v, ?_⟩
      rw [Function.update_apply]
      split_ifs with hvt
      · exact hwaking _ (hvt ▸ hv)
      · exact hv

/-- The kernel lets a thread sleep only on a flag that is not set. -/
theorem Sleeps.sleep (h : Sleeps lot role asleep) {key : U64} (hr : role t = { queued := some key })
    (hzero : lot.wakeFlag t = 0) : Sleeps lot role (Function.update asleep t (some t)) := by
  have hother : ∀ {u}, u ≠ t → Function.update asleep t (some t) u = asleep u :=
    fun hut => Function.update_of_ne hut ..
  refine ⟨fun u node hu => ?_, fun u hu => ?_, fun u k hu hq hset => ?_⟩
  · by_cases hut : u = t
    · rw [hut, Function.update_self] at hu
      rw [hut, Option.some.inj hu]
    · exact h.own u node (hother hut ▸ hu)
  · by_cases hut : u = t
    · exact ⟨key, hut ▸ hr⟩
    · exact h.parked u (hother hut ▸ hu)
  · by_cases hut : u = t
    · exact absurd (hut ▸ hzero) hset
    · exact h.woken u k (hother hut ▸ hu) hq hset

/-- Threads return from the kernel. -/
theorem Sleeps.resume (h : Sleeps lot role asleep) (hsub : ∀ u node, asleep' u = some node → asleep u = some node) :
    Sleeps lot role asleep' := by
  have hsleep : ∀ {u}, asleep' u ≠ none → asleep u ≠ none := by
    intro u hu
    obtain ⟨node, hnode⟩ := Option.ne_none_iff_exists'.mp hu
    rw [hsub u node hnode]
    exact Option.some_ne_none node
  exact ⟨fun u node hu => h.own u node (hsub u node hu), fun u hu => h.parked u (hsleep hu),
    fun u key hu => h.woken u key (hsleep hu)⟩

/-- The thread that `unpark_one` has to wake returns from the kernel. -/
theorem Sleeps.wake (h : Sleeps lot role asleep) {key : U64} {target : Node}
    (hr : role t = { waking := some (key, target) }) (awake : asleep target = none) :
    Sleeps lot (Function.update role t .out) asleep := by
  have hne : ∀ {u}, asleep u ≠ none → u ≠ t := by
    rintro u hu rfl
    obtain ⟨k, hk⟩ := h.parked u hu
    rw [hr] at hk
    cases hk
  refine ⟨h.own, fun u hu => ?_, fun u k hu hq hset => ?_⟩
  · rw [Function.update_of_ne (hne hu)]
    exact h.parked u hu
  · rw [Function.update_of_ne (hne hu)] at hq
    obtain ⟨v, hv⟩ := h.woken u k hu hq hset
    have hvt : v ≠ t := by
      rintro rfl
      rw [hr] at hv
      cases hv
      exact hu awake
    exact ⟨v, by rwa [Function.update_of_ne hvt]⟩

/-! ### The threads of a client -/

section Client

variable {M Th L : Type*} [Fintype Node]

/-- The code of a client whose threads park and unpark, in the states in which `I` holds: every step is one of
the parking lot, and all calls into the kernel are those of `park` and `unpark_one`. -/
structure Client (P : Program Node M Th Node L) (lot : M → Lot Node) (role : Th → Role Node)
    (I : Config Node M Th Node → Prop) : Prop where
  start : P.wait P.start = none
  inv : ∀ {s}, I s → Inv (lot s.mem) fun t => role (s.thread t)
  step : ∀ {s t l m th}, I s → P.step t l s.mem (s.thread t) = some (m, th) →
    Move t (lot s.mem) (role (s.thread t)) (lot m) (role th) ∧
      (∀ w, (role (s.thread t)).waking = some w → (role th).waking = some w) ∧
      ∀ w, P.wait th = some w → w.addr = t
  wait : ∀ {th w}, P.wait th = some w → (∃ key, role th = { queued := some key }) ∧ role w.after = role th ∧
    P.wait w.after = none ∧ ∀ m, w.holds m = true → (lot m).wakeFlag w.addr = 0
  wake : ∀ {th w}, P.wake th = some w → (∃ key, role th = { waking := some (key, w.addr) }) ∧ w.count = some 1 ∧
    role w.after = .out ∧ P.wait w.after = none
  requeue : ∀ th, P.requeue th = none

variable {P : Program Node M Th Node L} {mem : M → Lot Node} {role : Th → Role Node}
  {I : Config Node M Th Node → Prop} {s s' : Config Node M Th Node} {a : Act Node L}

omit [Fintype Node] in
theorem roles_move (role : Th → Role Node) (s : Config Node M Th Node) (t : Node) (m : M) (th : Th) :
    (fun u => role ((s.move t m th).thread u)) = Function.update (fun u => role (s.thread u)) t (role th) := by
  funext u
  rw [Config.move_thread, Function.update_apply, Function.update_apply]
  split_ifs <;> rfl

theorem Client.roles_resume (hP : Client P mem role I) (woken : Finset Node) :
    (fun u => role ((P.resume s woken).thread u)) = fun u => role (s.thread u) := by
  funext u
  refine P.resume_same (fun th => ?_) s woken u
  rw [Program.afterWait]
  cases hwait : P.wait th with
  | none => rfl
  | some w => exact (hP.wait hwait).2.1

/-- Where a thread is at a call of `FUTEX_WAIT`, the word is its own flag. -/
def Own (P : Program Node M Th Node L) (s : Config Node M Th Node) : Prop :=
  ∀ t w, P.wait (s.thread t) = some w → w.addr = t

omit [Fintype Node] in
theorem Own.move {t : Node} {m : M} {th : Th} (h : Own P s) (hth : ∀ w, P.wait th = some w → w.addr = t) :
    Own P (s.move t m th) := by
  intro u w hu
  rw [Config.move_thread, Function.update_apply] at hu
  split_ifs at hu with hut
  · rw [hut]
    exact hth w hu
  · exact h u w hu

theorem Client.own_resume (hP : Client P mem role I) (h : Own P s) (woken : Finset Node) :
    Own P (P.resume s woken) := by
  intro u w hu
  rw [Program.resume_thread, Program.afterWait] at hu
  split_ifs at hu
  · cases hwait : P.wait (s.thread u) with
    | none =>
        rw [hwait] at hu
        exact h u w hu
    | some w' =>
        rw [hwait] at hu
        cases (hP.wait hwait).2.2.1.symm.trans hu
  · exact h u w hu

theorem Client.next (hP : Client P mem role I) (hI : I s) (hown : Own P s)
    (h : Sleeps (mem s.mem) (fun t => role (s.thread t)) s.asleep) (hnext : P.machine.next s a = some s') :
    Own P s' ∧ Sleeps (mem s'.mem) (fun t => role (s'.thread t)) s'.asleep := by
  have hresume : ∀ woken, Sleeps (mem s.mem) (fun t => role ((P.resume s woken).thread t))
      (P.resume s woken).asleep := by
    intro woken
    rw [hP.roles_resume]
    refine h.resume fun u node hu => ?_
    rw [Program.resume_asleep] at hu
    split_ifs at hu
    exact hu
  cases P.transition_of_next hnext with
  | step awake hstep =>
      obtain ⟨hmove, hwaking, hwait⟩ := hP.step hI hstep
      refine ⟨hown.move hwait, ?_⟩
      rw [roles_move]
      exact h.move (hP.inv hI) hmove awake hwaking
  | @sleep t w awake hwait holds =>
      obtain ⟨⟨key, hrole⟩, -, -, hflag⟩ := hP.wait hwait
      have haddr := hown t w hwait
      refine ⟨hown, ?_⟩
      rw [Config.sleep_asleep, haddr]
      exact h.sleep hrole (haddr ▸ hflag _ holds)
  | ret hwait => exact ⟨hP.own_resume hown _, hresume _⟩
  | @wake t w woken awake hwake chosen =>
      obtain ⟨⟨key, hrole⟩, hcount, hout, hnone⟩ := hP.wake hwake
      have hself : role ((P.resume s woken).thread t) = role (s.thread t) := congrFun (hP.roles_resume woken) t
      refine ⟨(hP.own_resume hown woken).move fun w' hw' => ?_, ?_⟩
      · rw [hnone] at hw'
        cases hw'
      · rw [roles_move, hout]
        refine (hresume woken).wake (hself.trans hrole) ?_
        rw [Program.resume_asleep, ite_eq_left_iff]
        intro hnot
        -- a thread that sleeps on the flag would be the one that is woken
        by_contra hsleep
        obtain ⟨node, hnode⟩ := Option.ne_none_iff_exists'.mp hsleep
        obtain rfl := h.own _ node hnode
        rw [hcount] at chosen
        obtain ⟨v, rfl⟩ := chosen.singleton_of_one ⟨_, s.mem_sleepers.mpr hnode⟩
        have hv := s.mem_sleepers.mp (chosen.1 (Finset.mem_singleton_self v))
        exact hnot (Finset.mem_singleton.mpr (h.own v _ hv))
  | requeue awake hcall => rw [hP.requeue] at hcall; cases hcall
  | refused awake hcall => rw [hP.requeue] at hcall; cases hcall

theorem Client.sleeps_of_reachable {ok : StepCond (Config Node M Th Node) (Act Node L)}
    (hP : Client P mem role I) (hI : ∀ {s}, P.machine.Reachable ok s → I s) (h : P.machine.Reachable ok s) :
    Own P s ∧ Sleeps (mem s.mem) (fun t => role (s.thread t)) s.asleep := by
  refine h.induct (I := fun s => Own P s ∧ Sleeps (mem s.mem) (fun t => role (s.thread t)) s.asleep)
    ⟨fun t w hw => ?_, .init⟩ ?_
  · cases hP.start.symm.trans hw
  · intro s a s' hreach ih hnext _
    exact hP.next (hI hreach) ih.1 ih.2 hnext

end Client

end Psync.ParkingLot
