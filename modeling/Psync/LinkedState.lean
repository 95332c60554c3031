import Psync.LinkedModel
import Psync.RunLinked

/-! What the writes of the parking lot do to the linked list of a bucket: a node is appended behind
the tail, or leaves from any position, and the tail is set right. -/

namespace Psync.LinkedLot

open Concurrency
open ParkingLot (hashAddress)

set_option linter.unusedSectionVars false

variable {Node : Type*}

namespace Lot

/-- The links and the keys of the nodes. -/
def next (lot : Lot Node) (n : Node) : Option Node := (lot.nodes n).next

def key (lot : Lot Node) (n : Node) : U64 := (lot.nodes n).key

def wakeFlag (lot : Lot Node) (n : Node) : U32 := (lot.nodes n).wakeFlag

variable (lot : Lot Node) (address : U64)

/-! ### Buckets -/

@[simp] theorem setBucket_bucket (b : Bucket Node) : (lot.setBucket address b).bucket address = b :=
  Function.update_self ..

theorem setBucket_of_ne {b : U64} (v : Bucket Node) (h : b ≠ hashAddress address) :
    (lot.setBucket address v).buckets b = lot.buckets b := Function.update_of_ne h ..

@[simp] theorem setBucket_nodes (b : Bucket Node) : (lot.setBucket address b).nodes = lot.nodes := rfl

@[simp] theorem setLockState_nodes (v : U32) : (lot.setLockState address v).nodes = lot.nodes := rfl

@[simp] theorem setHead_nodes (p : Option Node) : (lot.setHead address p).nodes = lot.nodes := rfl

@[simp] theorem setTail_nodes (p : Option Node) : (lot.setTail address p).nodes = lot.nodes := rfl

@[simp] theorem setLockState_bucket (v : U32) : (lot.setLockState address v).bucket address =
    { lot.bucket address with lockState := v } := setBucket_bucket ..

@[simp] theorem setHead_bucket (p : Option Node) : (lot.setHead address p).bucket address =
    { lot.bucket address with head := p } := setBucket_bucket ..

@[simp] theorem setTail_bucket (p : Option Node) : (lot.setTail address p).bucket address =
    { lot.bucket address with tail := p } := setBucket_bucket ..

/-- Taking a free lock and giving it back leaves no trace. -/
theorem setLockState_restore (v : U32) (h : (lot.bucket address).lockState = 0) :
    (lot.setLockState address v).setLockState address 0 = lot := by
  obtain ⟨buckets, nodes⟩ := lot
  rw [setLockState, setLockState_bucket, setLockState, setBucket, setBucket, Function.update_idem,
    Lot.mk.injEq]
  refine ⟨?_, rfl⟩
  have hb : (⟨buckets, nodes⟩ : Lot Node).bucket address = buckets (hashAddress address) := rfl
  rw [hb] at h ⊢
  rw [← h]
  exact Function.update_eq_self ..

variable [DecidableEq Node] (node : Node)

/-! ### Nodes -/

@[simp] theorem setNode_buckets (n : WaiterNode Node) : (lot.setNode node n).buckets = lot.buckets := rfl

@[simp] theorem setKey_buckets (key : U64) : (lot.setKey node key).buckets = lot.buckets := rfl

@[simp] theorem setWakeFlag_buckets (v : U32) : (lot.setWakeFlag node v).buckets = lot.buckets := rfl

@[simp] theorem setNext_buckets (p : Option Node) : (lot.setNext node p).buckets = lot.buckets := rfl

@[simp] theorem setNext_bucket (p : Option Node) :
    (lot.setNext node p).bucket address = lot.bucket address := rfl

/-- How a field of the nodes changes when one node is written. -/
theorem setNode_field {γ : Type*} (g : WaiterNode Node → γ) (v : WaiterNode Node) :
    (fun n => g ((lot.setNode node v).nodes n)) = Function.update (fun n => g (lot.nodes n)) node (g v) := by
  funext n
  by_cases h : n = node
  · rw [h, Function.update_self]
    exact congrArg g (Function.update_self ..)
  · rw [Function.update_of_ne h]
    exact congrArg g (Function.update_of_ne h ..)

theorem setNode_other {γ : Type*} {g : WaiterNode Node → γ} {v : WaiterNode Node}
    (h : g v = g (lot.nodes node)) :
    (fun n => g ((lot.setNode node v).nodes n)) = fun n => g (lot.nodes n) := by
  rw [setNode_field, h, Function.update_eq_self]

@[simp] theorem setNext_next (p : Option Node) :
    (lot.setNext node p).next = Function.update lot.next node p := lot.setNode_field node WaiterNode.next _

@[simp] theorem setNext_key (p : Option Node) : (lot.setNext node p).key = lot.key :=
  lot.setNode_other node (g := WaiterNode.key) rfl

@[simp] theorem setNext_wakeFlag (p : Option Node) : (lot.setNext node p).wakeFlag = lot.wakeFlag :=
  lot.setNode_other node (g := WaiterNode.wakeFlag) rfl

@[simp] theorem setKey_next (k : U64) : (lot.setKey node k).next = lot.next :=
  lot.setNode_other node (g := WaiterNode.next) rfl

@[simp] theorem setKey_key (k : U64) : (lot.setKey node k).key = Function.update lot.key node k :=
  lot.setNode_field node WaiterNode.key _

@[simp] theorem setKey_wakeFlag (k : U64) : (lot.setKey node k).wakeFlag = lot.wakeFlag :=
  lot.setNode_other node (g := WaiterNode.wakeFlag) rfl

@[simp] theorem setWakeFlag_next (v : U32) : (lot.setWakeFlag node v).next = lot.next :=
  lot.setNode_other node (g := WaiterNode.next) rfl

@[simp] theorem setWakeFlag_key (v : U32) : (lot.setWakeFlag node v).key = lot.key :=
  lot.setNode_other node (g := WaiterNode.key) rfl

@[simp] theorem setWakeFlag_wakeFlag (v : U32) :
    (lot.setWakeFlag node v).wakeFlag = Function.update lot.wakeFlag node v :=
  lot.setNode_field node WaiterNode.wakeFlag _

end Lot

/-! ### The composite writes -/

namespace Lot

variable [DecidableEq Node] (lot : Lot Node) (address : U64) (p r : Option Node) (n : Node)

@[simp] theorem setLink_key : (lot.setLink address p r).key = lot.key := by
  cases p with
  | none => rfl
  | some prev => exact lot.setNext_key prev r

@[simp] theorem setLink_wakeFlag : (lot.setLink address p r).wakeFlag = lot.wakeFlag := by
  cases p with
  | none => rfl
  | some prev => exact lot.setNext_wakeFlag prev r

theorem setLink_next {n : Node} (h : p ≠ some n) : (lot.setLink address p r).next n = lot.next n := by
  cases p with
  | none => rfl
  | some prev =>
      rw [setLink, setNext_next]
      exact Function.update_of_ne (fun hn => h (by rw [hn])) ..

@[simp] theorem setLink_tail :
    ((lot.setLink address p r).bucket address).tail = (lot.bucket address).tail := by
  cases p with
  | none => rw [setLink, setHead_bucket]
  | some prev => rfl

@[simp] theorem setLink_lockState :
    ((lot.setLink address p r).bucket address).lockState = (lot.bucket address).lockState := by
  cases p with
  | none => rw [setLink, setHead_bucket]
  | some prev => rfl

theorem setLink_of_ne {b : U64} (h : b ≠ hashAddress address) :
    (lot.setLink address p r).buckets b = lot.buckets b := by
  cases p with
  | none => exact lot.setBucket_of_ne address _ h
  | some prev => rfl

@[simp] theorem fixTail_nodes : (lot.fixTail address p n).nodes = lot.nodes := by
  rw [fixTail]
  split_ifs <;> rfl

@[simp] theorem fixTail_next : (lot.fixTail address p n).next = lot.next := by
  funext m
  rw [next, fixTail_nodes]
  rfl

@[simp] theorem fixTail_key : (lot.fixTail address p n).key = lot.key := by
  funext m
  rw [key, fixTail_nodes]
  rfl

@[simp] theorem fixTail_wakeFlag : (lot.fixTail address p n).wakeFlag = lot.wakeFlag := by
  funext m
  rw [wakeFlag, fixTail_nodes]
  rfl

@[simp] theorem fixTail_head :
    ((lot.fixTail address p n).bucket address).head = (lot.bucket address).head := by
  rw [fixTail]
  split_ifs
  · rw [setTail_bucket]
  · rfl

@[simp] theorem fixTail_lockState :
    ((lot.fixTail address p n).bucket address).lockState = (lot.bucket address).lockState := by
  rw [fixTail]
  split_ifs
  · rw [setTail_bucket]
  · rfl

theorem fixTail_of_ne {b : U64} (h : b ≠ hashAddress address) :
    (lot.fixTail address p n).buckets b = lot.buckets b := by
  rw [fixTail]
  split_ifs
  · exact lot.setBucket_of_ne address _ h
  · rfl

@[simp] theorem append_buckets : (lot.append p n).buckets = lot.buckets := by
  cases p <;> rfl

@[simp] theorem append_bucket : (lot.append p n).bucket address = lot.bucket address := by
  cases p <;> rfl

@[simp] theorem append_key : (lot.append p n).key = lot.key := by
  cases p with
  | none => rfl
  | some tail => exact lot.setNext_key tail (some n)

@[simp] theorem append_wakeFlag : (lot.append p n).wakeFlag = lot.wakeFlag := by
  cases p with
  | none => rfl
  | some tail => exact lot.setNext_wakeFlag tail (some n)

theorem append_next {m : Node} (h : p ≠ some m) : (lot.append p n).next m = lot.next m := by
  cases p with
  | none => rfl
  | some tail =>
      rw [append, setNext_next]
      exact Function.update_of_ne (fun hm => h (by rw [hm])) ..

end Lot

/-! ### The list of a bucket -/

variable [DecidableEq Node] {lot : Lot Node} {address : U64} {q before after : List Node} {n : Node}

/-- The nodes of a bucket from `head` on. -/
def Lot.Queue (lot : Lot Node) (b : U64) (q : List Node) : Prop :=
  Segment lot.next (lot.buckets b).head q none

/-- Only the head and the links matter. -/
theorem queue_iff {lot lot' : Lot Node} {b : U64} (hnext : lot'.next = lot.next)
    (hhead : (lot'.buckets b).head = (lot.buckets b).head) : lot'.Queue b q ↔ lot.Queue b q := by
  rw [Lot.Queue, hnext, hhead]
  rfl

theorem setBucket_queue {b : U64} {v : Bucket Node} (h : v.head = (lot.bucket address).head) :
    (lot.setBucket address v).Queue b q ↔ lot.Queue b q := by
  refine queue_iff rfl ?_
  by_cases hb : b = hashAddress address
  · rw [hb]
    change ((lot.setBucket address v).bucket address).head = _
    rw [Lot.setBucket_bucket]
    exact h
  · rw [Lot.setBucket_of_ne _ _ _ hb]

@[simp] theorem setLockState_queue {b : U64} {v : U32} :
    (lot.setLockState address v).Queue b q ↔ lot.Queue b q := setBucket_queue rfl

@[simp] theorem setTail_queue {b : U64} {p : Option Node} :
    (lot.setTail address p).Queue b q ↔ lot.Queue b q := setBucket_queue rfl

@[simp] theorem fixTail_queue {b : U64} {p : Option Node} :
    (lot.fixTail address p n).Queue b q ↔ lot.Queue b q := by
  rw [Lot.fixTail]
  split_ifs
  · exact setTail_queue
  · exact Iff.rfl

@[simp] theorem setWakeFlag_queue {b : U64} {v : U32} :
    (lot.setWakeFlag n v).Queue b q ↔ lot.Queue b q := queue_iff (lot.setWakeFlag_next n v) rfl

/-- A node is linked behind the tail of the bucket. -/
theorem queue_link (hq : lot.Queue (hashAddress address) q)
    (htail : (lot.bucket address).tail = q.getLast?) (hn : n ∉ q) (hnext : lot.next n = none) :
    (lot.setLink address (lot.bucket address).tail (some n)).Queue (hashAddress address) (q ++ [n]) := by
  rw [htail]
  rcases List.eq_nil_or_concat q with rfl | ⟨init, last, rfl⟩
  · rw [Lot.Queue, List.nil_append, Segment.cons]
    refine ⟨?_, hnext⟩
    change ((lot.setHead address (some n)).bucket address).head = some n
    rw [Lot.setHead_bucket]
  · rw [List.concat_eq_append] at hq hn ⊢
    rw [List.getLast?_concat, Lot.Queue, Lot.setLink, Lot.setNext_next, Segment.concat]
    have hlast : last ∉ init := fun hmem => (List.nodup_append.mp hq.nodup).2.2 last hmem last (by simp) rfl
    refine ⟨hq.redirect hlast (some n), ?_⟩
    have hne : n ≠ last := fun h => hn (by simp [h])
    rw [Function.update_of_ne hne, hnext]

/-- A node leaves the list. -/
theorem queue_unlink (hq : lot.Queue (hashAddress address) (before ++ n :: after)) :
    (lot.setLink address before.getLast? (lot.next n)).Queue (hashAddress address) (before ++ after) := by
  obtain ⟨r, hbefore, rfl, hafter⟩ := Segment.append.mp hq
  rcases List.eq_nil_or_concat before with rfl | ⟨init, last, rfl⟩
  · rw [Lot.Queue, List.nil_append]
    change Segment lot.next ((lot.setHead address (lot.next n)).bucket address).head after none
    rw [Lot.setHead_bucket]
    exact hafter
  · rw [List.concat_eq_append] at hq hbefore ⊢
    have hnodup := List.nodup_append.mp hq.nodup
    have hlast : last ∉ init := fun hmem =>
      (List.nodup_append.mp hnodup.1).2.2 last hmem last (by simp) rfl
    have hrest : last ∉ after := fun hmem => hnodup.2.2 last (by simp) last (by simp [hmem]) rfl
    rw [List.getLast?_concat, Lot.Queue, Lot.setLink, Lot.setNext_next, Segment.append]
    exact ⟨_, hbefore.redirect hlast _, hafter.update_of_notMem hrest _⟩

/-- If the node that has left was the last one, the tail moves to the one before it. -/
theorem tail_fix (hnodup : (before ++ n :: after).Nodup)
    (htail : (lot.bucket address).tail = (before ++ n :: after).getLast?) :
    ((lot.fixTail address before.getLast? n).bucket address).tail = (before ++ after).getLast? := by
  rw [Lot.fixTail, htail]
  rcases List.eq_nil_or_concat after with rfl | ⟨init, last, rfl⟩
  · rw [List.getLast?_concat, if_pos rfl, Lot.setTail_bucket, List.append_nil]
  · rw [List.concat_eq_append] at hnodup htail ⊢
    have hne : last ≠ n := by
      rintro rfl
      have := (List.nodup_cons.mp (List.nodup_append.mp hnodup).2.1).1
      simp at this
    rw [← List.append_assoc, List.getLast?_concat]
    rw [← List.cons_append, ← List.append_assoc, List.getLast?_concat] at htail ⊢
    rw [if_neg fun h => hne (Option.some.inj h), htail]

/-! ### The private list of `unpark_all` -/

/-- The list of the nodes that `unpark_all` has taken out and has not woken. -/
structure ToWake (lot : Lot Node) (l : Sweep Node) (wake : List Node) : Prop where
  list : Segment lot.next l.toWakeHead wake none
  last : l.toWakeTail = wake.getLast?

theorem ToWake.congr {lot' : Lot Node} {l : Sweep Node} {wake : List Node} (h : ToWake lot l wake)
    (hsame : ∀ n ∈ wake, lot'.next n = lot.next n) : ToWake lot' l wake :=
  ⟨h.list.congr hsame, h.last⟩

theorem ToWake.append {l : Sweep Node} {wake : List Node} (h : ToWake lot l wake) (hn : n ∉ wake)
    (hnext : lot.next n = none) : ToWake (lot.append l.toWakeTail n) (l.append n) (wake ++ [n]) := by
  obtain ⟨hlist, hlast⟩ := h
  refine ⟨?_, by rw [List.getLast?_concat]; rfl⟩
  rw [Sweep.append, hlast]
  rcases List.eq_nil_or_concat wake with rfl | ⟨init, last, rfl⟩
  · exact ⟨rfl, hnext⟩
  · rw [List.concat_eq_append] at hlist hn ⊢
    have hfresh : last ∉ init := fun hmem => (List.nodup_append.mp hlist.nodup).2.2 last hmem last (by simp) rfl
    have hne : n ≠ last := fun h => hn (by simp [h])
    rw [List.getLast?_concat, Lot.append, Lot.setNext_next, Segment.concat]
    exact ⟨hlist.redirect hfresh (some n), by rw [Function.update_of_ne hne, hnext]⟩

end Psync.LinkedLot
