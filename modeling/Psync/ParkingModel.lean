import Psync.Platform

/-! The parking lot: hashed buckets of waiter nodes, `park` with a validation callback and
`unpark_one` with a callback under the bucket lock. A waiter node is named by the thread that owns
it, and the linked list of a bucket is the list of its keys and nodes from head to tail. A parked
thread sleeps in the kernel on the wake flag of its node. -/

namespace Psync.ParkingLot

open Concurrency

variable {Node W V : Type*}

structure Bucket (Node : Type*) where
  lockState : U32
  queue : List (U64 × Node)

/-- The buckets, and the `wake_flag` of every node. -/
structure Lot (Node : Type*) where
  buckets : U64 → Bucket Node
  wakeFlag : Node → U32

def Lot.init : Lot Node := ⟨fun _ => ⟨0, []⟩, fun _ => 0⟩

def numBuckets : U64 := 64

inductive UnparkResult
  | none
  | noMoreWaiters
  | hasMoreWaiters
  deriving DecidableEq

def hashAddress (address : U64) : U64 := (address >>> 3) &&& (numBuckets - 1)

/-! ### The queue of a bucket -/

/-- The scan of `unpark_one`: the first node parked on `key` leaves the list. -/
def unlink (key : U64) : List (U64 × Node) → Option Node × List (U64 × Node)
  | [] => (none, [])
  | curr :: next =>
      if curr.1 = key then (some curr.2, next)
      else ((unlink key next).1, curr :: (unlink key next).2)

/-- The second scan: does another node wait for `key`? -/
def hasMore (key : U64) (queue : List (U64 × Node)) : Bool := queue.any fun check => check.1 = key

def unparkResult (target : Option Node) (more : Bool) : UnparkResult :=
  if target.isNone then .none else if more then .hasMoreWaiters else .noMoreWaiters

namespace Lot

variable (lot : Lot Node)

def bucket (key : U64) : Bucket Node := lot.buckets (hashAddress key)

def setBucket (key : U64) (b : Bucket Node) : Lot Node :=
  { lot with buckets := Function.update lot.buckets (hashAddress key) b }

def setLockState (key : U64) (v : U32) : Lot Node :=
  lot.setBucket key { lot.bucket key with lockState := v }

def setQueue (key : U64) (queue : List (U64 × Node)) : Lot Node :=
  lot.setBucket key { lot.bucket key with queue := queue }

variable [DecidableEq Node]

def setWakeFlag (node : Node) (v : U32) : Lot Node :=
  { lot with wakeFlag := Function.update lot.wakeFlag node v }

/-- `park` links its node behind the tail of the bucket. -/
def enqueue (key : U64) (node : Node) : Lot Node :=
  (lot.setWakeFlag node 0).setQueue key ((lot.bucket key).queue ++ [(key, node)])

/-- The node waits in the queue of its bucket. -/
def Waits (key : U64) (node : Node) : Prop := (key, node) ∈ (lot.bucket key).queue

end Lot

/-! ### The two operations -/

/-- Where a called function continues: at a position of its own, or in its caller. -/
inductive Flow (P R : Type*)
  | at (pc : P)
  | ret (result : R)
  deriving DecidableEq

/-- `park`; `V` are the positions of the validation callback. -/
inductive ParkPc (Node V : Type*)
  /-- The CAS of `lock_bucket`. -/
  | lockBucket
  /-- Inside the callback. -/
  | validate (v : V)
  /-- `unlock_bucket` after a failed validation. -/
  | abort
  /-- The node is linked. -/
  | enqueue
  | unlockBucket
  /-- The load of the wake flag. -/
  | load
  /-- `futex::wait(&node->wake_flag, 0)`. -/
  | wait (node : Node)
  deriving DecidableEq

/-- `unpark_one`. -/
inductive UnparkPc (Node : Type*)
  /-- The CAS of `lock_bucket`. -/
  | lockBucket
  /-- The two scans. -/
  | dequeue
  | callback (target : Option Node) (result : UnparkResult)
  /-- The store to the wake flag of the target. -/
  | setFlag (target : Node) (result : UnparkResult)
  | unlockBucket (target : Option Node) (result : UnparkResult)
  /-- `futex::wake(&target->wake_flag, 1)`. -/
  | wake (target : Node) (result : UnparkResult)
  deriving DecidableEq

variable {M Th : Type*} [DecidableEq Node]

/-- One step of `lock_bucket`. -/
def lockBucket (key : U64) (lot : Lot Node) : Option (Lot Node) :=
  if (lot.bucket key).lockState = 0 then some (lot.setLockState key 1) else none

/-- `unlock_bucket`. -/
def unlockBucket (key : U64) (lot : Lot Node) : Lot Node := lot.setLockState key 0

/-- One step of `park(key, node, validate)`, except for the call into the kernel. -/
def park (first : V) (validate : V → W → W × Flow V Bool) (key : U64) (node : Node) (word : W)
    (lot : Lot Node) : ParkPc Node V → Option (W × Lot Node × Flow (ParkPc Node V) Bool)
  | .lockBucket => match lockBucket key lot with
      | some lot' => some (word, lot', .at (.validate first))
      | none => some (word, lot, .at .lockBucket)
  | .validate v => match validate v word with
      | (word', .at v') => some (word', lot, .at (.validate v'))
      | (word', .ret true) => some (word', lot, .at .enqueue)
      | (word', .ret false) => some (word', lot, .at .abort)
  | .abort => some (word, unlockBucket key lot, .ret false)
  | .enqueue => some (word, lot.enqueue key node, .at .unlockBucket)
  | .unlockBucket => some (word, unlockBucket key lot, .at .load)
  | .load => some (word, lot, if lot.wakeFlag node = 0 then .at (.wait node) else .ret true)
  | .wait _ => none

/-- The call into the kernel in `park`; the loop loads the flag again whenever it returns. -/
def parkWait (lot : M → Lot Node) (next : ParkPc Node V → Th) : ParkPc Node V → Option (WaitCall M Th Node)
  | .wait node => some (futex.wait node (fun m => (lot m).wakeFlag node) 0 (next .load))
  | _ => none

/-- One step of `unpark_one(key, callback)`, except for the call into the kernel. -/
def unparkOne (callback : UnparkResult → W → W) (key : U64) (word : W) (lot : Lot Node) :
    UnparkPc Node → Option (W × Lot Node × Flow (UnparkPc Node) UnparkResult)
  | .lockBucket => match lockBucket key lot with
      | some lot' => some (word, lot', .at .dequeue)
      | none => some (word, lot, .at .lockBucket)
  | .dequeue =>
      let r := unlink key (lot.bucket key).queue
      some (word, lot.setQueue key r.2, .at (.callback r.1 (unparkResult r.1 (hasMore key r.2))))
  | .callback none result => some (callback result word, lot, .at (.unlockBucket none result))
  | .callback (some target) result => some (callback result word, lot, .at (.setFlag target result))
  | .setFlag target result =>
      some (word, lot.setWakeFlag target 1, .at (.unlockBucket (some target) result))
  | .unlockBucket none result => some (word, unlockBucket key lot, .ret result)
  | .unlockBucket (some target) result => some (word, unlockBucket key lot, .at (.wake target result))
  | .wake .. => none

/-- The call into the kernel in `unpark_one`, which then returns. The kernel uses the address of the flag and
does not read it. -/
def unparkWake (ret : UnparkResult → Th) : UnparkPc Node → Option (WakeCall Th Node)
  | .wake target result => some (futex.wake target 1 (ret result))
  | _ => none

/-- The thread does not wait for its flag: it has not linked its node, nor is it about to, or its flag is set. -/
def ParkPc.tries (flag : U32) : ParkPc Node V → Bool
  | .lockBucket | .validate _ | .abort => true
  | .enqueue => false
  | .unlockBucket | .load | .wait _ => flag ≠ 0

/-- `unpark_one` has still to find a thread, or to set the flag of the one that it has found. -/
def UnparkPc.notifies : UnparkPc Node → Bool
  | .lockBucket | .dequeue | .callback (some _) _ | .setFlag .. => true
  | .callback none _ | .unlockBucket .. | .wake .. => false

end Psync.ParkingLot
