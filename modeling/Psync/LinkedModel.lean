import Psync.ParkingModel
import Psync.RunSolo

/-! The parking lot with its pointers: waiter nodes linked through `next`, and buckets with `head` and
`tail`. `park`, `unpark_one` and `unpark_all` go step by step; every access to a field of a node is a
step of its own. An access to `head` or `tail`, which the bucket lock protects, is merged with the
step next to it. -/

namespace Psync.LinkedLot

open Concurrency
open ParkingLot (UnparkResult hashAddress)

structure WaiterNode (Node : Type*) where
  key : U64
  wakeFlag : U32
  next : Option Node
  deriving DecidableEq

structure Bucket (Node : Type*) where
  lockState : U32
  head : Option Node
  tail : Option Node
  deriving DecidableEq

/-- The buckets by index, and the nodes by address. -/
structure Lot (Node : Type*) where
  buckets : U64 → Bucket Node
  nodes : Node → WaiterNode Node

variable {Node : Type*}

def Lot.init : Lot Node := ⟨fun _ => ⟨0, none, none⟩, fun _ => ⟨0, 0, none⟩⟩

/-! ### Writes to memory -/

namespace Lot

variable (lot : Lot Node)

def bucket (address : U64) : Bucket Node := lot.buckets (hashAddress address)

def setBucket (address : U64) (b : Bucket Node) : Lot Node :=
  { lot with buckets := Function.update lot.buckets (hashAddress address) b }

def setLockState (address : U64) (v : U32) : Lot Node :=
  lot.setBucket address { lot.bucket address with lockState := v }

def setHead (address : U64) (p : Option Node) : Lot Node :=
  lot.setBucket address { lot.bucket address with head := p }

def setTail (address : U64) (p : Option Node) : Lot Node :=
  lot.setBucket address { lot.bucket address with tail := p }

variable [DecidableEq Node]

def setNode (node : Node) (n : WaiterNode Node) : Lot Node :=
  { lot with nodes := Function.update lot.nodes node n }

def setKey (node : Node) (key : U64) : Lot Node :=
  lot.setNode node { lot.nodes node with key := key }

def setWakeFlag (node : Node) (v : U32) : Lot Node :=
  lot.setNode node { lot.nodes node with wakeFlag := v }

def setNext (node : Node) (p : Option Node) : Lot Node :=
  lot.setNode node { lot.nodes node with next := p }

/-- `if (prev) prev->next = next; else bucket->head = next;` -/
def setLink (address : U64) (prev next : Option Node) : Lot Node :=
  match prev with
  | some prev => lot.setNext prev next
  | none => lot.setHead address next

/-- `if (bucket->tail == curr) bucket->tail = prev;` -/
def fixTail (address : U64) (prev : Option Node) (curr : Node) : Lot Node :=
  if (lot.bucket address).tail = some curr then lot.setTail address prev else lot

end Lot

/-! ### `park` -/

inductive ParkPc
  /-- The CAS of `lock_bucket`. -/
  | lockBucket
  | validate
  /-- `unlock_bucket` after a failed validation. -/
  | abort
  /-- `node->key = lock_address`. -/
  | setKey
  /-- `node->wake_flag = 0`. -/
  | setFlag
  /-- `node->next = nullptr`. -/
  | setNext
  /-- `bucket->tail->next = node`, or `bucket->head = node`. -/
  | link
  /-- `bucket->tail = node`. -/
  | setTail
  | unlockBucket
  /-- The load of the wake flag. -/
  | load
  /-- `futex::wait(&node->wake_flag, 0)`. -/
  | wait
  deriving DecidableEq

/-- A step that is the same for all three functions: the CAS of `lock_bucket`. -/
def lockBucket {P R : Type*} (address : U64) (lot : Lot Node) (locked retry : P) : Next (Lot Node) P R :=
  if (lot.bucket address).lockState = 0 then .at (lot.setLockState address 1) locked
  else .at lot retry

variable [DecidableEq Node]

/-- One step of `park(address, node, validate)`; `valid` is what the callback returns. -/
def park (address : U64) (node : Node) (valid : Bool) (lot : Lot Node) :
    ParkPc → Option (Next (Lot Node) ParkPc Bool)
  | .lockBucket => some (lockBucket address lot .validate .lockBucket)
  | .validate => some (.at lot (if valid then .setKey else .abort))
  | .abort => some (.ret (lot.setLockState address 0) false)
  | .setKey => some (.at (lot.setKey node address) .setFlag)
  | .setFlag => some (.at (lot.setWakeFlag node 0) .setNext)
  | .setNext => some (.at (lot.setNext node none) .link)
  | .link => some (.at (lot.setLink address (lot.bucket address).tail (some node)) .setTail)
  | .setTail => some (.at (lot.setTail address (some node)) .unlockBucket)
  | .unlockBucket => some (.at (lot.setLockState address 0) .load)
  | .load => some (if (lot.nodes node).wakeFlag = 0 then .at lot .wait else .ret lot true)
  | .wait => none

/-! ### `unpark_one` -/

inductive UnparkPc (Node : Type*)
  | lockBucket
  /-- `curr = bucket->head`. -/
  | loadHead
  /-- `curr->key == lock_address`. -/
  | key (prev : Option Node) (curr : Node)
  /-- `prev = curr; curr = curr->next`. -/
  | next (curr : Node)
  /-- The load of `curr->next` for the unlink. -/
  | loadNext (prev : Option Node) (target : Node)
  /-- `prev->next = curr->next`, or `bucket->head = curr->next`. -/
  | unlink (prev : Option Node) (target : Node) (next : Option Node)
  | fixTail (prev : Option Node) (target : Node)
  /-- `check = bucket->head`. -/
  | loadCheck (target : Node)
  /-- `check->key == lock_address`. -/
  | checkKey (target check : Node)
  /-- `check = check->next`. -/
  | checkNext (target check : Node)
  | callback (target : Option Node) (result : UnparkResult)
  /-- `target->wake_flag = 1`. -/
  | setFlag (target : Node) (result : UnparkResult)
  | unlockBucket (target : Option Node) (result : UnparkResult)
  /-- `futex::wake(&target->wake_flag, 1)`. -/
  | wake (target : Node) (result : UnparkResult)
  deriving DecidableEq

/-- The head of the first scan: `while (curr)`. -/
def scan (prev curr : Option Node) : UnparkPc Node :=
  match curr with
  | some curr => .key prev curr
  | none => .callback none .none

/-- The head of the second scan: `while (check)`. -/
def check (target : Node) (check : Option Node) : UnparkPc Node :=
  match check with
  | some check => .checkKey target check
  | none => .callback (some target) .noMoreWaiters

/-- One step of `unpark_one(address, callback)`. The callback does not touch the parking lot. -/
def unparkOne (address : U64) (lot : Lot Node) :
    UnparkPc Node → Next (Lot Node) (UnparkPc Node) UnparkResult
  | .lockBucket => lockBucket address lot .loadHead .lockBucket
  | .loadHead => .at lot (scan none (lot.bucket address).head)
  | .key prev curr =>
      .at lot (if (lot.nodes curr).key = address then .loadNext prev curr else .next curr)
  | .next curr => .at lot (scan (some curr) (lot.nodes curr).next)
  | .loadNext prev target => .at lot (.unlink prev target (lot.nodes target).next)
  | .unlink prev target next => .at (lot.setLink address prev next) (.fixTail prev target)
  | .fixTail prev target => .at (lot.fixTail address prev target) (.loadCheck target)
  | .loadCheck target => .at lot (check target (lot.bucket address).head)
  | .checkKey target check => .at lot (if (lot.nodes check).key = address
      then .callback (some target) .hasMoreWaiters else .checkNext target check)
  | .checkNext target curr => .at lot (check target (lot.nodes curr).next)
  | .callback (some target) result => .at lot (.setFlag target result)
  | .callback none result => .at lot (.unlockBucket none result)
  | .setFlag target result => .at (lot.setWakeFlag target 1) (.unlockBucket (some target) result)
  | .unlockBucket (some target) result => .at (lot.setLockState address 0) (.wake target result)
  | .unlockBucket none result => .ret (lot.setLockState address 0) result
  | .wake _ result => .ret lot result

/-! ### `unpark_all` -/

/-- The locals of the scan in `unpark_all`, apart from `curr` and `next`. -/
structure Sweep (Node : Type*) where
  prev : Option Node
  toWakeHead : Option Node
  toWakeTail : Option Node
  count : ℕ
  deriving DecidableEq

inductive UnparkAllPc (Node : Type*)
  | lockBucket
  | loadHead
  /-- `next = curr->next`. -/
  | next (l : Sweep Node) (curr : Node)
  /-- `curr->key == lock_address`. -/
  | key (l : Sweep Node) (curr : Node) (next : Option Node)
  /-- `prev->next = next`, or `bucket->head = next`. -/
  | unlink (l : Sweep Node) (curr : Node) (next : Option Node)
  | fixTail (l : Sweep Node) (curr : Node) (next : Option Node)
  /-- `curr->next = nullptr`. -/
  | clear (l : Sweep Node) (curr : Node) (next : Option Node)
  /-- `to_wake_tail->next = curr`, or `to_wake_head = curr`. -/
  | link (l : Sweep Node) (curr : Node) (next : Option Node)
  | unlockBucket (l : Sweep Node)
  /-- `next = curr->next` in the loop that wakes. -/
  | wakeNext (count : ℕ) (curr : Node)
  /-- `curr->wake_flag = 1`. -/
  | setFlag (count : ℕ) (curr : Node) (next : Option Node)
  /-- `futex::wake(&curr->wake_flag, 1)`. -/
  | wake (count : ℕ) (curr : Node) (next : Option Node)
  deriving DecidableEq

/-- The head of the scan: `while (curr)`. -/
def sweep (l : Sweep Node) (curr : Option Node) : UnparkAllPc Node :=
  match curr with
  | some curr => .next l curr
  | none => .unlockBucket l

/-- The head of the loop that wakes. -/
def wakeAll (lot : Lot Node) (count : ℕ) (curr : Option Node) :
    Next (Lot Node) (UnparkAllPc Node) ℕ :=
  match curr with
  | some curr => .at lot (.wakeNext count curr)
  | none => .ret lot count

/-- `to_wake_tail->next = curr`, unless the list is empty. -/
def Lot.append (lot : Lot Node) (toWakeTail : Option Node) (curr : Node) : Lot Node :=
  match toWakeTail with
  | some tail => lot.setNext tail (some curr)
  | none => lot

/-- `to_wake_head` becomes `curr` if the list is empty, `to_wake_tail` becomes `curr`. -/
def Sweep.append (l : Sweep Node) (curr : Node) : Sweep Node :=
  { l with
    toWakeHead := if l.toWakeTail.isSome then l.toWakeHead else some curr
    toWakeTail := some curr
    count := l.count + 1 }

/-- One step of `unpark_all(address)`. -/
def unparkAll (address : U64) (lot : Lot Node) :
    UnparkAllPc Node → Next (Lot Node) (UnparkAllPc Node) ℕ
  | .lockBucket => lockBucket address lot .loadHead .lockBucket
  | .loadHead => .at lot (sweep ⟨none, none, none, 0⟩ (lot.bucket address).head)
  | .next l curr => .at lot (.key l curr (lot.nodes curr).next)
  | .key l curr next => .at lot (if (lot.nodes curr).key = address then .unlink l curr next
      else sweep { l with prev := some curr } next)
  | .unlink l curr next => .at (lot.setLink address l.prev next) (.fixTail l curr next)
  | .fixTail l curr next => .at (lot.fixTail address l.prev curr) (.clear l curr next)
  | .clear l curr next => .at (lot.setNext curr none) (.link l curr next)
  | .link l curr next => .at (lot.append l.toWakeTail curr) (sweep (l.append curr) next)
  | .unlockBucket l => wakeAll (lot.setLockState address 0) l.count l.toWakeHead
  | .wakeNext count curr => .at lot (.setFlag count curr (lot.nodes curr).next)
  | .setFlag count curr next => .at (lot.setWakeFlag curr 1) (.wake count curr next)
  | .wake count _ next => wakeAll lot count next

end Psync.LinkedLot
