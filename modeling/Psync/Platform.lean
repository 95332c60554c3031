import Psync.RunFutex
import Psync.WordFields

/-! The platform layer: machine words, the futex entry points and the spinning constants.

Every atomic builtin is one indivisible step of an interleaving; a plain access by the only thread
that may touch its location is merged with a neighbouring step. `cpu_pause` has no effect. -/

namespace Psync

open Concurrency

abbrev U32 := BitVec 32
abbrev U64 := BitVec 64

def spinInitial : ℕ := 10
def backoffMultiplier : ℕ := 2
def backoffMax : ℕ := 1000
def futexThreshold : ℕ := 3

namespace futex

variable {M Th Addr : Type*}

/-- `futex::wait(uaddr, val)` on the word `read` finds at `uaddr`. -/
def wait (uaddr : Addr) (read : M → U32) (val : U32) (after : Th) : WaitCall M Th Addr where
  addr := uaddr
  holds mem := read mem == val
  after := after

/-- `futex::wake(uaddr, count)`; a count that is not positive asks for every sleeper. -/
def wake (uaddr : Addr) (count : ℤ) (after : Th) : WakeCall Th Addr where
  addr := uaddr
  count := if count ≤ 0 then none else some count.toNat
  after := after

/-- `futex::wake_all(uaddr)`, taken to reach every sleeper. -/
def wakeAll (uaddr : Addr) (after : Th) : WakeCall Th Addr where
  addr := uaddr
  count := none
  after := after

/-- `FUTEX_CMP_REQUEUE`, `FUTEX_PRIVATE_FLAG` and `FUTEX_CMP_REQUEUE_PRIVATE` as the source defines
them. -/
def cmpRequeueOp : U32 := 13
def privateFlag : U32 := 128
def cmpRequeuePrivateOp : U32 := cmpRequeueOp ||| privateFlag

/-- Linux compares and requeues for operation 4. Operation 13 is `FUTEX_LOCK_PI2`, which reads the
requeue count as the address of a timeout and fails with `EFAULT`. -/
def kernelRequeues (op : U32) : Bool := op &&& ~~~privateFlag == 4

/-- `futex::requeue(uaddr, uaddr2, count, expected)`, with one thread to wake: the kernel serves it
when it takes the operation for a requeue and finds `expected` in the word. -/
def requeue (uaddr uaddr2 : Addr) (count : ℕ) (read : M → U32) (expected : U32) (after : Th) :
    RequeueCall M Th Addr where
  src := uaddr
  dst := uaddr2
  count := count
  holds mem := kernelRequeues cmpRequeuePrivateOp && read mem == expected
  after := after

/-- No state of the memory makes the kernel serve the operation that is issued. -/
@[simp] theorem requeue_holds (uaddr uaddr2 : Addr) (count : ℕ) (read : M → U32) (expected : U32)
    (after : Th) (mem : M) : (requeue uaddr uaddr2 count read expected after).holds mem = false := by
  have hop : kernelRequeues cmpRequeuePrivateOp = false := by decide
  change (kernelRequeues cmpRequeuePrivateOp && read mem == expected) = false
  rw [hop, Bool.false_and]

end futex
end Psync
