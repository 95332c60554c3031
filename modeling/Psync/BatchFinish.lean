import Psync.MicrolockGrant
import Psync.SharedGrant

/-! Batches come to an end under every lock of the library. -/

namespace Psync.Batch

open Concurrency LockCode

set_option linter.unusedSectionVars false

variable {Tid : Type*} [DecidableEq Tid] [Fintype Tid]

/-- From every state of batches with the guard, by the code of those that have begun, all of them come to an
end, once each, whatever their functions do to the data as long as they end when they run alone. -/
def Finishes {M Th Addr L : Type*} [DecidableEq Addr] (C : LockCode Tid M Th Addr L Unit) : Prop :=
  ∀ (K X : Type) (func : K × X → Option (K × X)) (x : X) (w : State Tid M Th Addr Unit K X),
    Terminates (fun _ : Unit => func) → (C.observed (fun _ => func) x).Reachable anyStep w →
      ∃ w', (C.observed (fun _ => func) x).Leads (onwardBatches C (fun _ => func) x) w w' ∧ Ended w w'

/-- **`batch_execute` never deadlocks** on an exclusive lock. -/
theorem batch_execute_finishes (hcard : Fintype.card Tid < 2 ^ 31) (this : U64) :
    Finishes (mutexGuard Tid) ∧ Finishes (spinLockGuard Tid) ∧ Finishes (ticketLockGuard Tid) ∧
      Finishes (microLockGuard Tid this) :=
  ⟨fun _ _ _ _ _ => (mutexGuard_lawful hcard).finishes (mutexGuard_finishing hcard),
    fun _ _ _ _ _ => spinLockGuard_lawful.finishes spinLockGuard_finishing,
    fun _ _ _ _ _ => (ticketLockGuard_lawful hcard).finishes (ticketLockGuard_finishing hcard),
    fun _ _ _ _ _ => microLockGuard_lawful.finishes microLockGuard_finishing⟩

theorem addAll_terminates : Terminates fun _ : Unit => addAll := by
  rintro mode ⟨ns, x⟩
  induction ns generalizing x with
  | nil => exact ⟨_, .refl, rfl⟩
  | cons n ns ih =>
      obtain ⟨q, halone, hend⟩ := ih (x + n)
      exact ⟨q, .head rfl halone, hend⟩

/-- While `a` is inside the mutex with a batch, `b` sleeps in `lock` with another one. -/
theorem batch_execute_finishes_asleep : ∃ w w' : State Runner U32 Mutex.Thread Unit Unit (List ℕ) ℕ,
    w.1.asleep .b = some () ∧ (w.1.thread .a).stage = .inside () [1, 2] [1, 2] ∧
      ((mutexGuard Runner).observed (fun _ => addAll) 0).Leads
        (onwardBatches (mutexGuard Runner) (fun _ => addAll) 0) w w' ∧ Ended w w' := by
  let run : List (Act Runner (BatchLabel Unit (List ℕ))) := [.step .a (.batch () [1, 2]), .step .a .run,
    .step .a .run, .step .b (.batch () [4])] ++ List.replicate 73 (.step .b .run) ++ [.sleep .b]
  let M := (mutexGuard Runner).observed (fun _ => addAll) 0
  let w := (M.run anyStep M.init run).get (by decide)
  obtain ⟨w', hleads, hended⟩ := (@batch_execute_finishes Runner _ _ (by decide) 0).1 _ _ addAll 0 w
    addAll_terminates (.of_run run (by decide))
  exact ⟨w, w', by decide, by decide, hleads, hended⟩

/-- **Batches on a `SharedMutex` never deadlock**, those that read beside those that write. -/
theorem shared_batches_finish {K X : Type*} {func : SharedMode → K × X → Option (K × X)} {x : X}
    {w : SharedState Tid K X} (hcard : Fintype.card Tid ≤ SharedMutex.maxWaitingWriters)
    (hends : Terminates func) (h : ((sharedMutexGuard Tid).observed func x).Reachable anyStep w) :
    ∃ w', ((sharedMutexGuard Tid).observed func x).Leads (onwardBatches (sharedMutexGuard Tid) func x) w w' ∧
      Ended w w' :=
  sharedMutexGuard_lawful.finishes (sharedMutexGuard_finishing hcard) hends h

/-- A batch that reads takes what it finds. -/
def readOnce : SharedMode → List ℕ × ℕ → Option (List ℕ × ℕ)
  | .exclusive, p => addAll p
  | .shared, ([], x) => some ([x], x)
  | .shared, _ => none

theorem readOnce_terminates : Terminates readOnce := by
  rintro (_ | _) ⟨ns, x⟩
  · exact addAll_terminates () (ns, x)
  · cases ns with
    | nil => exact ⟨([x], x), .single rfl, rfl⟩
    | cons n ns => exact ⟨_, .refl, rfl⟩

/-- While `a` reads, `b` sleeps with a batch that writes, and `c` behind it with one that reads. -/
theorem shared_batches_finish_asleep : ∃ w w' : SharedState Runner (List ℕ) ℕ,
    (w.1.thread .a).stage = .inside .shared [] [0] ∧ w.1.asleep .b = some () ∧ w.1.asleep .c = some () ∧
      ((sharedMutexGuard Runner).observed readOnce 0).Leads (onwardBatches (sharedMutexGuard Runner) readOnce 0)
        w w' ∧ Ended w w' := by
  let run : List (Act Runner (BatchLabel SharedMode (List ℕ))) := [.step .a (.batch .shared [])] ++
    List.replicate 4 (.step .a .run) ++ [.step .b (.batch .exclusive [4])] ++ List.replicate 6 (.step .b .run) ++
    [.sleep .b, .step .c (.batch .shared [])] ++ List.replicate 5 (.step .c .run) ++ [.sleep .c]
  let M := (sharedMutexGuard Runner).observed readOnce 0
  let w := (M.run anyStep M.init run).get (by decide)
  obtain ⟨w', hleads, hended⟩ := shared_batches_finish (by decide) readOnce_terminates
    (.of_run run (by decide) : M.Reachable anyStep w)
  exact ⟨w, w', by decide, by decide, by decide, hleads, hended⟩

end Psync.Batch
