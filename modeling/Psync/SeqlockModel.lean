import Psync.Platform

/-! The sequence lock: `write_begin` and `write_end` around a write, `read_begin` and `read_retry`
around an attempt to read, and the two callers of the latter, `read_transaction` and
`SeqLockReadGuard`. The protected data is a family of words, and a reader loads them one by one. -/

namespace Psync.SeqLock

open Concurrency

variable {Tid ι V : Type*}

structure Mem (ι V : Type*) where
  sequence : U32
  words : ι → V

inductive Reader
  | transaction
  | guard
  deriving DecidableEq

/-- The next atomic step of a thread. An attempt to read has its number from `read_begin` and the
words it has loaded since. -/
inductive Pc (ι V : Type*)
  | idle
  /-- The `fetch_add` of `write_begin`. -/
  | writeBegin
  /-- Between `write_begin` and `write_end`. -/
  | writing
  /-- The `fetch_add` of `write_end`. -/
  | writeEnd
  /-- The load in the loop of `read_begin`. -/
  | readBegin (reader : Reader)
  | reading (reader : Reader) (seq : U32) (log : List (ι × V))
  /-- The load of `read_retry`. -/
  | readRetry (reader : Reader) (seq : U32) (log : List (ι × V))
  /-- `read_transaction` has returned what its function made of the words in `log`. -/
  | returned (log : List (ι × V))
  /-- `retry` has returned `result` to the owner of the guard. -/
  | retried (seq : U32) (log : List (ι × V)) (result : Bool)
  deriving DecidableEq

inductive Label (ι V : Type*)
  | writeBegin
  | store (i : ι) (v : V)
  | writeEnd
  | readTransaction
  | readGuard
  | load (i : ι)
  /-- The function of a transaction has returned, or the owner of a guard calls `retry`. -/
  | readRetry
  | restart
  /-- The guard is destroyed. -/
  | leave
  | run

/-- Where the result of `read_retry` goes: a transaction returns or begins anew, and `retry` hands it to
the owner of the guard. -/
def afterRetry (reader : Reader) (seq : U32) (log : List (ι × V)) (result : Bool) : Pc ι V :=
  match reader with
  | .transaction => if result then .readBegin .transaction else .returned log
  | .guard => .retried seq log result

/-- One atomic step inside a call. -/
def run (m : Mem ι V) : Pc ι V → Option (Mem ι V × Pc ι V)
  | .writeBegin => some ({ m with sequence := m.sequence + 1 }, .writing)
  | .writeEnd => some ({ m with sequence := m.sequence + 1 }, .idle)
  | .readBegin reader => some (m,
      if m.sequence &&& 1 = 0 then .reading reader m.sequence [] else .readBegin reader)
  | .readRetry reader seq log => some (m, afterRetry reader seq log (m.sequence != seq))
  | .returned _ => some (m, .idle)
  | .retried seq log _ => some (m, .reading .guard seq log)
  | .idle | .writing | .reading .. => none

variable [DecidableEq ι]

def step (l : Label ι V) (m : Mem ι V) (pc : Pc ι V) : Option (Mem ι V × Pc ι V) :=
  match l, pc with
  | .writeBegin, .idle => some (m, .writeBegin)
  | .store i v, .writing => some ({ m with words := Function.update m.words i v }, .writing)
  | .writeEnd, .writing => some (m, .writeEnd)
  | .readTransaction, .idle => some (m, .readBegin .transaction)
  | .readGuard, .idle => some (m, .readBegin .guard)
  | .load i, .reading reader seq log => some (m, .reading reader seq (log ++ [(i, m.words i)]))
  | .readRetry, .reading reader seq log => some (m, .readRetry reader seq log)
  | .restart, .reading .guard _ _ => some (m, .readBegin .guard)
  | .leave, .reading .guard _ _ => some (m, .idle)
  | .run, pc => run m pc
  | _, _ => none

/-- The threads on one lock that protects the words `data`. -/
def program (Tid : Type*) (data : ι → V) : Program Tid (Mem ι V) (Pc ι V) Empty (Label ι V) where
  mem := ⟨0, data⟩
  start := .idle
  step _ := step

/-! ### Runs -/

/-- The thread has called `write_begin` and not returned from `write_end`. -/
def Pc.writer : Pc ι V → Bool
  | .writeBegin | .writing | .writeEnd => true
  | _ => false

/-- A write is in progress: between its two `fetch_add`. -/
def Pc.midWrite : Pc ι V → Bool
  | .writing | .writeEnd => true
  | _ => false

/-- The writes are serialized by their callers. -/
def serialized : StepCond (Config Tid (Mem ι V) (Pc ι V) Empty) (Act Tid (Label ι V)) :=
  fun s a _ => match a with
    | .step _ .writeBegin => ∀ u, (s.thread u).writer = false
    | _ => True

instance [Fintype Tid] (s : Config Tid (Mem ι V) (Pc ι V) Empty) (a : Act Tid (Label ι V))
    (s' : Config Tid (Mem ι V) (Pc ι V) Empty) : Decidable (serialized s a s') :=
  match a with
  | .step _ .writeBegin => inferInstanceAs (Decidable (∀ u, (s.thread u).writer = false))
  | .step _ (.store ..) | .step _ .writeEnd | .step _ .readTransaction | .step _ .readGuard =>
      .isTrue trivial
  | .step _ (.load _) | .step _ .readRetry | .step _ .restart | .step _ .leave | .step _ .run =>
      .isTrue trivial
  | .sleep _ | .ret _ | .wake .. | .requeue .. => .isTrue trivial

/-- What has happened: how many writes are complete, and how many were when a thread began its last
attempt to read. -/
structure History (Tid : Type*) where
  completed : ℕ
  began : Tid → ℕ

variable [DecidableEq Tid]

def record (h : History Tid) (s : Config Tid (Mem ι V) (Pc ι V) Empty) (a : Act Tid (Label ι V))
    (s' : Config Tid (Mem ι V) (Pc ι V) Empty) : History Tid :=
  match a with
  | .step t .run => match s.thread t, s'.thread t with
      | .writeEnd, _ => { h with completed := h.completed + 1 }
      | .readBegin _, .reading .. => { h with began := Function.update h.began t h.completed }
      | _, _ => h
  | _ => h

/-- The machine with its history. -/
def machine [Fintype Tid] (data : ι → V) :
    Machine (Config Tid (Mem ι V) (Pc ι V) Empty × History Tid) (Act Tid (Label ι V)) :=
  (program Tid data).machine.observe ⟨0, fun _ => 0⟩ record

/-- The words of an attempt that has been accepted: `read_transaction` has returned, or `retry` has
answered `false`. -/
def Pc.accepted : Pc ι V → Option (List (ι × V))
  | .returned log | .retried _ log false => some log
  | _ => none

/-- Only the load of `read_retry` accepts, when it finds the sequence that the attempt began with. -/
theorem readRetry_of_accepted {l : Label ι V} {m m' : Mem ι V} {pc pc' : Pc ι V} {log : List (ι × V)}
    (hstep : step l m pc = some (m', pc')) (haccept : pc'.accepted = some log) :
    ∃ reader, pc = .readRetry reader m.sequence log := by
  cases l with
  | run =>
      cases pc with
      | readRetry reader seq words =>
          rw [step, run, Option.some.injEq, Prod.mk.injEq] at hstep
          rw [← hstep.2] at haccept
          by_cases hsame : m.sequence = seq
          · rw [bne_eq_false_iff_eq.mpr hsame] at haccept
            rw [hsame]
            cases reader <;> cases haccept <;> exact ⟨_, rfl⟩
          · rw [bne_iff_ne.mpr hsame] at haccept
            cases reader <;> cases haccept
      | readBegin reader =>
          rw [step, run, Option.some.injEq, Prod.mk.injEq] at hstep
          rw [← hstep.2] at haccept
          split_ifs at haccept <;> cases haccept
      | idle | writing | reading => cases hstep
      | writeBegin | writeEnd | returned | retried =>
          cases hstep
          cases haccept
  | restart | leave =>
      cases pc with
      | reading reader seq words =>
          cases reader
          · cases hstep
          · cases hstep
            cases haccept
      | _ => cases hstep
  | _ =>
      cases pc <;> cases hstep
      cases haccept

end Psync.SeqLock
