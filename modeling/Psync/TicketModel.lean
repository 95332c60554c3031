import Psync.Platform

/-! The ticket lock: `lock`, `try_lock` and `unlock` on the counter that draws the tickets and the one
that serves them. -/

namespace Psync.TicketLock

open Concurrency

variable {Tid : Type*}

structure Mem where
  nowServing : U32
  nextTicket : U32
  deriving DecidableEq

/-- The next atomic step of a thread. -/
inductive Pc
  /-- Outside every call. -/
  | idle
  /-- `lock`: the `fetch_add`. -/
  | draw
  /-- `lock`: the load in the loop. -/
  | spin (myTicket : U32)
  /-- `try_lock`: the load of `now_serving_`. -/
  | tryServing
  /-- `try_lock`: the load of `next_ticket_`. -/
  | tryNext (serving : U32)
  /-- `try_lock`: the CAS on `next_ticket_`. -/
  | tryCas (serving : U32)
  /-- `try_lock` has returned `result`. -/
  | tried (result : Bool)
  /-- `unlock`: the `fetch_add`. -/
  | unlock
  deriving DecidableEq

/-- A thread: whether it holds the lock, and where it is. It holds the lock until the `fetch_add` of
`unlock`. -/
structure Thread where
  held : Bool
  pc : Pc
  deriving DecidableEq

def Thread.at (th : Thread) (pc : Pc) : Thread := { th with pc := pc }

inductive Label
  | lock
  | tryLock
  | unlock
  | run
  deriving DecidableEq

/-- One atomic step of the code. -/
def run (m : Mem) (th : Thread) : Option (Mem × Thread) :=
  match th.pc with
  | .idle => none
  | .draw => some ({ m with nextTicket := m.nextTicket + 1 }, th.at (.spin m.nextTicket))
  | .spin myTicket => some (m, if m.nowServing = myTicket then ⟨true, .idle⟩ else th)
  | .tryServing => some (m, th.at (.tryNext m.nowServing))
  | .tryNext serving => some (m, th.at (if serving = m.nextTicket then .tryCas serving else .tried false))
  | .tryCas serving => some (
      if m.nextTicket = serving then ({ m with nextTicket := serving + 1 }, ⟨true, .tried true⟩)
      else (m, th.at (.tried false)))
  | .tried _ => some (m, th.at .idle)
  | .unlock => some ({ m with nowServing := m.nowServing + 1 }, ⟨false, .idle⟩)

/-- A client begins a call only outside every call, and `unlock` only while it holds the lock. -/
def step (l : Label) (m : Mem) (th : Thread) : Option (Mem × Thread) :=
  match l with
  | .lock => if th.pc = .idle then some (m, th.at .draw) else none
  | .tryLock => if th.pc = .idle then some (m, th.at .tryServing) else none
  | .unlock => if th.pc = .idle ∧ th.held = true then some (m, th.at .unlock) else none
  | .run => run m th

def program (Tid : Type*) : Program Tid Mem Thread Empty Label where
  mem := ⟨0, 0⟩
  start := ⟨false, .idle⟩
  step _ := step

abbrev State (Tid : Type*) := Config Tid Mem Thread Empty

/-- The thread has drawn a ticket in `lock` and waits for it to be served. -/
def Thread.waiting (th : Thread) : Bool :=
  match th.pc with
  | .spin _ => true
  | _ => false

/-- The thread is inside `try_lock`, before its result is known. -/
def Thread.trying (th : Thread) : Bool :=
  match th.pc with
  | .tryServing | .tryNext _ | .tryCas _ => true
  | _ => false

/-- The number of threads that hold the lock or wait for it. -/
def queued [Fintype Tid] (s : State Tid) : ℕ := count (fun th => th.held || th.waiting) s.thread

/-- The number of tickets that are held or waited for. It is the number of threads unless the holder
itself calls `lock` again and waits for ever. -/
def outstanding [Fintype Tid] (s : State Tid) : ℕ :=
  count Thread.held s.thread + count Thread.waiting s.thread

/-- Who has drawn a ticket and who has been granted the lock, in order; the number of tickets served;
the number of the ticket that a thread has drawn in `lock`, and how many had been drawn when it began
its `try_lock`. -/
structure History (Tid : Type*) where
  drawn : List Tid
  granted : List Tid
  served : ℕ
  ticket : Tid → ℕ
  began : Tid → ℕ

def History.init : History Tid := ⟨[], [], 0, fun _ => 0, fun _ => 0⟩

/-- A ticket is drawn by the `fetch_add` of `lock` and by the successful CAS of `try_lock`; the lock is
granted by the load of `lock` that finds its ticket served, and by that CAS. -/
def History.step [DecidableEq Tid] (h : History Tid) (t : Tid) (l : Label) (m : Mem) (th : Thread) :
    History Tid :=
  match l, th.pc with
  | .tryLock, _ => { h with began := Function.update h.began t h.drawn.length }
  | .run, .draw => { h with
      drawn := h.drawn ++ [t]
      ticket := Function.update h.ticket t h.drawn.length }
  | .run, .spin myTicket => if m.nowServing = myTicket then { h with granted := h.granted ++ [t] } else h
  | .run, .tryCas serving => if m.nextTicket = serving then
      { h with drawn := h.drawn ++ [t], granted := h.granted ++ [t] } else h
  | .run, .unlock => { h with served := h.served + 1 }
  | _, _ => h

def record [DecidableEq Tid] (h : History Tid) (s : State Tid) (a : Act Tid Label) (_ : State Tid) :
    History Tid :=
  match a with
  | .step t l => h.step t l s.mem (s.thread t)
  | _ => h

def observed (Tid : Type*) [Fintype Tid] [DecidableEq Tid] :
    Machine (State Tid × History Tid) (Act Tid Label) :=
  (program Tid).machine.observe .init record

/-- Fewer than `2 ^ 31` threads hold the lock or wait for it at once, and fewer than `2 ^ 31` tickets are
drawn while a thread is inside `try_lock`. -/
def Bounded [Fintype Tid] (x : State Tid × History Tid) : Prop :=
  queued x.1 < 2 ^ 31 ∧
    ∀ t, (x.1.thread t).trying = true → x.2.drawn.length < x.2.began t + 2 ^ 31

instance [Fintype Tid] (x : State Tid × History Tid) : Decidable (Bounded x) := instDecidableAnd

def few [Fintype Tid] : StepCond (State Tid × History Tid) (Act Tid Label) := fun _ _ x => Bounded x

instance [Fintype Tid] (x : State Tid × History Tid) (a : Act Tid Label) (x' : State Tid × History Tid) :
    Decidable (few x a x') :=
  inferInstanceAs (Decidable (Bounded x'))

end Psync.TicketLock
