import Psync.RunMachine
import Mathlib.Data.List.Induction
import Mathlib.Data.Nat.Init

/-! Threads over a memory with store buffers. A plain store waits in the buffer of its thread and
reaches memory later, in the order of the buffer; a load reads the buffer of its thread first and then
memory; a locked step waits until the buffer is empty and works on memory.

A thread takes its steps on its `view`, which is memory after everything in its buffer. -/

namespace Concurrency

/-- How an atomic step of the code reaches memory. -/
inductive Access (W : Type*)
  | load
  | store (w : W)
  | locked

/-- What a step that leads from `m` to `m'` may do to memory. -/
def Access.Does {W M : Type*} (apply : W → M → M) (m m' : M) : Access W → Prop
  | .load => m' = m
  | .store w => m' = apply w m
  | .locked => True

/-- Code whose plain stores `W` are buffered. -/
structure TsoProgram (Tid M W Th L : Type*) where
  mem : M
  start : Th
  apply : W → M → M
  step : Tid → L → M → Th → Option (M × Th)
  access : L → Th → Access W
  does : ∀ {t l m th m' th'}, step t l m th = some (m', th') → (access l th).Does apply m m'

/-- Memory, and for each thread the stores that wait, the oldest first, and its position. -/
@[ext] structure TsoConfig (Tid M W Th : Type*) where
  mem : M
  buffer : Tid → List W
  thread : Tid → Th

inductive TsoAct (Tid L : Type*)
  | step (t : Tid) (l : L)
  /-- The oldest store in the buffer of the thread reaches memory. -/
  | drain (t : Tid)

namespace TsoProgram

variable {Tid M W Th L : Type*} (P : TsoProgram Tid M W Th L) {m m' : M} {th : Th} {t u : Tid} {l : L}
  {s s' : TsoConfig Tid M W Th} {w : W} {ws : List W}

def flush (ws : List W) (m : M) : M := ws.foldl (fun m w => P.apply w m) m

/-- What the loads of thread `t` read. -/
def view (s : TsoConfig Tid M W Th) (t : Tid) : M := P.flush (s.buffer t) s.mem

theorem view_of_empty (hempty : s.buffer t = []) : P.view s t = s.mem := by
  rw [view, hempty]
  rfl

theorem flush_concat : P.flush (ws ++ [w]) m = P.apply w (P.flush ws m) := List.foldl_append

/-! ### Cells

A cell is a part of memory that a store replaces or leaves alone. -/

/-- A part of memory with the value that a store gives it, if it does. -/
structure Cell (α : Type*) where
  read : M → α
  sets : W → Option α
  read_apply : ∀ w m, read (P.apply w m) = (sets w).getD (read m)

variable {P} {α : Type*} {c : P.Cell α}

/-- The youngest value for the cell in a buffer. -/
def Cell.pending (c : P.Cell α) (ws : List W) : Option α := (ws.filterMap c.sets).getLast?

/-- A load takes the youngest store in the buffer, and memory where there is none. -/
theorem Cell.read_flush (c : P.Cell α) (ws : List W) (m : M) :
    c.read (P.flush ws m) = (c.pending ws).getD (c.read m) := by
  induction ws using List.reverseRecOn with
  | nil => rfl
  | append_singleton ws w ih =>
      rw [flush_concat, c.read_apply, ih, pending, pending, List.filterMap_append]
      cases hw : c.sets w with
      | none => simp [hw]
      | some a => simp [hw]

theorem Cell.pending_eq_none : c.pending ws = none ↔ ∀ w ∈ ws, c.sets w = none := by
  simp [pending]

/-- Where no store waits for the cell, the thread reads memory. -/
theorem Cell.read_view (h : ∀ w ∈ s.buffer t, c.sets w = none) :
    c.read (P.view s t) = c.read s.mem := by
  rw [view, c.read_flush, Cell.pending_eq_none.mpr h]
  rfl

/-- The cell is read in the same way from any other memory that agrees on it. -/
theorem Cell.read_flush_congr (h : c.read m' = c.read m) : c.read (P.flush ws m') = c.read (P.flush ws m) := by
  rw [c.read_flush, c.read_flush, h]

/-! ### Scripts

The stores of a thread may be known in advance, as a sequence; what waits is a segment of it. -/

variable {f g : ℕ → W} {d n : ℕ}

/-- The stores from number `d` on, up to number `n`. -/
def script (f : ℕ → W) (d n : ℕ) : List W := (List.range' d (n - d)).map f

theorem script_self : script f n n = [] := by rw [script, Nat.sub_self, List.range'_zero, List.map_nil]

theorem script_cons (hlt : d < n) : script f d n = f d :: script f (d + 1) n := by
  rw [script, script, show n - d = n - (d + 1) + 1 by omega, List.range'_succ, List.map_cons]

theorem script_concat (hle : d ≤ n) : script f d (n + 1) = script f d n ++ [f n] := by
  rw [script, script, show n + 1 - d = n - d + 1 by omega, List.range'_1_concat, List.map_append,
    show d + (n - d) = n by omega, List.map_singleton]

theorem script_congr (h : ∀ j, d ≤ j → j < n → f j = g j) : script f d n = script g d n := by
  refine List.map_congr_left fun j hj => ?_
  rw [List.mem_range'_1] at hj
  exact h j hj.1 (by omega)

theorem script_eq_cons (h : script f d n = w :: ws) : d < n ∧ w = f d ∧ ws = script f (d + 1) n := by
  have hlt : d < n := by
    by_contra hle
    rw [script, show n - d = 0 by omega, List.range'_zero] at h
    cases h
  rw [script_cons hlt] at h
  exact ⟨hlt, (List.cons_eq_cons.mp h).1.symm, (List.cons_eq_cons.mp h).2.symm⟩

theorem script_eq_nil (h : script f d n = []) : n ≤ d := by
  rw [script, List.map_eq_nil_iff, List.range'_eq_nil_iff] at h
  exact Nat.sub_eq_zero_iff_le.mp h

/-- What holds of memory after `d` stores holds of the view after `n`. -/
theorem flush_script {I : ℕ → M → Prop} (hle : d ≤ n) (h : I d m)
    (step : ∀ {j m}, d ≤ j → j < n → I j m → I (j + 1) (P.apply (f j) m)) :
    I n (P.flush (script f d n) m) := by
  induction n, hle using Nat.le_induction with
  | base =>
      rw [script_self]
      exact h
  | succ n hle ih =>
      rw [script_concat hle, flush_concat]
      exact step hle (Nat.lt_succ_self n) (ih fun hj hlt => step hj (Nat.lt_succ_of_lt hlt))

/-! ### Interleavings -/

variable (P) [DecidableEq Tid]

/-- The state after a step of thread `t` to `th`. -/
def perform (s : TsoConfig Tid M W Th) (t : Tid) (m : M) (th : Th) :
    Access W → Option (TsoConfig Tid M W Th)
  | .load => some { s with thread := Function.update s.thread t th }
  | .store w => some { s with
      buffer := Function.update s.buffer t (s.buffer t ++ [w])
      thread := Function.update s.thread t th }
  | .locked => if (s.buffer t).isEmpty then
      some { s with mem := m, thread := Function.update s.thread t th } else none

def next (s : TsoConfig Tid M W Th) : TsoAct Tid L → Option (TsoConfig Tid M W Th)
  | .step t l => (P.step t l (P.view s t) (s.thread t)).bind fun r =>
      perform s t r.1 r.2 (P.access l (s.thread t))
  | .drain t => match s.buffer t with
    | [] => none
    | w :: ws => some { s with mem := P.apply w s.mem, buffer := Function.update s.buffer t ws }

/-- The machine of all interleavings of the threads and of their buffers. -/
def machine : Machine (TsoConfig Tid M W Th) (TsoAct Tid L) where
  init := ⟨P.mem, fun _ => [], fun _ => P.start⟩
  next := P.next

/-- What one step can do. -/
inductive Transition (s : TsoConfig Tid M W Th) : TsoAct Tid L → TsoConfig Tid M W Th → Prop
  | load {t : Tid} {l : L} {th : Th} (haccess : P.access l (s.thread t) = .load)
      (hstep : P.step t l (P.view s t) (s.thread t) = some (P.view s t, th)) :
      Transition s (.step t l) { s with thread := Function.update s.thread t th }
  | store {t : Tid} {l : L} {w : W} {th : Th} (haccess : P.access l (s.thread t) = .store w)
      (hstep : P.step t l (P.view s t) (s.thread t) = some (P.apply w (P.view s t), th)) :
      Transition s (.step t l) { s with
        buffer := Function.update s.buffer t (s.buffer t ++ [w])
        thread := Function.update s.thread t th }
  | locked {t : Tid} {l : L} {m : M} {th : Th} (haccess : P.access l (s.thread t) = .locked)
      (hempty : s.buffer t = []) (hstep : P.step t l s.mem (s.thread t) = some (m, th)) :
      Transition s (.step t l) { s with mem := m, thread := Function.update s.thread t th }
  | drain {t : Tid} {w : W} {ws : List W} (hbuffer : s.buffer t = w :: ws) :
      Transition s (.drain t)
        { s with mem := P.apply w s.mem, buffer := Function.update s.buffer t ws }

variable {P}

theorem transition_of_next {a : TsoAct Tid L} (h : P.machine.next s a = some s') :
    P.Transition s a s' := by
  change P.next s a = some s' at h
  cases a with
  | step t l =>
      simp only [next, Option.bind_eq_some_iff] at h
      obtain ⟨⟨m, th⟩, hstep, h⟩ := h
      have hdoes := P.does hstep
      cases haccess : P.access l (s.thread t) with
      | load =>
          rw [haccess] at h hdoes
          cases h
          cases hdoes
          exact .load haccess hstep
      | store w =>
          rw [haccess] at h hdoes
          cases h
          cases hdoes
          exact .store haccess hstep
      | locked =>
          rw [haccess, perform] at h
          split_ifs at h with hbuffer
          cases h
          have hempty := List.isEmpty_iff.mp hbuffer
          rw [P.view_of_empty hempty] at hstep
          exact .locked haccess hempty hstep
  | drain t =>
      rw [next] at h
      split at h
      · cases h
      · rename_i hbuffer
        cases h
        exact .drain hbuffer

/-- A thread takes its steps on its view. -/
theorem Transition.of_step (h : P.Transition s (.step t l) s') :
    P.step t l (P.view s t) (s.thread t) = some (P.view s' t, s'.thread t) := by
  cases h with
  | load haccess hstep =>
      simp only [view, Function.update_self] at hstep ⊢
      exact hstep
  | store haccess hstep =>
      simp only [view, Function.update_self, flush_concat] at hstep ⊢
      exact hstep
  | locked haccess hempty hstep =>
      rw [P.view_of_empty hempty, hstep]
      simp only [view, Function.update_self, hempty]
      rfl

/-- The other threads keep their positions and their buffers. -/
theorem Transition.others (h : P.Transition s (.step t l) s') {u : Tid} (hu : u ≠ t) :
    s'.thread u = s.thread u ∧ s'.buffer u = s.buffer u := by
  cases h with
  | load | locked => exact ⟨Function.update_of_ne hu .., rfl⟩
  | store => exact ⟨Function.update_of_ne hu .., Function.update_of_ne hu ..⟩

/-- A store that reaches memory was in the view of its thread before. -/
theorem view_drain (hbuffer : s.buffer t = w :: ws) :
    P.view { s with mem := P.apply w s.mem, buffer := Function.update s.buffer t ws } t = P.view s t := by
  rw [view, view, hbuffer]
  change P.flush (Function.update s.buffer t ws t) _ = _
  rw [Function.update_self]
  rfl

end TsoProgram
end Concurrency
