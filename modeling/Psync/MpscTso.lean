import Psync.MpscFifo
import Psync.RunSimulation
import Psync.RunTso

/-! The open queue on a processor with store buffers (x86-TSO). The CAS on `head_` and both steps on
`size_approx_` are locked; the stores to the slots are plain and may wait.

A run is followed by one without buffers, which makes the stores of the data at once and those of the sequences
when they reach memory. `tail_` belongs to the consumer alone, and so its value is kept with the threads. -/

namespace Psync.MPSCQueue

open Concurrency MachineWord

set_option linter.unusedSectionVars false

variable {V Tid : Type*}

/-- What the threads share. -/
structure Shared (V : Type*) where
  head : U64
  closed : Bool
  sizeApprox : U64
  buffer : U64 → Slot V

def Shared.at (m : Shared V) (tail : U64) : Mem V := ⟨m.head, tail, m.closed, m.sizeApprox, m.buffer⟩

def Mem.shared (m : Mem V) : Shared V := ⟨m.head, m.closed, m.sizeApprox, m.buffer⟩

/-- A thread, and its `tail_` if it is the consumer. -/
structure Worker (V : Type*) where
  tail : U64
  pc : Pc V

/-- A plain store. -/
inductive Write (V : Type*)
  | data (i : U64) (d : Option V)
  | sequence (i v : U64)
  | close

def Write.apply (mask : U64) (w : Write V) (m : Shared V) : Shared V :=
  match w with
  | .data i d => ((m.at 0).setData mask i d).shared
  | .sequence i v => ((m.at 0).setSequence mask i v).shared
  | .close => { m with closed := true }

def Pc.access (mask : U64) : Pc V → Access (Write V)
  | .pushCas .. | .pushSize _ | .popSize .. => .locked
  | .pushRevert _ head => .store (.sequence head head)
  | .pushData c head => .store (.data head (some c.value))
  | .pushPublish _ head => .store (.sequence head (head + 1))
  | .popData _ tail => .store (.data tail none)
  | .popRecycle _ tail _ => .store (.sequence tail (tail + mask + 1))
  | .close => .store .close
  | _ => .load

def access (mask : U64) (l : Label V) (th : Worker V) : Access (Write V) :=
  match l with
  | .run => th.pc.access mask
  | .spurious => .locked
  | _ => .load

/-- A step of the code, with `tail_` where it is. -/
def stepTso (mask : U64) (isConsumer : Bool) (l : Label V) (m : Shared V) (th : Worker V) :
    Option (Shared V × Worker V) :=
  (step mask isConsumer l (m.at th.tail) th.pc).map fun r => (r.1.shared, ⟨r.1.tail, r.2⟩)

section Steps

variable {mask : U64} {isConsumer : Bool} {l : Label V} {m m' : Mem V} {pc pc' : Pc V}

/-- The steps that are no stores leave all but `tail_`. -/
theorem step_shared (hstep : step mask isConsumer l m pc = some (m', pc'))
    (hload : access mask l (⟨0, pc⟩ : Worker V) = .load) : m'.shared = m.shared := by
  have hstart : ∀ {first : Pc V}, start m first pc = some (m', pc') → m'.shared = m.shared := by
    intro first hs
    cases pc <;> cases hs
    rfl
  cases l with
  | tryPush value => exact hstart hstep
  | pushBlocking value => exact hstart hstep
  | close => exact hstart hstep
  | spurious => cases hload
  | tryPop | popBlocking =>
      simp only [step] at hstep
      split_ifs at hstep
      exact hstart hstep
  | run =>
      cases pc with
      | idle => cases hstep
      | pushCas | pushSize | popSize | pushRevert | pushData | pushPublish | popData | popRecycle | close =>
          cases hload
      | popSeq mode =>
          rw [step, run, Option.some.injEq] at hstep
          split_ifs at hstep <;> cases hstep <;> rfl
      | _ =>
          cases hstep
          rfl

end Steps

theorem stepTso_does {mask : U64} {isConsumer : Bool} {l : Label V} {m m' : Shared V} {th th' : Worker V}
    (h : stepTso mask isConsumer l m th = some (m', th')) : (access mask l th).Does (Write.apply mask) m m' := by
  obtain ⟨⟨n, pc'⟩, hstep, heq⟩ := Option.map_eq_some_iff.mp h
  obtain ⟨rfl, rfl⟩ := Prod.mk.inj heq
  obtain ⟨tail, pc⟩ := th
  cases haccess : access mask l ⟨tail, pc⟩ with
  | load => exact step_shared hstep haccess
  | locked => trivial
  | store w =>
      cases l with
      | run =>
          cases pc <;> cases haccess <;> cases hstep <;> rfl
      | _ => cases haccess

variable [DecidableEq Tid]

/-- The threads on one queue, with their store buffers. -/
def buffered (V : Type*) (capacity : U64) (consumer : Tid) :
    TsoProgram Tid (Shared V) (Write V) (Worker V) (Label V) where
  mem := (Mem.init : Mem V).shared
  start := ⟨0, .idle⟩
  apply := Write.apply (maskOf capacity)
  step t := stepTso (maskOf capacity) (t == consumer)
  access := access (maskOf capacity)
  does := stepTso_does

abbrev TsoState (V Tid : Type*) := TsoConfig Tid (Shared V) (Write V) (Worker V)

/-- The two stores to a sequence take effect when they reach memory, all other steps at once. -/
def recordTso (capacity : U64) (consumer : Tid) (h : History V Tid) (s : TsoState V Tid)
    (a : TsoAct Tid (Label V)) (s' : TsoState V Tid) : History V Tid :=
  match a with
  | .step t l => match (s.thread t).pc with
    | .pushPublish .. | .popRecycle .. => h
    | pc => h.step (maskOf capacity) t l (((buffered V capacity consumer).view s t).at (s.thread t).tail) pc
        (s'.thread t).pc
  | .drain t => match s.buffer t, (s.thread t).pc with
    | .sequence .. :: _, .pushSize _ => h.mark t .published
    | .sequence .. :: _, .popSize .. => { h with recycled := h.recycled + 1 }
    | _, _ => h

/-- The runs of the queue with their history. -/
def observedTso (V : Type*) (capacity : U64) (consumer : Tid) :
    Machine (TsoState V Tid × History V Tid) (TsoAct Tid (Label V)) :=
  (buffered V capacity consumer).machine.observe .init (recordTso capacity consumer)

/-- The queue is never closed, and fewer than `2 ^ 62` positions are claimed. -/
def openBoundedTso : StepCond (TsoState V Tid × History V Tid) (TsoAct Tid (Label V)) := fun _ a w =>
  (match a with
    | .step _ l => l.closes = false
    | .drain _ => True) ∧ w.2.claimed.length < 2 ^ 62

instance (w : TsoState V Tid × History V Tid) (a : TsoAct Tid (Label V)) (w' : TsoState V Tid × History V Tid) :
    Decidable (openBoundedTso w a w') :=
  match a with
  | .step _ l => inferInstanceAs (Decidable (l.closes = false ∧ w'.2.claimed.length < 2 ^ 62))
  | .drain _ => inferInstanceAs (Decidable (True ∧ w'.2.claimed.length < 2 ^ 62))

/-! ### Lagging behind -/

/-- The store to a sequence with which a thread gives its slot away, and where it leads. -/
def Pc.release (mask : U64) : Pc V → Option (U64 × U64 × Pc V)
  | .pushPublish c head => some (head, head + 1, .pushSize c)
  | .popRecycle mode tail result => some (tail, tail + mask + 1, .popSize mode result)
  | _ => none

/-- What waits in the buffer of a thread, where it is, and where it is without buffers. -/
inductive Lag (mask : U64) : List (Write V) → Pc V → Pc V → Prop
  | same (pc : Pc V) : Lag mask [] pc pc
  | held {ws : List (Write V)} {pc pc' : Pc V} {i v : U64} (hpc : pc.release mask = some (i, v, pc'))
      (hws : ∀ w ∈ ws, ∃ d, w = .data i d) : Lag mask ws pc pc
  | late {ws : List (Write V)} {pc pc' : Pc V} {i v : U64} (hpc : pc.release mask = some (i, v, pc'))
      (hws : ∀ w ∈ ws, ∃ d, w = .data i d) : Lag mask (ws ++ [.sequence i v]) pc' pc

/-- Memory with `tail_` and with the data of the slots. -/
def Shared.join (m : Shared V) (tail : U64) (d : U64 → Option V) : Mem V :=
  ⟨m.head, tail, m.closed, m.sizeApprox, fun i => ⟨(m.buffer i).sequence, d i⟩⟩

/-- The run without buffers has the same memory, but for the data `d` of the slots: there the stores that wait
have been made. -/
structure Follows (mask : U64) (consumer : Tid) (d : U64 → Option V) (s : TsoState V Tid) (c : State V Tid) :
    Prop where
  awake : ∀ t, c.asleep t = none
  mem : c.mem = s.mem.join (s.thread consumer).tail d
  lag : ∀ t, Lag mask (s.buffer t) (s.thread t).pc (c.thread t)
  pending : ∀ t i v, .data i v ∈ s.buffer t → d (i &&& mask) = v
  settled : ∀ i, (∀ t j v, .data j v ∈ s.buffer t → j &&& mask ≠ i) → d i = (s.mem.buffer i).data

variable {mask : U64} {isConsumer : Bool} {consumer t u : Tid} {l : Label V} {m : Shared V} {n : Mem V}
  {tail x i v : U64} {d : U64 → Option V} {pc pc' pc₀ : Pc V} {ws : List (Write V)} {w : Write V}
  {s s' : TsoState V Tid} {c : State V Tid} {h : History V Tid}

theorem run_of_release (hpc : pc.release mask = some (i, v, pc')) (n : Mem V) :
    run mask n pc = some (n.setSequence mask i v, pc') := by
  cases pc <;> cases hpc <;> rfl

theorem holds_of_release (hpc : pc.release mask = some (i, v, pc')) : pc.holds mask = some (i &&& mask) := by
  cases pc <;> cases hpc <;> rfl

theorem access_of_release (hpc : pc.release mask = some (i, v, pc')) :
    pc.access mask = .store (.sequence i v) ∧ pc'.access mask = .locked := by
  cases pc <;> cases hpc <;> exact ⟨rfl, rfl⟩

namespace Lag

theorem eq_of_empty (hlag : Lag mask [] pc pc₀) : pc₀ = pc := by
  generalize hws : [] = ws at hlag
  cases hlag with
  | same | held => rfl
  | late => exact absurd hws.symm (List.concat_ne_nil _ _)

/-- A store to data that waits goes to the slot that the thread still has without buffers. -/
theorem holds (hlag : Lag mask ws pc pc₀) {d : Option V} (hmem : .data i d ∈ ws) :
    pc₀.holds mask = some (i &&& mask) := by
  cases hlag with
  | same => cases hmem
  | held hpc hws =>
      obtain ⟨_, heq⟩ := hws _ hmem
      cases heq
      exact holds_of_release hpc
  | late hpc hws =>
      rcases List.mem_append.mp hmem with hmem | hmem
      · obtain ⟨_, heq⟩ := hws _ hmem
        cases heq
        exact holds_of_release hpc
      · cases List.mem_singleton.mp hmem

/-- Threads that are not around the store to a sequence are where they are without buffers. -/
theorem eq_of_release (hlag : Lag mask ws pc pc₀) (hrelease : pc₀.release mask = none) : pc₀ = pc := by
  cases hlag with
  | same | held => rfl
  | late hpc =>
      rw [hrelease] at hpc
      cases hpc

theorem eq_of_holds (hlag : Lag mask ws pc pc₀) (hholds : pc.holds mask = some i) : pc₀ = pc := by
  cases hlag with
  | same | held => rfl
  | late hpc => cases pc₀ <;> cases hpc <;> cases hholds

/-- The oldest store of a thread: to the data, or the one with which it catches up. -/
theorem drain (hlag : Lag mask (w :: ws) pc pc₀) : (∃ i d, w = .data i d ∧ Lag mask ws pc pc₀) ∨
    ∃ i v, w = .sequence i v ∧ ws = [] ∧ pc₀.release mask = some (i, v, pc) := by
  generalize hall : w :: ws = all at hlag
  cases hlag with
  | same => cases hall
  | held hpc hws =>
      subst hall
      obtain ⟨⟨d, rfl⟩, hrest⟩ := List.forall_mem_cons.mp hws
      exact Or.inl ⟨_, d, rfl, .held hpc hrest⟩
  | @late ws' _ _ i v hpc hws =>
      cases ws' with
      | nil =>
          cases hall
          exact Or.inr ⟨i, v, rfl, rfl, hpc⟩
      | cons w' ws' =>
          cases hall
          obtain ⟨⟨d, rfl⟩, hrest⟩ := List.forall_mem_cons.mp hws
          exact Or.inl ⟨i, d, rfl, .late hpc hrest⟩

theorem item_eq (hlag : Lag mask ws pc pc₀) : pc₀.item = pc.item := by
  cases hlag with
  | same | held => rfl
  | late hpc => cases pc₀ <;> cases hpc <;> rfl

/-- Only around the store to a sequence does anything wait. -/
theorem empty (hlag : Lag mask ws pc pc₀) (hrelease : pc.release mask = none)
    (hlocked : pc.access mask ≠ .locked) : ws = [] ∧ pc₀ = pc := by
  cases hlag with
  | same => exact ⟨rfl, rfl⟩
  | held hpc hws =>
      rw [hrelease] at hpc
      cases hpc
  | late hpc hws => exact absurd (access_of_release hpc).2 hlocked

end Lag

/-! ### A step on both memories -/

theorem access_of_load {r : Mem V × Pc V} (hstep : step mask isConsumer l n pc = some r)
    (hload : access mask l ⟨tail, pc⟩ = .load) : pc.access mask = .load := by
  have hstart : ∀ {first : Pc V}, start n first pc = some r → pc.access mask = .load := by
    intro first hs
    cases pc <;> cases hs
    rfl
  cases l with
  | tryPush | pushBlocking | close => exact hstart hstep
  | tryPop | popBlocking =>
      simp only [step] at hstep
      split_ifs at hstep
      exact hstart hstep
  | run => exact hload
  | spurious => cases hload

theorem not_store {acc : Access (Write V)} (hacc : acc = .load ∨ acc = .locked) (w : Write V) : acc ≠ .store w := by
  rintro rfl
  rcases hacc with hacc | hacc <;> cases hacc

theorem release_of_step {r : Mem V × Pc V} (hstep : step mask isConsumer l n pc = some r)
    (hstore : ∀ w, access mask l ⟨tail, pc⟩ ≠ .store w) : pc.release mask = none := by
  cases hrelease : pc.release mask with
  | none => rfl
  | some r =>
      obtain ⟨i, v, pc'⟩ := r
      have hrun := (access_of_release hrelease).1
      cases l with
      | run => exact absurd hrun (hstore _)
      | tryPop | popBlocking =>
          simp only [step] at hstep
          split_ifs at hstep
          cases pc <;> cases hstep
          cases hrelease
      | _ =>
          cases pc <;> cases hstep
          cases hrelease

/-- A step that stores nothing does the same whatever the data are, and `tail_` matters to the consumer only. -/
theorem step_join (hstep : step mask isConsumer l (m.at tail) pc = some (n, pc'))
    (hstore : ∀ w, access mask l ⟨tail, pc⟩ ≠ .store w) (hx : pc.popping = true → x = tail) (d : U64 → Option V) :
    n.buffer = m.buffer ∧ ∃ x', (x = tail → x' = n.tail) ∧ (pc.popping = false → x' = x) ∧
      step mask isConsumer l (m.join x d) pc = some (n.shared.join x' d, pc') := by
  have hstart : ∀ {first : Pc V}, start (m.at tail) first pc = some (n, pc') → n.buffer = m.buffer ∧
      ∃ x', (x = tail → x' = n.tail) ∧ (pc.popping = false → x' = x) ∧
        start (m.join x d) first pc = some (n.shared.join x' d, pc') := by
    intro first hs
    cases pc <;> cases hs
    exact ⟨rfl, x, id, fun _ => rfl, rfl⟩
  cases l with
  | tryPush | pushBlocking | close => exact hstart hstep
  | tryPop | popBlocking =>
      simp only [step] at hstep ⊢
      split_ifs at hstep ⊢
      exact hstart hstep
  | spurious =>
      cases pc <;> cases hstep
      exact ⟨rfl, x, id, fun _ => rfl, rfl⟩
  | run =>
      cases pc with
      | idle => cases hstep
      | pushRevert | pushData | pushPublish | popData | popRecycle | close => exact absurd rfl (hstore _)
      | pushCas c head =>
          by_cases hwin : m.head = head
          · have hrun : ∀ x d, step mask isConsumer .run (m.join x d) (.pushCas c head) =
                some ({ m.join x d with head := head + 1 }, .pushClosed c head) :=
              fun _ _ => congrArg some (if_pos hwin)
            cases hstep.symm.trans (hrun tail _)
            exact ⟨rfl, x, id, fun _ => rfl, hrun x d⟩
          · have hrun : ∀ x d, step mask isConsumer .run (m.join x d) (.pushCas c head) =
                some (m.join x d, .pushSeq c m.head) := fun _ _ => congrArg some (if_neg hwin)
            cases hstep.symm.trans (hrun tail _)
            exact ⟨rfl, x, id, fun _ => rfl, hrun x d⟩
      | popSeq mode =>
          obtain rfl := hx rfl
          rw [step, run, Option.some.injEq] at hstep
          split_ifs at hstep with hsees
          · cases hstep
            exact ⟨rfl, x + 1, fun _ => rfl, Bool.noConfusion, congrArg some (if_pos hsees)⟩
          · cases hstep
            exact ⟨rfl, x, fun _ => rfl, Bool.noConfusion, congrArg some (if_neg hsees)⟩
      | _ =>
          cases hstep
          exact ⟨rfl, x, id, fun _ => rfl, rfl⟩

theorem step_history (hstore : ∀ w, access mask l ⟨tail, pc⟩ ≠ .store w) (d : U64 → Option V) :
    h.step mask t l (m.join x d) pc pc' = h.step mask t l (m.at tail) pc pc' := by
  cases l with
  | run =>
      cases pc with
      | popData => exact absurd rfl (hstore _)
      | _ => rfl
  | _ => rfl

/-- A store to a slot leaves the data that `join` puts there. -/
theorem join_update (j : U64) (slot : Slot V) : ({ m with buffer := Function.update m.buffer j slot }).join x d =
    { m.join x d with buffer := Function.update (m.join x d).buffer j ⟨slot.sequence, d j⟩ } := by
  simp only [Shared.join, Mem.mk.injEq, true_and]
  funext i
  simp only [Function.update_apply]
  split_ifs with hi
  · rw [hi]
  · rfl

theorem setSequence_join : (m.join x d).setSequence mask i v = (Write.apply mask (.sequence i v) m).join x d :=
  (join_update (m := m) (i &&& mask) ⟨v, (m.buffer (i &&& mask)).data⟩).symm

theorem apply_data_join {v : Option V} : (Write.apply mask (.data i v) m).join x d = m.join x d :=
  (join_update (m := m) (i &&& mask) ⟨(m.buffer (i &&& mask)).sequence, v⟩).trans
    (congrArg (Mem.mk m.head x m.closed m.sizeApprox) (Function.update_eq_self (i &&& mask) (m.join x d).buffer))

theorem setData_join (v : Option V) :
    (m.join x d).setData mask i v = m.join x (Function.update d (i &&& mask) v) := by
  simp only [Mem.setData, Mem.setSlot, Mem.slot, Shared.join, Mem.mk.injEq, true_and]
  funext j
  simp only [Function.update_apply]
  split_ifs with hj
  · rw [hj]
  · rfl

namespace Follows

theorem same_of_empty (hf : Follows mask consumer d s c) (hempty : s.buffer t = []) :
    c.thread t = (s.thread t).pc := by
  have hlag := hf.lag t
  rw [hempty] at hlag
  exact hlag.eq_of_empty

/-- A load or a locked step is made by both. -/
theorem advance (hf : Follows mask consumer d s c) (hempty : s.buffer t = [])
    (hstore : ∀ w, access mask l (s.thread t) ≠ .store w)
    (hsolo : (s.thread t).pc.popping = true → t = consumer)
    (hstep : step mask (t == consumer) l (s.mem.at (s.thread t).tail) (s.thread t).pc = some (n, pc')) :
    ∃ n', step mask (t == consumer) l c.mem (c.thread t) = some (n', pc') ∧
      Follows mask consumer d { s with mem := n.shared, thread := Function.update s.thread t ⟨n.tail, pc'⟩ }
        (c.move t n' pc') := by
  have hsame := hf.same_of_empty hempty
  obtain ⟨hbuffer, x, hx, hx', hstep'⟩ := step_join hstep hstore (x := (s.thread consumer).tail)
    (fun hpop => by rw [hsolo hpop]) d
  rw [← hf.mem, ← hsame] at hstep'
  refine ⟨_, hstep', hf.awake, ?_, fun u => ?_, hf.pending, fun i hi => ?_⟩
  · have htail : (Function.update s.thread t ⟨n.tail, pc'⟩ consumer).tail = x := by
      rw [Function.update_apply]
      split_ifs with hc
      · exact (hx (by rw [hc])).symm
      · refine (hx' ?_).symm
        by_contra hpop
        exact hc (hsolo (by simpa using hpop)).symm
    exact congrArg (fun y => n.shared.join y d) htail.symm
  · simp only [Config.move_thread, Function.update_apply]
    split_ifs with hut
    · rw [hut, hempty]
      exact .same pc'
    · exact hf.lag u
  · change d i = (n.buffer i).data
    rw [hbuffer]
    exact hf.settled i hi

/-- A store to the data of a slot is made at once without buffers. -/
theorem fill (hf : Follows mask consumer d s c) (hempty : s.buffer t = [])
    (hothers : ∀ u j v, u ≠ t → .data j v ∈ s.buffer u → j &&& mask ≠ i &&& mask) {v : Option V} {j : U64}
    (hrelease : pc.release mask = some (i, j, pc')) (htail : tail = (s.thread t).tail) :
    Follows mask consumer (Function.update d (i &&& mask) v)
      { s with
        buffer := Function.update s.buffer t (s.buffer t ++ [.data i v])
        thread := Function.update s.thread t ⟨tail, pc⟩ }
      (c.move t (c.mem.setData mask i v) pc) := by
  refine ⟨hf.awake, ?_, fun u => ?_, fun u j' w hmem => ?_, fun i' hi' => ?_⟩
  · simp only [Config.move_mem, hf.mem, setData_join, apply_update_same (g := Worker.tail) (b := ⟨tail, pc⟩) htail]
  · simp only [Config.move_thread, Function.update_apply]
    split_ifs with hut
    · rw [hempty]
      exact .held hrelease fun w hw => ⟨v, List.mem_singleton.mp hw⟩
    · exact hf.lag u
  · simp only [Function.update_apply] at hmem ⊢
    split_ifs at hmem with hut
    · rw [hempty, List.nil_append, List.mem_singleton] at hmem
      cases hmem
      exact if_pos rfl
    · rw [if_neg (hothers u j' w hut hmem)]
      exact hf.pending u j' w hmem
  · have hne : i' ≠ i &&& mask := by
      refine Ne.symm (hi' t i v ?_)
      simp only [Function.update_self]
      exact List.mem_append_right _ (List.mem_singleton_self _)
    rw [Function.update_of_ne hne]
    refine hf.settled i' fun u j' w hmem => hi' u j' w ?_
    simp only [Function.update_apply]
    split_ifs with hut
    · rw [hut] at hmem
      exact List.mem_append_left _ hmem
    · exact hmem

/-- A store to a sequence waits, and without buffers it has not been made. -/
theorem delay (hf : Follows mask consumer d s c) (hrelease : (s.thread t).pc.release mask = some (i, v, pc'))
    (htail : tail = (s.thread t).tail) :
    Follows mask consumer d { s with
        buffer := Function.update s.buffer t (s.buffer t ++ [.sequence i v])
        thread := Function.update s.thread t ⟨tail, pc'⟩ } c := by
  have hdata : ∀ u j w, .data j w ∈ Function.update s.buffer t (s.buffer t ++ [.sequence i v]) u ↔
      .data j w ∈ s.buffer u := by
    intro u j w
    rw [Function.update_apply]
    split_ifs with hut
    · simp [hut]
    · rfl
  refine ⟨hf.awake, ?_, fun u => ?_, fun u j w hmem => hf.pending u j w ((hdata u j w).mp hmem),
    fun j hj => hf.settled j fun u j' w hmem => hj u j' w ((hdata u j' w).mpr hmem)⟩
  · simp only [apply_update_same (g := Worker.tail) (b := ⟨tail, pc'⟩) htail]
    exact hf.mem
  · simp only [Function.update_apply]
    split_ifs with hut
    · have hlag := hf.lag t
      rw [hut]
      generalize s.buffer t = ws at hlag
      generalize (s.thread t).pc = pc at hlag hrelease
      generalize c.thread t = pc₀ at hlag
      cases hlag with
      | same => exact .late hrelease (List.forall_mem_nil _)
      | held hpc hws =>
          cases hrelease.symm.trans hpc
          exact .late hpc hws
      | late hpc hws =>
          have hlocked := (access_of_release hpc).2
          rw [(access_of_release hrelease).1] at hlocked
          cases hlocked
    · exact hf.lag u

/-- Data that reach memory are there already without buffers. -/
theorem settle {v : Option V} (hf : Follows mask consumer d s c) (hbuffer : s.buffer t = .data i v :: ws)
    (hlag : Lag mask ws (s.thread t).pc (c.thread t)) :
    Follows mask consumer d { s with
      mem := Write.apply mask (.data i v) s.mem
      buffer := Function.update s.buffer t ws } c := by
  have hnext : ∀ j, ((Write.apply mask (.data i v) s.mem).buffer j).data =
      if j = i &&& mask then v else (s.mem.buffer j).data := by
    intro j
    change (Function.update s.mem.buffer (i &&& mask) _ j).data = _
    rw [Function.update_apply]
    split_ifs <;> rfl
  have hmem : ∀ u j v', .data j v' ∈ Function.update s.buffer t ws u → .data j v' ∈ s.buffer u := by
    intro u j v' hmem
    rw [Function.update_apply] at hmem
    split_ifs at hmem with hut
    · rw [hut, hbuffer]
      exact List.mem_cons_of_mem _ hmem
    · exact hmem
  refine ⟨hf.awake, ?_, fun u => ?_, fun u j v' hw => hf.pending u j v' (hmem u j v' hw), fun j hj => ?_⟩
  · rw [hf.mem]
    exact apply_data_join.symm
  · simp only [Function.update_apply]
    split_ifs with hut
    · rw [hut]
      exact hlag
    · exact hf.lag u
  · rw [hnext]
    split_ifs with hji
    · rw [hji]
      exact hf.pending t i v (by rw [hbuffer]; exact List.mem_cons_self)
    · refine hf.settled j fun u j' v' hw => ?_
      by_cases hut : u = t
      · rw [hut, hbuffer] at hw
        rcases List.mem_cons.mp hw with heq | hw
        · cases heq
          exact Ne.symm hji
        · exact hj t j' v' (by simp only [Function.update_self]; exact hw)
      · exact hj u j' v' (by simp only [Function.update_of_ne hut]; exact hw)

/-- A sequence that reaches memory is stored without buffers. -/
theorem arrive (hf : Follows mask consumer d s c) (hbuffer : s.buffer t = [.sequence i v]) :
    Follows mask consumer d { s with
      mem := Write.apply mask (.sequence i v) s.mem
      buffer := Function.update s.buffer t [] } (c.move t (c.mem.setSequence mask i v) (s.thread t).pc) := by
  have hdata : ∀ u j v', .data j v' ∈ s.buffer u → .data j v' ∈ Function.update s.buffer t [] u := by
    intro u j v' hmem
    rw [Function.update_apply]
    split_ifs with hut
    · rw [hut, hbuffer] at hmem
      cases List.mem_singleton.mp hmem
    · exact hmem
  have hsame : ∀ j, ((Write.apply mask (.sequence i v) s.mem).buffer j).data = (s.mem.buffer j).data := by
    intro j
    change (Function.update s.mem.buffer (i &&& mask) _ j).data = _
    rw [Function.update_apply]
    split_ifs with hj
    · rw [hj]
      rfl
    · rfl
  refine ⟨hf.awake, ?_, fun u => ?_, fun u j v' hmem => ?_, fun j hj => ?_⟩
  · simp only [Config.move_mem, hf.mem, setSequence_join]
  · simp only [Config.move_thread, Function.update_apply]
    split_ifs with hut
    · rw [hut]
      exact .same _
    · exact hf.lag u
  · simp only [Function.update_apply] at hmem
    split_ifs at hmem
    · cases hmem
    · exact hf.pending u j v' hmem
  · rw [hsame]
    exact hf.settled j fun u j' v' hmem => hj u j' v' (hdata u j' v' hmem)

end Follows

/-! ### The run without buffers -/

variable [Fintype Tid] {capacity : U64} {a : TsoAct Tid (Label V)}

theorem observed_of_step (hawake : c.asleep t = none)
    (hstep : step (maskOf capacity) (t == consumer) l c.mem (c.thread t) = some (n, pc')) :
    (observed V capacity consumer).next (c, h) (.step t l) =
      some (c.move t n pc', h.step (maskOf capacity) t l c.mem (c.thread t) pc') := by
  change ((program V capacity consumer).machine.next c (.step t l)).map _ = _
  rw [(program V capacity consumer).next_of_step hawake hstep]
  simp only [Option.map_some, record, Config.move_thread, Function.update_self]

theorem recordTso_step (hrelease : (s.thread t).pc.release (maskOf capacity) = none) :
    recordTso capacity consumer h s (.step t l) s' = h.step (maskOf capacity) t l
      (((buffered V capacity consumer).view s t).at (s.thread t).tail) (s.thread t).pc (s'.thread t).pc := by
  simp only [recordTso]
  generalize (s.thread t).pc = pc at hrelease
  cases pc <;> first | rfl | cases hrelease

/-- What the run without buffers does meanwhile: one step, or none. -/
def Meanwhile (capacity : U64) (consumer : Tid) (s' : TsoState V Tid) (a : TsoAct Tid (Label V))
    (x y : State V Tid × History V Tid) : Prop :=
  (y = x ∧ ∀ t l, a = .step t l → (s'.thread t).pc.access (maskOf capacity) = .locked) ∨
    ∃ t l, (observed V capacity consumer).next x (.step t l) = some y ∧ (a = .step t l ∨ a = .drain t ∧ l = .run)

namespace Follows

variable (hcap : capacity.toNat ≤ 2 ^ 62) (hf : Follows (maskOf capacity) consumer d s c)
  (hopen : Open capacity consumer (c, h))
include hf hopen

/-- No store waits for the slot that a thread has for itself, unless it is its own. -/
theorem apart (hcap : capacity.toNat ≤ 2 ^ 62)
    (hholds : (c.thread t).holds (maskOf capacity) = some (i &&& maskOf capacity)) (u : Tid) (j : U64)
    (v : Option V) (hut : u ≠ t) (hmem : .data j v ∈ s.buffer u) : j &&& maskOf capacity ≠ i &&& maskOf capacity := by
  intro heq
  have hu := (hf.lag u).holds hmem
  rw [heq, maskOf_eq] at hu
  rw [maskOf_eq] at hholds
  have hk : ringBits capacity ≤ 64 := (ringBits_le (by omega) hcap).trans (by omega)
  exact hut (hopen.sound.holds_unique hk hu hholds)

/-- The loads and the locked steps. -/
theorem next_advance (hempty : s.buffer t = []) (hstore : ∀ w, access (maskOf capacity) l (s.thread t) ≠ .store w)
    (hstep : step (maskOf capacity) (t == consumer) l (s.mem.at (s.thread t).tail) (s.thread t).pc = some (n, pc'))
    (hs' : s' = { s with mem := n.shared, thread := Function.update s.thread t ⟨n.tail, pc'⟩ }) :
    ∃ c', Follows (maskOf capacity) consumer d s' c' ∧
      Meanwhile capacity consumer s' (.step t l) (c, h) (c', recordTso capacity consumer h s (.step t l) s') := by
  have hsame := hf.same_of_empty hempty
  have hsolo : (s.thread t).pc.popping = true → t = consumer := by
    rw [← hsame]
    exact hopen.sound.solo t
  obtain ⟨n', hstep', hf'⟩ := hf.advance hempty hstore hsolo hstep
  subst hs'
  refine ⟨_, hf', Or.inr ⟨t, l, ?_, Or.inl rfl⟩⟩
  rw [observed_of_step (hf.awake t) hstep', recordTso_step (release_of_step hstep hstore),
    TsoProgram.view_of_empty _ hempty, ← step_history hstore d (x := (s.thread consumer).tail), hf.mem, hsame]
  simp only [Function.update_self]

/-- The stores to the data. -/
theorem next_fill {v : Option V} {j : U64} (hcap : capacity.toNat ≤ 2 ^ 62) (hempty : s.buffer t = [])
    (hthread : s.thread t = ⟨tail, pc⟩) (hsame : c.thread t = pc)
    (hholds : pc.holds (maskOf capacity) = some (i &&& maskOf capacity))
    (hrun : run (maskOf capacity) c.mem pc = some (c.mem.setData (maskOf capacity) i v, pc'))
    (hrelease : pc'.release (maskOf capacity) = some (i, j, pc₀))
    (hrecord : recordTso capacity consumer h s (.step t .run) s' =
      h.step (maskOf capacity) t .run c.mem pc pc')
    (hs' : s' = { s with
      buffer := Function.update s.buffer t (s.buffer t ++ [.data i v])
      thread := Function.update s.thread t ⟨tail, pc'⟩ }) :
    ∃ c' d', Follows (maskOf capacity) consumer d' s' c' ∧
      Meanwhile capacity consumer s' (.step t .run) (c, h) (c', recordTso capacity consumer h s (.step t .run) s') := by
  subst hsame hs'
  refine ⟨_, _, hf.fill hempty (hf.apart hopen hcap hholds) hrelease (by rw [hthread]),
    Or.inr ⟨t, .run, ?_, Or.inl rfl⟩⟩
  rw [hrecord]
  exact observed_of_step (hf.awake t) hrun

/-- The stores to a sequence. -/
theorem next_delay {v : U64} (hthread : s.thread t = ⟨tail, pc⟩)
    (hrelease : pc.release (maskOf capacity) = some (i, v, pc'))
    (hrecord : recordTso capacity consumer h s (.step t .run) s' = h)
    (hs' : s' = { s with
      buffer := Function.update s.buffer t (s.buffer t ++ [.sequence i v])
      thread := Function.update s.thread t ⟨tail, pc'⟩ }) :
    ∃ c' d', Follows (maskOf capacity) consumer d' s' c' ∧
      Meanwhile capacity consumer s' (.step t .run) (c, h) (c', recordTso capacity consumer h s (.step t .run) s') := by
  have hdelay := hf.delay (t := t) (i := i) (v := v) (by rw [hthread]; exact hrelease) rfl
  rw [hthread] at hdelay
  subst hs'
  refine ⟨c, d, hdelay, Or.inl ⟨by rw [hrecord], fun u l heq => ?_⟩⟩
  cases heq
  simp only [Function.update_self]
  exact (access_of_release hrelease).2

/-- The plain stores. -/
theorem next_store (hcap : capacity.toNat ≤ 2 ^ 62)
    (haccess : access (maskOf capacity) l (s.thread t) = .store w)
    (hstep : step (maskOf capacity) (t == consumer) l
      (((buffered V capacity consumer).view s t).at (s.thread t).tail) (s.thread t).pc = some (n, pc'))
    (hs' : s' = { s with
      buffer := Function.update s.buffer t (s.buffer t ++ [w])
      thread := Function.update s.thread t ⟨n.tail, pc'⟩ }) :
    ∃ c' d', Follows (maskOf capacity) consumer d' s' c' ∧
      Meanwhile capacity consumer s' (.step t l) (c, h) (c', recordTso capacity consumer h s (.step t l) s') := by
  have hlag := hf.lag t
  have hgoing : (c.thread t).shutting = false := hopen.going t
  cases hthread : s.thread t with
  | mk tail pc =>
      rw [hthread] at haccess hstep hlag
      cases l with
      | run =>
          have hplace : pc.release (maskOf capacity) = none → s.buffer t = [] ∧ c.thread t = pc := by
            refine fun hrelease => hlag.empty hrelease fun hlocked => ?_
            cases hlocked.symm.trans haccess
          cases pc with
          | pushRevert c' head =>
              rw [(hplace rfl).2] at hgoing
              cases hgoing
          | close =>
              rw [(hplace rfl).2] at hgoing
              cases hgoing
          | pushData c' head =>
              obtain ⟨hempty, hsame⟩ := hplace rfl
              cases haccess
              cases hstep
              refine hf.next_fill hopen hcap hempty hthread hsame rfl rfl rfl ?_ hs'
              subst hs'
              simp only [recordTso, hthread, Function.update_self]
              rfl
          | popData mode tail' =>
              obtain ⟨hempty, hsame⟩ := hplace rfl
              have hdata : (c.mem.slot (maskOf capacity) tail').data =
                  ((((buffered V capacity consumer).view s t).at tail).slot (maskOf capacity) tail').data := by
                rw [TsoProgram.view_of_empty _ hempty, hf.mem]
                refine hf.settled _ fun u j v hmem => hf.apart hopen hcap (t := t) ?_ u j v ?_ hmem
                · rw [hsame]
                  rfl
                · rintro rfl
                  rw [hempty] at hmem
                  cases hmem
              cases haccess
              cases hstep
              refine hf.next_fill hopen hcap hempty hthread hsame rfl ?_ rfl ?_ hs'
              · rw [run, hdata]
              · subst hs'
                simp only [recordTso, hthread, History.step, History.act, hdata, Function.update_self]
          | pushPublish c' head =>
              cases haccess
              cases hstep
              refine hf.next_delay hopen hthread rfl ?_ hs'
              simp only [recordTso, hthread]
          | popRecycle mode tail' result =>
              cases haccess
              cases hstep
              refine hf.next_delay hopen hthread rfl ?_ hs'
              simp only [recordTso, hthread]
          | _ => cases haccess
      | _ => cases haccess

/-- The oldest store of a thread reaches memory. -/
theorem next_drain (hbuffer : s.buffer t = w :: ws)
    (hs' : s' = { s with
      mem := Write.apply (maskOf capacity) w s.mem
      buffer := Function.update s.buffer t ws }) :
    ∃ c', Follows (maskOf capacity) consumer d s' c' ∧
      Meanwhile capacity consumer s' (.drain t) (c, h) (c', recordTso capacity consumer h s (.drain t) s') := by
  have hlag := hf.lag t
  rw [hbuffer] at hlag
  rcases hlag.drain with ⟨i, v, rfl, hrest⟩ | ⟨i, v, rfl, rfl, hrelease⟩
  · have hrecord : recordTso capacity consumer h s (.drain t) s' = h := by
      simp only [recordTso, hbuffer]
    subst hs'
    exact ⟨c, hf.settle hbuffer hrest, Or.inl ⟨by rw [hrecord], fun u l heq => (by cases heq)⟩⟩
  · have hrecord : recordTso capacity consumer h s (.drain t) s' =
        h.step (maskOf capacity) t .run c.mem (c.thread t) (s.thread t).pc := by
      simp only [recordTso, hbuffer]
      generalize c.thread t = pc at hrelease
      generalize (s.thread t).pc = pc' at hrelease
      cases pc <;> cases hrelease <;> rfl
    subst hs'
    refine ⟨_, hf.arrive hbuffer, Or.inr ⟨t, .run, ?_, Or.inr ⟨rfl, rfl⟩⟩⟩
    rw [hrecord]
    exact observed_of_step (hf.awake t) (run_of_release hrelease c.mem)

/-- A step with store buffers is none or one without. -/
theorem next (hcap : capacity.toNat ≤ 2 ^ 62)
    (hnext : (buffered V capacity consumer).machine.next s a = some s') :
    ∃ c' d', Follows (maskOf capacity) consumer d' s' c' ∧
      Meanwhile capacity consumer s' a (c, h) (c', recordTso capacity consumer h s a s') := by
  cases TsoProgram.transition_of_next hnext with
  | @load t l th haccess hstep =>
      obtain ⟨⟨n, pc⟩, hcode, heq⟩ := Option.map_eq_some_iff.mp hstep
      obtain ⟨hmem, rfl⟩ := Prod.mk.inj heq
      have haccess : access (maskOf capacity) l (s.thread t) = .load := haccess
      have hstore := not_store (Or.inl haccess)
      have hload := access_of_load hcode haccess
      obtain ⟨hempty, -⟩ := (hf.lag t).empty (release_of_step hcode hstore) (by
        rw [hload]
        exact fun heq => (by cases heq))
      rw [TsoProgram.view_of_empty _ hempty] at hcode hmem
      obtain ⟨c', hf', hmeanwhile⟩ := hf.next_advance hopen hempty hstore hcode (by rw [hmem])
      exact ⟨c', d, hf', hmeanwhile⟩
  | store haccess hstep =>
      obtain ⟨⟨n, pc⟩, hcode, heq⟩ := Option.map_eq_some_iff.mp hstep
      obtain ⟨-, rfl⟩ := Prod.mk.inj heq
      exact hf.next_store hopen hcap haccess hcode rfl
  | @locked t l m th haccess hempty hstep =>
      obtain ⟨⟨n, pc⟩, hcode, heq⟩ := Option.map_eq_some_iff.mp hstep
      obtain ⟨rfl, rfl⟩ := Prod.mk.inj heq
      have haccess : access (maskOf capacity) l (s.thread t) = .locked := haccess
      have hstore := not_store (Or.inr haccess)
      obtain ⟨c', hf', hmeanwhile⟩ := hf.next_advance hopen hempty hstore hcode rfl
      exact ⟨c', d, hf', hmeanwhile⟩
  | drain hbuffer =>
      obtain ⟨c', hf', hmeanwhile⟩ := hf.next_drain hopen hbuffer rfl
      exact ⟨c', d, hf', hmeanwhile⟩

end Follows

/-- Every run with store buffers is followed by one without, with the same history. -/
theorem follow_of_reachable {w : TsoState V Tid × History V Tid} (hcap : capacity.toNat ≤ 2 ^ 62)
    (hreach : (observedTso V capacity consumer).Reachable openBoundedTso w) :
    ∃ c d, (observed V capacity consumer).Reachable openBounded (c, w.2) ∧
      Follows (maskOf capacity) consumer d w.1 c := by
  have hsim := hreach.follow (observed V capacity consumer) openBounded
    (fun w x => w.2 = x.2 ∧ ∃ d, Follows (maskOf capacity) consumer d w.1 x.1)
    ⟨rfl, fun _ => none, fun _ => rfl, rfl, fun _ => .same _, fun _ _ _ hmem => (by cases hmem), fun _ _ => rfl⟩ ?_
  · obtain ⟨⟨c, h⟩, hc, rfl, d, hf⟩ := hsim
    exact ⟨c, d, hc, hf⟩
  · rintro ⟨s, h⟩ a ⟨s', h'⟩ ⟨c, _⟩ - hc ⟨rfl, d, hf⟩ hnext ⟨hcloses, hbound⟩
    obtain ⟨hnext, hrecord⟩ := Machine.observe_next hnext
    obtain ⟨c', d', hf', hmeanwhile⟩ := hf.next (open_of_reachable hcap hc) hcap hnext
    refine ⟨(c', h'), ?_, rfl, d', hf'⟩
    rw [← show h' = recordTso capacity consumer h s a s' from hrecord] at hmeanwhile
    rcases hmeanwhile with ⟨heq, -⟩ | ⟨t, l, hstep, hact⟩
    · rw [heq]
      exact .refl
    · refine .single ⟨.step t l, hstep, ?_, hbound⟩
      rcases hact with rfl | ⟨-, rfl⟩
      · exact hcloses
      · rfl

/-- What the open queue promises with store buffers. -/
structure TsoLaw (capacity : U64) (consumer : Tid) (w : TsoState V Tid × History V Tid) : Prop where
  /-- Every step is a step of the bounded queue. -/
  refines : ∀ a w', (observedTso V capacity consumer).next w a = some w' →
    QueueStep (MPSCQueue.capacity (maskOf capacity)).toNat w.2.contents w'.2.contents
  /-- The pops are the claims from the first one on, in order, each once and with its value. -/
  order : w.2.popped = (w.2.claimed.take w.2.popped.length).map fun c => some c.2
  /-- The calls of `try_pop` have returned all of them, but for the one that a call is about to return. -/
  returned : w.2.popped = w.2.returned ++ (w.1.thread consumer).pc.item
  /-- While a thread has a slot for itself, no other thread reads or writes its data, nor has a store to them
  that waits. -/
  exclusive : ∀ t u i, t ≠ u → (w.1.thread t).pc.holds (maskOf capacity) = some i →
    (w.1.thread u).pc.accesses (maskOf capacity) ≠ some i ∧
      ∀ j v, .data j v ∈ w.1.buffer u → j &&& maskOf capacity ≠ i
  /-- `try_push` returns `true` once for each position, which it has claimed with its value and published in
  memory. -/
  accepted : ∀ t c value w', (observedTso V capacity consumer).next w (.step t .run) = some w' →
    (w'.1.thread t).pc = .pushed c true value →
    ∃ p, w.2.claimed[p]? = some (t, c.value) ∧ w.2.phase p = .published ∧ w'.2.phase p = .succeeded
  /-- `try_pop` returns the value of the first claim that has not been returned before. -/
  delivered : ∀ mode item w', (observedTso V capacity consumer).next w (.step consumer .run) = some w' →
    (w'.1.thread consumer).pc = .popped mode (some item) →
    (∃ c, w.2.claimed[w.2.returned.length]? = some c ∧ item = some c.2) ∧
      w'.2.returned = w.2.returned ++ [item]
  /-- `try_push` returns `false` only at a load in a state in which `capacity()` positions are claimed and their
  slots not handed back in memory. -/
  full : ∀ t c value w', (observedTso V capacity consumer).next w (.step t .run) = some w' →
    (w'.1.thread t).pc = .pushed c false value →
    w.2.claimed.length = w.2.recycled + (MPSCQueue.capacity (maskOf capacity)).toNat ∧ value = some c.value
  /-- `try_pop` returns `nullopt` only if at its load the next item is not published in memory. -/
  empty : ∀ mode w', (observedTso V capacity consumer).next w (.step consumer .run) = some w' →
    (w'.1.thread consumer).pc = .popped mode none →
    (∃ mode', (w.1.thread consumer).pc = .popSeq mode') ∧ (w.2.phase w.2.popped.length).ready = false
  /-- When no store waits, the queue is in a state of a run without buffers. -/
  settled : (∀ t, w.1.buffer t = []) → ∃ s, (observed V capacity consumer).Reachable openBounded (s, w.2) ∧
    s.mem = w.1.mem.at (w.1.thread consumer).tail ∧ ∀ t, s.thread t = (w.1.thread t).pc

/-- A step that leads to a load is the same step without buffers. -/
theorem run_of_meanwhile {c' : State V Tid} {h' : History V Tid} {d' : U64 → Option V}
    (hf : Follows (maskOf capacity) consumer d' s' c')
    (hmeanwhile : Meanwhile capacity consumer s' (.step t .run) (c, h) (c', h'))
    (hload : (s'.thread t).pc.access (maskOf capacity) = .load) :
    ∃ m, run (ringMask (ringBits capacity)) c.mem (c.thread t) = some (m, (s'.thread t).pc) ∧
      h' = h.step (ringMask (ringBits capacity)) t .run c.mem (c.thread t) (s'.thread t).pc := by
  have hlocked : (s'.thread t).pc.access (maskOf capacity) ≠ .locked := by
    rw [hload]
    exact fun heq => (by cases heq)
  have hrelease : (s'.thread t).pc.release (maskOf capacity) = none := by
    generalize (s'.thread t).pc = pc at hload
    cases pc <;> first | rfl | cases hload
  rcases hmeanwhile with ⟨-, hends⟩ | ⟨u, l, hnext, hact⟩
  · exact absurd (hends t .run rfl) hlocked
  · rcases hact with heq | ⟨heq, -⟩
    · cases heq
      obtain ⟨_, _, m, pc, heq, hstep, hmove, hhistory⟩ := observed_next hnext
      cases heq
      rw [maskOf_eq] at hstep hhistory
      rw [← ((hf.lag t).empty hrelease hlocked).2, show c' = c.move t m pc from hmove, Config.move_thread,
        Function.update_self]
      exact ⟨m, hstep, hhistory⟩
    · cases heq

/-- Thread `b` finds nothing while the push of `a` waits, and then pops 7 and has not handed the slot back in
memory. -/
def waitingRun : List (TsoAct Runner (Label ℕ)) :=
  .step .a (.tryPush 7) :: List.replicate 6 (.step .a .run) ++
    .step .b .tryPop :: List.replicate 2 (.step .b .run) ++
    [.drain .a, .drain .a, .step .a .run] ++ .step .b .tryPop :: List.replicate 3 (.step .b .run)

end Psync.MPSCQueue
