import Psync.SeqlockSnapshot
import Psync.RunSimulation
import Psync.RunTso

/-! The sequence lock on a processor with store buffers (x86-TSO). The stores of a write are plain and may
wait in the buffer of the writer; the `fetch_add` on both sides are locked, and the fences of the readers
stop the compiler only.

A run is followed by one without buffers, in which the writer makes every store when it reaches memory. -/

namespace Psync.SeqLock

open Concurrency MachineWord

set_option linter.unusedSectionVars false

variable {Tid ι V : Type*} [DecidableEq ι]

/-- A plain store: a word and its new value. -/
abbrev Write (ι V : Type*) := ι × V

def apply (w : Write ι V) (m : Mem ι V) : Mem ι V := { m with words := Function.update m.words w.1 w.2 }

def access (l : Label ι V) (pc : Pc ι V) : Access (Write ι V) :=
  match l, pc with
  | .store i v, _ => .store (i, v)
  | .run, .writeBegin | .run, .writeEnd => .locked
  | _, _ => .load

theorem step_does {l : Label ι V} {m m' : Mem ι V} {pc pc' : Pc ι V} (h : step l m pc = some (m', pc')) :
    (access l pc).Does apply m m' := by
  cases l with
  | run =>
      cases pc with
      | idle | writing | reading => cases h
      | writeBegin | writeEnd => trivial
      | readBegin | readRetry | returned | retried =>
          cases h
          rfl
  | writeBegin | store | writeEnd | readTransaction | readGuard | load | readRetry =>
      cases pc <;> cases h
      rfl
  | restart | leave =>
      cases pc with
      | reading reader seq log =>
          cases reader <;> cases h
          rfl
      | _ => cases h

/-- The threads on one lock, with their store buffers. -/
def buffered (Tid : Type*) (data : ι → V) : TsoProgram Tid (Mem ι V) (Write ι V) (Pc ι V) (Label ι V) where
  mem := ⟨0, data⟩
  start := .idle
  apply := apply
  step _ := step
  access := access
  does := step_does

abbrev TsoState (Tid ι V : Type*) := TsoConfig Tid (Mem ι V) (Write ι V) (Pc ι V)

variable [DecidableEq Tid]

/-- The writes are serialized by their callers. -/
def serializedTso : StepCond (TsoState Tid ι V) (TsoAct Tid (Label ι V)) := fun s a _ =>
  match a with
  | .step _ .writeBegin => ∀ u, (s.thread u).writer = false
  | _ => True

instance [Fintype Tid] (s : TsoState Tid ι V) (a : TsoAct Tid (Label ι V)) (s' : TsoState Tid ι V) :
    Decidable (serializedTso s a s') :=
  match a with
  | .step _ .writeBegin => inferInstanceAs (Decidable (∀ u, (s.thread u).writer = false))
  | .step _ (.store ..) | .step _ .writeEnd | .step _ .readTransaction | .step _ .readGuard =>
      .isTrue trivial
  | .step _ (.load _) | .step _ .readRetry | .step _ .restart | .step _ .leave | .step _ .run =>
      .isTrue trivial
  | .drain _ => .isTrue trivial

/-- Memory and the positions of the threads. -/
def unbuffered (s : TsoState Tid ι V) : Config Tid (Mem ι V) (Pc ι V) Empty := ⟨s.mem, s.thread, fun _ => none⟩

def recordTso (h : History Tid) (s : TsoState Tid ι V) (a : TsoAct Tid (Label ι V)) (s' : TsoState Tid ι V) :
    History Tid :=
  match a with
  | .step t l => record h (unbuffered s) (.step t l) (unbuffered s')
  | .drain _ => h

/-- The runs with their history. -/
def observedTso (data : ι → V) : Machine (TsoState Tid ι V × History Tid) (TsoAct Tid (Label ι V)) :=
  (buffered Tid data).machine.observe ⟨0, fun _ => 0⟩ recordTso

/-! ### The run without buffers -/

abbrev DirectState (Tid ι V : Type*) := Config Tid (Mem ι V) (Pc ι V) Empty

/-- Where a thread is without its buffer `ws`: a writer whose stores wait has not come to its `fetch_add`. -/
inductive Lag : List (Write ι V) → Pc ι V → Pc ι V → Prop
  | same (pc : Pc ι V) : Lag [] pc pc
  | store (w : Write ι V) (ws : List (Write ι V)) : Lag (w :: ws) .writing .writing
  | ending (w : Write ι V) (ws : List (Write ι V)) : Lag (w :: ws) .writing .writeEnd

/-- A run without buffers that has come to `c` follows the one that has come to `s`. -/
structure Follows (s : TsoState Tid ι V) (c : DirectState Tid ι V) : Prop where
  awake : ∀ t, c.asleep t = none
  mem : c.mem = s.mem
  lag : ∀ t, Lag (s.buffer t) (c.thread t) (s.thread t)

variable {data : ι → V} {s s' : TsoState Tid ι V} {c : DirectState Tid ι V} {h : History Tid} {t : Tid}
  {l : Label ι V} {pc pc' : Pc ι V} {w : Write ι V} {ws : List (Write ι V)} {m : Mem ι V}

namespace Lag

theorem writer (hlag : Lag ws pc pc') : pc.writer = pc'.writer := by
  cases hlag <;> rfl

theorem midWrite (hlag : Lag ws pc pc') : pc.midWrite = pc'.midWrite := by
  cases hlag <;> rfl

theorem of_empty (hlag : Lag ws pc pc') (hempty : ws = []) : pc = pc' := by
  subst hempty
  cases hlag
  rfl

/-- A thread whose stores wait is between the two `fetch_add` of a write. -/
theorem waiting (hlag : Lag ws pc pc') (hne : ws ≠ []) : pc = .writing ∧ (pc' = .writing ∨ pc' = .writeEnd) := by
  cases hlag with
  | same => exact absurd rfl hne
  | store => exact ⟨rfl, Or.inl rfl⟩
  | ending => exact ⟨rfl, Or.inr rfl⟩

theorem of_waiting (hne : ws ≠ []) (hpc : pc = .writing ∨ pc = .writeEnd) : Lag ws .writing pc := by
  obtain ⟨w, ws, rfl⟩ := List.exists_cons_of_ne_nil hne
  rcases hpc with rfl | rfl
  · exact .store w ws
  · exact .ending w ws

end Lag

/-- All that such a thread does without a store is to call `write_end`. -/
theorem load_of_waiting (hpc : pc = .writing ∨ pc = .writeEnd) (haccess : access l pc = .load) {m' : Mem ι V}
    (hstep : step l m pc = some (m', pc')) : l = .writeEnd ∧ pc' = .writeEnd := by
  rcases hpc with rfl | rfl
  · cases l <;> cases hstep
    · cases haccess
    · exact ⟨rfl, rfl⟩
  · cases l <;> cases hstep
    cases haccess

theorem store_cases (haccess : access l pc = .store w) {m' : Mem ι V} (hstep : step l m pc = some (m', pc')) :
    l = .store w.1 w.2 ∧ pc = .writing ∧ pc' = .writing := by
  cases l with
  | store i v =>
      cases haccess
      cases pc <;> cases hstep
      exact ⟨rfl, rfl, rfl⟩
  | run => cases pc <;> cases haccess
  | _ => cases haccess

variable [Fintype Tid]

abbrev sound : StepCond (DirectState Tid ι V × History Tid) (Act Tid (Label ι V)) :=
  fun w a w' => serialized w.1 a w'.1

/-- A step that both runs take. -/
theorem leads_of_step (awake : c.asleep t = none) (hstep : step l c.mem (c.thread t) = some (m, pc))
    (hok : serialized c (.step t l) (c.move t m pc)) :
    (machine data).Leads sound (c, h) (c.move t m pc, record h c (.step t l) (c.move t m pc)) := by
  refine .single ⟨.step t l, ?_, hok⟩
  change ((program Tid data).machine.next c (.step t l)).map _ = _
  rw [(program Tid data).next_of_step awake hstep]
  rfl

namespace Follows

theorem move (hf : Follows s c) (hothers : ∀ u, u ≠ t → s'.thread u = s.thread u ∧ s'.buffer u = s.buffer u)
    (hmem : m = s'.mem) (hlag : Lag (s'.buffer t) pc (s'.thread t)) : Follows s' (c.move t m pc) := by
  refine ⟨hf.awake, hmem, fun u => ?_⟩
  rw [Config.move_thread, Function.update_apply]
  split_ifs with hut
  · rw [hut]
    exact hlag
  · rw [(hothers u hut).1, (hothers u hut).2]
    exact hf.lag u

theorem stay (hf : Follows s c) (hothers : ∀ u, u ≠ t → s'.thread u = s.thread u ∧ s'.buffer u = s.buffer u)
    (hmem : s'.mem = s.mem) (hlag : Lag (s'.buffer t) (c.thread t) (s'.thread t)) : Follows s' c := by
  have hmove := hf.move hothers (hf.mem.trans hmem.symm) hlag
  rwa [Config.move, Function.update_eq_self] at hmove

/-- A thread without waiting stores takes the same step in both runs. -/
theorem same_step (hf : Follows s c) (hempty : s.buffer t = []) (hok : serializedTso s (.step t l) s')
    (hstep : step l s.mem (s.thread t) = some (m, pc)) (hmem : s'.mem = m) (hthread : s'.thread t = pc)
    (hbuffer : s'.buffer t = [])
    (hothers : ∀ u, u ≠ t → s'.thread u = s.thread u ∧ s'.buffer u = s.buffer u) :
    ∃ c', (machine data).Leads sound (c, h) (c', recordTso h s (.step t l) s') ∧ Follows s' c' := by
  have hsame : c.thread t = s.thread t := (hf.lag t).of_empty hempty
  refine ⟨c.move t m pc, ?_, hf.move hothers hmem.symm ?_⟩
  · have hserialized : serialized c (.step t l) (c.move t m pc) := by
      cases l with
      | writeBegin => exact fun u => (hf.lag u).writer.trans (hok u)
      | _ => trivial
    have hrecord : record h c (.step t l) (c.move t m pc) = recordTso h s (.step t l) s' := by
      cases l with
      | run => simp only [record, recordTso, unbuffered, Config.move_thread, Function.update_self, hsame, hthread]
      | _ => rfl
    rw [← hrecord]
    exact leads_of_step (hf.awake t) (by rw [hf.mem, hsame]; exact hstep) hserialized
  · rw [hbuffer, hthread]
    exact .same pc

theorem drain_step (hf : Follows s c) (hbuffer : s.buffer t = w :: ws) :
    ∃ c', (machine data).Leads sound (c, h) (c', h) ∧
      Follows { s with mem := apply w s.mem, buffer := Function.update s.buffer t ws } c' := by
  have hne : s.buffer t ≠ [] := by
    rw [hbuffer]
    exact List.cons_ne_nil _ _
  obtain ⟨hwriting, hpc⟩ := (hf.lag t).waiting hne
  have hstep : step (.store w.1 w.2) c.mem (c.thread t) = some (apply w s.mem, .writing) := by
    rw [hwriting, hf.mem]
    rfl
  have hlead : (machine data).Leads sound (c, h) (c.move t (apply w s.mem) .writing, h) :=
    leads_of_step (hf.awake t) hstep trivial
  have hothers : ∀ u, u ≠ t → s.thread u = s.thread u ∧ Function.update s.buffer t ws u = s.buffer u :=
    fun u hu => ⟨rfl, Function.update_of_ne hu ..⟩
  by_cases hlast : ws = [] ∧ s.thread t = .writeEnd
  · -- nothing waits any more before the `fetch_add`
    obtain ⟨rfl, hend⟩ := hlast
    have hcall : step .writeEnd (c.move t (apply w s.mem) .writing).mem
        ((c.move t (apply w s.mem) .writing).thread t) = some (apply w s.mem, .writeEnd) := by
      rw [Config.move_thread, Function.update_self]
      rfl
    have hlead' := hlead.trans (leads_of_step (h := h) (hf.awake t) hcall trivial)
    rw [Config.move, Config.move, Function.update_idem] at hlead'
    refine ⟨_, hlead', hf.move hothers rfl ?_⟩
    simp only [Function.update_self, hend]
    exact .same _
  · refine ⟨_, hlead, hf.move hothers rfl ?_⟩
    simp only [Function.update_self]
    by_cases hempty : ws = []
    · rw [hempty, hpc.resolve_right fun hend => hlast ⟨hempty, hend⟩]
      exact .same _
    · exact .of_waiting hempty hpc

theorem next (hf : Follows s c) {a : TsoAct Tid (Label ι V)}
    (hnext : (buffered Tid data).machine.next s a = some s') (hok : serializedTso s a s') :
    ∃ c', (machine data).Leads sound (c, h) (c', recordTso h s a s') ∧ Follows s' c' := by
  cases TsoProgram.transition_of_next hnext with
  | @load t l pc haccess hstep =>
      have hothers : ∀ u, u ≠ t → Function.update s.thread t pc u = s.thread u ∧ s.buffer u = s.buffer u :=
        fun u hu => ⟨Function.update_of_ne hu .., rfl⟩
      by_cases hempty : s.buffer t = []
      · rw [(buffered Tid data).view_of_empty hempty] at hstep
        exact hf.same_step hempty hok hstep rfl (Function.update_self ..) hempty hothers
      · -- the writer calls `write_end`
        obtain ⟨hwriting, hpc⟩ := (hf.lag t).waiting hempty
        obtain ⟨rfl, rfl⟩ := load_of_waiting hpc haccess hstep
        refine ⟨c, .refl, hf.stay hothers rfl ?_⟩
        simp only [Function.update_self, hwriting]
        exact .of_waiting hempty (Or.inr rfl)
  | @store t l w pc haccess hstep =>
      obtain ⟨rfl, hpc, rfl⟩ := store_cases haccess hstep
      refine ⟨c, .refl, hf.stay (fun u hu => ⟨Function.update_of_ne hu .., Function.update_of_ne hu ..⟩) rfl ?_⟩
      have hwriting : c.thread t = .writing := by
        by_cases hempty : s.buffer t = []
        · rw [(hf.lag t).of_empty hempty, hpc]
        · exact ((hf.lag t).waiting hempty).1
      simp only [Function.update_self, hwriting]
      exact .of_waiting (List.append_ne_nil_of_right_ne_nil _ (List.cons_ne_nil _ _)) (Or.inl rfl)
  | @locked t l m pc haccess hempty hstep =>
      exact hf.same_step hempty hok hstep rfl (Function.update_self ..) hempty
        fun u hu => ⟨Function.update_of_ne hu .., rfl⟩
  | @drain t w ws hbuffer => exact hf.drain_step hbuffer

theorem init : Follows (buffered Tid data).machine.init (program Tid data).machine.init :=
  ⟨fun _ => rfl, rfl, fun _ => .same _⟩

end Follows

/-! ### Snapshots -/

/-- The accepting load reads the sequence through the buffer of the reader. -/
theorem readRetry_of_next {log : List (ι × V)} (hnext : (buffered Tid data).machine.next s (.step t l) = some s')
    (haccept : (s'.thread t).accepted = some log) :
    ∃ reader, s.thread t = .readRetry reader ((buffered Tid data).view s t).sequence log := by
  cases TsoProgram.transition_of_next hnext with
  | load haccess hstep =>
      simp only [Function.update_self] at haccept
      exact readRetry_of_accepted hstep haccept
  | store haccess hstep =>
      obtain ⟨-, -, rfl⟩ := store_cases haccess hstep
      simp only [Function.update_self] at haccept
      cases haccept
  | locked haccess hempty hstep =>
      simp only [Function.update_self] at haccept
      rw [(buffered Tid data).view_of_empty hempty]
      exact readRetry_of_accepted hstep haccept

/-- **Accepted attempts are snapshots with store buffers**: when `read_transaction` returns or `retry`
answers `false`, no write is in progress at the accepting load, no store waits, and the attempt has
loaded the words that are in memory. -/
theorem seqlock_consistent_tso {w w' : TsoState Tid ι V × History Tid}
    (hreach : (observedTso data).Reachable (fun w a w' => serializedTso w.1 a w'.1) w)
    (hnext : (observedTso data).next w (.step t l) = some w') {log : List (ι × V)}
    (haccept : (w'.1.thread t).accepted = some log) (hfew : w.2.completed - w.2.began t < 2 ^ 31) :
    (∀ u, (w.1.thread u).midWrite = false ∧ w.1.buffer u = []) ∧
      ∀ i v, (i, v) ∈ log → w.1.mem.words i = v := by
  obtain ⟨⟨c, h⟩, hdirect, hf, hh⟩ := hreach.follow (machine data) sound
    (fun w d => Follows w.1 d.1 ∧ d.2 = w.2) ⟨.init, rfl⟩ (by
      rintro ⟨s, h⟩ a ⟨s', h'⟩ ⟨c, _⟩ - - ⟨hf, rfl⟩ hnext hok
      obtain ⟨hnext, hh⟩ := Machine.observe_next hnext
      obtain ⟨c', hlead, hf'⟩ := hf.next hnext hok
      exact ⟨_, hlead, hf', hh.symm⟩)
  obtain rfl : h = w.2 := hh
  obtain ⟨reader, hpc⟩ := readRetry_of_next (Machine.observe_next hnext).1 haccept
  have hempty : w.1.buffer t = [] := by
    by_contra hne
    rcases ((hf.lag t).waiting hne).2 with hwrite | hwrite <;> rw [hpc] at hwrite <;> cases hwrite
  rw [(buffered Tid data).view_of_empty hempty] at hpc
  have hatt : (c.thread t).attempt = some (c.mem.sequence, log) := by
    rw [(hf.lag t).of_empty hempty, hpc, hf.mem]
    rfl
  obtain ⟨hnot, hwords⟩ := (inv_of_reachable hdirect).snapshot hatt hfew
  rw [hf.mem] at hwords
  refine ⟨fun u => ?_, hwords⟩
  have hmid : (w.1.thread u).midWrite = false := by
    cases hu : (c.thread u).midWrite with
    | false => rwa [← (hf.lag u).midWrite]
    | true => exact absurd ⟨u, hu⟩ hnot
  refine ⟨hmid, ?_⟩
  by_contra hne
  rcases ((hf.lag u).waiting hne).2 with hpc | hpc <;> rw [hpc] at hmid <;> cases hmid

/-- Both stores of thread `a` wait while `b` reads the old words; they reach memory before the second
`fetch_add`, and the attempt of `b` is repeated. -/
def delayedRun : List (TsoAct Runner (Label Bool ℕ)) :=
  [.step .b .readTransaction, .step .b .run, .step .b (.load true), .step .a .writeBegin, .step .a .run,
    .step .a (.store true 1), .step .a (.store false 1), .step .a .writeEnd, .step .b (.load false),
    .drain .a, .drain .a, .step .a .run, .step .b .readRetry, .step .b .run, .step .b .run,
    .step .b (.load false), .step .b (.load true), .step .b .readRetry]

theorem seqlock_consistent_tso_delayed : ∃ w w' : TsoState Runner Bool ℕ × History Runner,
    w'.1.thread .b = .returned [(false, 1), (true, 1)] ∧ w.1.mem.words true = 1 :=
  let M : Machine (TsoState Runner Bool ℕ × History Runner) (TsoAct Runner (Label Bool ℕ)) :=
    observedTso fun _ => 0
  let w := (M.run (fun w a w' => serializedTso w.1 a w'.1) M.init delayedRun).get (by decide)
  let w' := (M.next w (.step .b .run)).get (by decide)
  have hnext : M.next w (.step .b .run) = some w' := (Option.some_get _).symm
  have haccept : (w'.1.thread .b).accepted = some [(false, 1), (true, 1)] := by decide
  ⟨w, w', by decide, (seqlock_consistent_tso (.of_run _ _) hnext haccept (by decide)).2 true 1 (by decide)⟩

end Psync.SeqLock
