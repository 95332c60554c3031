import Psync.OnceModel
import Psync.RunBatch
import Psync.RunTso

/-! `call_once` on a processor with store buffers (x86-TSO). The stores of a callable and the stores to the
flag are plain, and so is the load of the fast path; only the CAS is locked.

Whoever finds the value 2 finds all that the completed callable has stored: both go through one buffer, in this
order, and no thread but the one that has won the CAS has stores that wait. The system calls are steps that
leave memory, and `futex::wait` may return at any time. -/

namespace Psync.Once

open Concurrency

set_option linter.unusedSectionVars false

variable {Tid ι V K : Type*}

/-- The next step of a callable on the words. -/
inductive Instr (ι V K : Type*)
  | load (i : ι) (next : V → K)
  | store (i : ι) (v : V) (next : K)
  | complete
  | throw

/-- A plain store. -/
inductive Write (ι V : Type*)
  | word (i : ι) (v : V)
  | flag (state : U32)

def Write.isWord : Write ι V → Bool
  | .word .. => true
  | .flag _ => false

/-- A thread, and the callable of its call: where it began and where it is. -/
structure Caller (K : Type*) where
  pc : Pc
  callable : Option (K × K)
  deriving DecidableEq

inductive CallLabel (K : Type*)
  | callOnce (first : K)
  | run

variable [DecidableEq ι] (code : K → Instr ι V K)

/-- The callable. -/
def func (_ : Unit) (p : K × (ι → V)) : Option (K × (ι → V)) :=
  match code p.1 with
  | .load i next => some (next (p.2 i), p.2)
  | .store i v next => some (next, Function.update p.2 i v)
  | .complete | .throw => none

def Write.apply (w : Write ι V) (m : U32 × (ι → V)) : U32 × (ι → V) :=
  match w with
  | .word i v => (m.1, Function.update m.2 i v)
  | .flag state => (state, m.2)

/-- One step inside the callable. -/
def callableStep (first k : K) (m : U32 × (ι → V)) : (U32 × (ι → V)) × Caller K :=
  match code k with
  | .load i next => (m, ⟨.callable, some (first, next (m.2 i))⟩)
  | .store i v next => ((m.1, Function.update m.2 i v), ⟨.callable, some (first, next)⟩)
  | .complete => (m, ⟨.store, some (first, k)⟩)
  | .throw => (m, ⟨.reset, some (first, k)⟩)

def callStep (l : CallLabel K) (m : U32 × (ι → V)) (c : Caller K) : Option ((U32 × (ι → V)) × Caller K) :=
  match l with
  | .callOnce first => if c.pc = .idle then some (m, ⟨.load, some (first, first)⟩) else none
  | .run => match c.pc with
    | .callable => c.callable.map fun p => callableStep code p.1 p.2 m
    | .futexWait => some (m, { c with pc := .cas })
    | .wakeAll | .wakeReset => some (m, { c with pc := .idle })
    | pc => (Once.run m.1 pc).map fun r => ((r.1, m.2), { c with pc := r.2 })

def Instr.access : Instr ι V K → Access (Write ι V)
  | .store i v _ => .store (.word i v)
  | .load .. | .complete | .throw => .load

def access (l : CallLabel K) (c : Caller K) : Access (Write ι V) :=
  match l, c.pc with
  | .run, .cas => .locked
  | .run, .store => .store (.flag 2)
  | .run, .reset => .store (.flag 0)
  | .run, .callable => c.callable.elim .load fun p => (code p.2).access
  | _, _ => .load

theorem callStep_does {l : CallLabel K} {m m' : U32 × (ι → V)} {c c' : Caller K}
    (h : callStep code l m c = some (m', c')) : (access code l c).Does Write.apply m m' := by
  obtain ⟨pc, callable⟩ := c
  cases l with
  | callOnce first =>
      simp only [callStep, Option.ite_none_right_eq_some] at h
      obtain ⟨-, h⟩ := h
      cases h
      rfl
  | run =>
      cases pc with
      | idle => cases h
      | cas => trivial
      | callable =>
          obtain ⟨⟨first, k⟩, rfl, hcall⟩ := Option.map_eq_some_iff.mp h
          change (code k).access.Does Write.apply m m'
          rw [callableStep] at hcall
          cases hcode : code k <;> rw [hcode] at hcall <;> cases hcall <;> rfl
      | load | store | reset | futexWait | wakeAll | wakeReset =>
          cases h
          rfl

/-- The threads on one `OnceFlag` whose callables work on the words `x`, with their store buffers. -/
def buffered (Tid : Type*) (x : ι → V) : TsoProgram Tid (U32 × (ι → V)) (Write ι V) (Caller K) (CallLabel K) where
  mem := (0, x)
  start := ⟨.idle, none⟩
  apply := Write.apply
  step _ := callStep code
  access := access code
  does := callStep_does code

abbrev TsoState (Tid ι V K : Type*) := TsoConfig Tid (U32 × (ι → V)) (Write ι V) (Caller K)

/-- The callables that have ended, and the threads with a call that has returned. -/
structure TsoHistory (Tid K : Type*) where
  log : List (Batch Tid Unit K)
  returned : Tid → Bool

/-- What the step of thread `t` ends. -/
def ended (t : Tid) (c c' : Caller K) : List (Batch Tid Unit K) :=
  match c.pc, c.callable with
  | .callable, some (first, k) => if c'.pc = .callable then [] else [⟨t, (), first, k⟩]
  | _, _ => []

variable [DecidableEq Tid]

/-- A call that ends returns, unless it has reset the flag. -/
def recordTso (h : TsoHistory Tid K) (s : TsoState Tid ι V K) (a : TsoAct Tid (CallLabel K))
    (s' : TsoState Tid ι V K) : TsoHistory Tid K :=
  match a with
  | .step t _ => ⟨h.log ++ ended t (s.thread t) (s'.thread t),
      if (s'.thread t).pc = .idle ∧ (s.thread t).pc ≠ .wakeReset then Function.update h.returned t true
      else h.returned⟩
  | .drain _ => h

def observedTso (x : ι → V) : Machine (TsoState Tid ι V K × TsoHistory Tid K) (TsoAct Tid (CallLabel K)) :=
  (buffered code Tid x).machine.observe ⟨[], fun _ => false⟩ recordTso

/-! ### The invariant -/

/-- A thread and its buffer. -/
abbrev Spot (ι V K : Type*) := Caller K × List (Write ι V)

def spot (s : TsoState Tid ι V K) (t : Tid) : Spot ι V K := (s.thread t, s.buffer t)

/-- The thread has won the CAS, and its store to the flag has not reached memory. -/
def Owns (p : Spot ι V K) : Prop := p.1.pc.inside = true ∨ p.2 ≠ []

/-- The callable of the thread has been completed, and memory does not say so yet. -/
def Settles (p : Spot ι V K) : Prop := p.1.pc = .store ∨ .flag 2 ∈ p.2

/-- The thread has called `call_once` and not won the CAS. -/
def Pc.calling : Pc → Bool
  | .load | .cas | .futexWait => true
  | _ => false

/-- What a buffer may hold, and what a thread knows of the flag. -/
structure Place (flag : U32) (p : Spot ι V K) (returned : Bool) : Prop where
  inside : p.1.pc.inside = true → ∀ w ∈ p.2, w.isWord = true
  outside : p.1.pc.inside = false → p.2 = [] ∨ ∃ (words : List (Write ι V)) (v : U32),
    p.2 = words ++ [.flag v] ∧ (∀ w ∈ words, w.isWord = true) ∧ (v = 0 ∨ v = 2)
  done : returned = true ∨ p.1.pc = .wakeAll → flag = 2 ∨ .flag 2 ∈ p.2
  begun : p.1.pc.calling = true → ∃ first, p.1.callable = some (first, first)

/-- A callable has been completed. -/
def Finished (s : TsoState Tid ι V K) : Prop := s.mem.1 = 2 ∨ ∃ t, Settles (spot s t)

def Failed (log : List (Batch Tid Unit K)) : Prop := ∀ b ∈ log, code b.last = .throw

/-- Only the last callable has been completed. -/
def Done (log : List (Batch Tid Unit K)) : Prop :=
  ∃ before b, log = before ++ [b] ∧ Failed code before ∧ code b.last = .complete

def Caller.stage (c : Caller K) : BatchStage Unit K :=
  match c.pc, c.callable with
  | .callable, some (first, k) => .inside () first k
  | _, _ => .outside

/-- No store of another thread waits. -/
def OthersDrained (s : TsoState Tid ι V K) (t : Tid) : Prop := ∀ u, u ≠ t → s.buffer u = []

structure TsoInv (x : ι → V) (s : TsoState Tid ι V K) (h : TsoHistory Tid K) : Prop where
  guard : Guards (s.mem.1 = 1) Owns (spot s)
  word : s.mem.1 = 0 ∨ s.mem.1 = 1 ∨ s.mem.1 = 2
  place : ∀ t, Place s.mem.1 (spot s t) (h.returned t)
  done : Finished s → Done code h.log
  failed : ¬ Finished s → Failed code h.log
  serial : ∃ y, Serializable (func code) (fun _ => true) x (fun t => (s.thread t).stage) y h.log ∧
    ∀ t, OthersDrained s t → ((buffered code Tid x).view s t).2 = y

variable {code} {x : ι → V} {s s' : TsoState Tid ι V K} {h : TsoHistory Tid K} {t u : Tid}
  {l : CallLabel K} {m : U32 × (ι → V)} {c c' : Caller K} {p : Spot ι V K} {ws : List (Write ι V)} {w : Write ι V}

/-- A thread that finds a value has it in its buffer or in memory. -/
theorem flag_of_flush {v : U32} (hflag : ((buffered code Tid x).flush ws m).1 = v) :
    m.1 = v ∨ .flag v ∈ ws := by
  induction ws using List.reverseRecOn with
  | nil => exact Or.inl hflag
  | append_singleton ws w ih =>
      rw [TsoProgram.flush_concat] at hflag
      cases w with
      | word i v' => exact (ih hflag).imp_right (List.mem_append_left _)
      | flag v' =>
          obtain rfl : v' = v := hflag
          exact Or.inr (List.mem_append_right _ (List.mem_singleton_self _))

theorem notMem_flag {v : U32} (hwords : ∀ w ∈ ws, w.isWord = true) : Write.flag v ∉ ws := by
  intro hmem
  cases hwords _ hmem

/-- All threads that no other thread's stores are kept from see the same. -/
theorem view_eq (ht : OthersDrained s t) (hu : OthersDrained s u) :
    (buffered code Tid x).view s u = (buffered code Tid x).view s t := by
  by_cases hut : u = t
  · rw [hut]
  · rw [TsoProgram.view_of_empty _ (ht u hut), TsoProgram.view_of_empty _ (hu t (Ne.symm hut))]

theorem not_inside_of_stage (hin : c.pc ≠ .callable) (mode : Unit) (first k : K) :
    c.stage ≠ .inside mode first k := by
  obtain ⟨pc, callable⟩ := c
  cases pc <;> first | exact absurd rfl hin | (intro hstage; cases hstage)

theorem stage_update (f : Tid → Caller K) :
    (fun u => (Function.update f t c u).stage) = Function.update (fun u => (f u).stage) t c.stage := by
  funext u
  exact Function.apply_update (fun _ => Caller.stage) f t c u

theorem of_outside {pc : Pc} (hin : pc.inside = false) : pc ≠ .store ∧ pc ≠ .callable := by
  constructor
  · rintro rfl
    cases hin
  · rintro rfl
    cases hin

theorem Settles.owns (hsettles : Settles p) : Owns p := by
  rcases hsettles with hpc | hmem
  · exact Or.inl (by rw [hpc]; rfl)
  · exact Or.inr (List.ne_nil_of_mem hmem)

/-- A step of a thread that keeps what it settles. -/
theorem finished_update (hspot : spot s' = Function.update (spot s) t p) (hmem : s'.mem.1 = s.mem.1)
    (hp : Settles p ↔ Settles (spot s t)) : Finished s' ↔ Finished s := by
  rw [Finished, Finished, hmem, hspot]
  refine or_congr_right (exists_congr fun u => ?_)
  rw [Function.update_apply]
  split_ifs with hut
  · rw [hut]
    exact hp
  · exact Iff.rfl

namespace TsoInv

theorem others_drained (h' : TsoInv code x s h) (howns : Owns (spot s t)) : OthersDrained s t := by
  intro u hut
  by_contra hne
  exact hut (h'.guard.unique u t (Or.inr hne) howns)

theorem nobody (h' : TsoInv code x s h) (hflag : s.mem.1 ≠ 1) (t : Tid) : ¬ Owns (spot s t) :=
  fun howns => hflag (h'.guard.iff.mpr ⟨t, howns⟩)

theorem one (h' : TsoInv code x s h) (howns : Owns (spot s t)) : s.mem.1 = 1 := h'.guard.iff.mpr ⟨t, howns⟩

/-- While a thread owns the flag it alone decides. -/
theorem finished_iff (h' : TsoInv code x s h) (howns : Owns (spot s t)) : Finished s ↔ Settles (spot s t) := by
  constructor
  · rintro (htwo | ⟨u, hu⟩)
    · rw [h'.one howns] at htwo
      exact absurd htwo (by decide)
    · rwa [← h'.guard.unique u t hu.owns howns]
  · exact fun hsettles => Or.inr ⟨t, hsettles⟩

theorem exclusive (h' : TsoInv code x s h) : Exclusive (fun _ => true) fun t => (s.thread t).stage := by
  intro t u a b first k first' k' hne ht hu
  have hinside : ∀ {v mode first k}, (s.thread v).stage = .inside mode first k → Owns (spot s v) := by
    intro v mode first k hv
    by_cases hpc : (s.thread v).pc = .callable
    · exact Or.inl (by rw [spot, hpc]; rfl)
    · exact absurd hv (not_inside_of_stage hpc mode first k)
  exact absurd (h'.guard.unique t u (hinside ht) (hinside hu)) hne

theorem place_update {flag : U32} {r : Tid → Bool} (hp : Place flag p (r t))
    (hothers : ∀ u, u ≠ t → Place flag (spot s u) (r u)) (u : Tid) :
    Place flag (Function.update (spot s) t p u) (r u) := by
  rw [Function.update_apply]
  split_ifs with hut
  · rw [hut]
    exact hp
  · exact hothers u hut

theorem spot_thread : spot { s with thread := Function.update s.thread t c } =
    Function.update (spot s) t (c, s.buffer t) := by
  funext u
  simp only [spot, Function.update_apply]
  split_ifs with hut
  · rw [hut]
  · rfl

theorem spot_store : spot { s with
      buffer := Function.update s.buffer t ws
      thread := Function.update s.thread t c } = Function.update (spot s) t (c, ws) := by
  funext u
  simp only [spot, Function.update_apply]
  split_ifs <;> rfl

/-! ### The steps -/

/-- A step outside the section that the flag guards. -/
theorem quiet {r : Tid → Bool} (h' : TsoInv code x s h) (hin : (s.thread t).pc.inside = false)
    (hin' : c.pc.inside = false) (hplace : Place s.mem.1 (c, s.buffer t) (r t))
    (hothers : ∀ u, u ≠ t → r u = h.returned u) :
    TsoInv code x { s with thread := Function.update s.thread t c } ⟨h.log, r⟩ := by
  have hfinished : Finished { s with thread := Function.update s.thread t c } ↔ Finished s :=
    finished_update spot_thread rfl (or_congr_left (iff_of_false (of_outside hin').1 (of_outside hin).1))
  obtain ⟨y, hserial, hview⟩ := h'.serial
  refine ⟨?_, h'.word, ?_, fun hf => h'.done (hfinished.mp hf), fun hf => h'.failed (hf ∘ hfinished.mpr),
    y, ?_, hview⟩
  · rw [spot_thread]
    exact h'.guard.same Iff.rfl (or_congr_left (by rw [hin', spot, hin]))
  · rw [spot_thread]
    refine place_update hplace fun u hut => ?_
    have hold := h'.place u
    rwa [← hothers u hut] at hold
  · simp only [stage_update]
    exact hserial.quiet (not_inside_of_stage (of_outside hin).2) (not_inside_of_stage (of_outside hin').2)

/-- The data after a step that leaves nobody else's store waiting. -/
theorem serial_of {y : ι → V} {log : List (Batch Tid Unit K)} (hothers : OthersDrained s' t)
    (hview : ((buffered code Tid x).view s' t).2 = y)
    (hserial : Serializable (func code) (fun _ => true) x (fun u => (s'.thread u).stage) y log) :
    ∃ y, Serializable (func code) (fun _ => true) x (fun u => (s'.thread u).stage) y log ∧
      ∀ u, OthersDrained s' u → ((buffered code Tid x).view s' u).2 = y :=
  ⟨y, hserial, fun u hu => by rw [view_eq hothers hu, hview]⟩

/-- A callable takes a step. -/
theorem work {first k k' : K} (h' : TsoInv code x s h) (hthread : s.thread t = ⟨.callable, some (first, k)⟩)
    (hspot : spot s' = Function.update (spot s) t (⟨.callable, some (first, k')⟩, ws))
    (hwords : ∀ w ∈ ws, w.isWord = true) (hmem : s'.mem.1 = s.mem.1)
    (hfunc : func code () (k, ((buffered code Tid x).view s t).2) =
      some (k', ((buffered code Tid x).view s' t).2)) : TsoInv code x s' h := by
  have hpc : (spot s t).1.pc = .callable := congrArg Caller.pc hthread
  have howns : Owns (spot s t) := Or.inl (by rw [hpc]; rfl)
  have hplace := h'.place t
  have hfinished : Finished s' ↔ Finished s := by
    refine finished_update hspot hmem (iff_of_false ?_ ?_)
    · rintro (hstore | hflag)
      · cases hstore
      · exact notMem_flag hwords hflag
    · rintro (hstore | hflag)
      · rw [hpc] at hstore
        cases hstore
      · exact notMem_flag (hplace.inside (by rw [hpc]; rfl)) hflag
  obtain ⟨y, hserial, hview⟩ := h'.serial
  have hdrained := h'.others_drained howns
  have hspots : ∀ u, u ≠ t → spot s' u = spot s u := fun u hut => by rw [hspot, Function.update_of_ne hut]
  refine ⟨?_, hmem ▸ h'.word, ?_, fun hf => h'.done (hfinished.mp hf), fun hf => h'.failed (hf ∘ hfinished.mpr),
    serial_of (t := t) (fun u hut => ?_) rfl ?_⟩
  · rw [hspot]
    exact h'.guard.same (by rw [hmem]) (iff_of_true (Or.inl rfl) howns)
  · rw [hspot, hmem]
    refine place_update ⟨fun _ => hwords, fun hout => (by cases hout), fun hdone => ?_,
      fun hcalling => (by cases hcalling)⟩ fun u _ => h'.place u
    -- a thread that has returned does not own the flag
    rcases hdone with hreturned | hwake
    · refine (hplace.done (Or.inl hreturned)).imp_right fun hflag => ?_
      exact absurd hflag (notMem_flag (hplace.inside (by rw [hpc]; rfl)))
    · cases hwake
  · have hu := congrArg Prod.snd (hspots u hut)
    exact Eq.trans hu (hdrained u hut)
  · have hstage : (s.thread t).stage = .inside () first k := by
      rw [hthread]
      rfl
    have hnew : (fun u => (s'.thread u).stage) =
        Function.update (fun u => (s.thread u).stage) t (.inside () first k') := by
      funext u
      have hu := congrArg (fun p : Spot ι V K => p.1.stage) (congrFun hspot u)
      rw [Function.update_apply] at hu ⊢
      split_ifs at hu ⊢
      · exact hu
      · exact hu
    rw [hnew]
    rw [hview t hdrained] at hfunc
    exact hserial.work hstage hfunc (fun hwrites => by cases hwrites) h'.exclusive

/-- A callable ends. -/
theorem finish {first k : K} {pc : Pc} (h' : TsoInv code x s h)
    (hthread : s.thread t = ⟨.callable, some (first, k)⟩)
    (hend : code k = .complete ∧ pc = .store ∨ code k = .throw ∧ pc = .reset) :
    TsoInv code x { s with thread := Function.update s.thread t ⟨pc, some (first, k)⟩ }
      ⟨h.log ++ [⟨t, (), first, k⟩], h.returned⟩ := by
  have hpc : (spot s t).1.pc = .callable := congrArg Caller.pc hthread
  have howns : Owns (spot s t) := Or.inl (by rw [hpc]; rfl)
  have hwords := (h'.place t).inside (by rw [hpc]; rfl)
  have hin : pc.inside = true := by rcases hend with ⟨-, rfl⟩ | ⟨-, rfl⟩ <;> rfl
  have hunsettled : ¬ Settles (spot s t) := by
    rintro (hstore | hflag)
    · rw [hpc] at hstore
      cases hstore
    · exact notMem_flag hwords hflag
  have hfailed := h'.failed ((h'.finished_iff howns).not.mpr hunsettled)
  obtain ⟨y, hserial, hview⟩ := h'.serial
  have hfunc : func code () (k, y) = none := by
    rcases hend with ⟨hcode, -⟩ | ⟨hcode, -⟩ <;> simp only [func, hcode]
  have hstage : (s.thread t).stage = .inside () first k := by
    rw [hthread]
    rfl
  refine ⟨?_, h'.word, ?_, fun hf => ?_, fun hf => ?_, y, ?_, hview⟩
  · rw [spot_thread]
    exact h'.guard.same Iff.rfl (iff_of_true (Or.inl hin) howns)
  · rw [spot_thread]
    refine place_update ⟨fun _ => hwords, fun hout => ?_, fun hdone => ?_, fun hcalling => ?_⟩ fun u _ => h'.place u
    · rw [show pc.inside = false from hout] at hin
      cases hin
    · rcases hdone with hreturned | hwake
      · exact (h'.place t).done (Or.inl hreturned)
      · rw [show pc = .wakeAll from hwake] at hin
        cases hin
    · rcases hend with ⟨-, rfl⟩ | ⟨-, rfl⟩ <;> cases hcalling
  · rcases hend with ⟨hcode, -⟩ | ⟨-, rfl⟩
    · exact ⟨h.log, ⟨t, (), first, k⟩, rfl, hfailed, hcode⟩
    · refine absurd (h'.done ((finished_update spot_thread rfl (iff_of_false ?_ hunsettled)).mp hf)) ?_
      · rintro (hstore | hflag)
        · cases hstore
        · exact notMem_flag hwords hflag
      · rintro ⟨before, b, hlog, -, hcode⟩
        rw [hfailed b (by rw [hlog]; exact List.mem_append_right _ (List.mem_singleton_self b))] at hcode
        cases hcode
  · rcases hend with ⟨-, rfl⟩ | ⟨hcode, -⟩
    · refine absurd (Or.inr ⟨t, ?_⟩) hf
      rw [spot_thread, Function.update_self]
      exact Or.inl rfl
    · intro b hb
      rcases List.mem_append.mp hb with hb | hb
      · exact hfailed b hb
      · rw [List.mem_singleton.mp hb]
        exact hcode
  · simp only [stage_update]
    refine hserial.finish hstage hfunc (not_inside_of_stage ?_) h'.exclusive
    rcases hend with ⟨-, rfl⟩ | ⟨-, rfl⟩
    · exact Pc.noConfusion
    · exact Pc.noConfusion

/-- The store to the flag is made, and waits. -/
theorem store (h' : TsoInv code x s h) (v : U32) (pc : Pc)
    (hend : (s.thread t).pc = .store ∧ v = 2 ∧ pc = .wakeAll ∨ (s.thread t).pc = .reset ∧ v = 0 ∧ pc = .wakeReset) :
    TsoInv code x { s with
      buffer := Function.update s.buffer t (s.buffer t ++ [.flag v])
      thread := Function.update s.thread t ⟨pc, (s.thread t).callable⟩ } h := by
  have hin : (spot s t).1.pc.inside = true := by
    rcases hend with ⟨hpc, -⟩ | ⟨hpc, -⟩ <;> rw [spot, hpc] <;> rfl
  have hout : pc.inside = false := by rcases hend with ⟨-, -, rfl⟩ | ⟨-, -, rfl⟩ <;> rfl
  have howns : Owns (spot s t) := Or.inl hin
  have hplace := h'.place t
  have hwords := hplace.inside hin
  have hmem : Write.flag v ∈ s.buffer t ++ [.flag v] := List.mem_append_right _ (List.mem_singleton_self _)
  have hfinished : Finished { s with
      buffer := Function.update s.buffer t (s.buffer t ++ [.flag v])
      thread := Function.update s.thread t ⟨pc, (s.thread t).callable⟩ } ↔ Finished s := by
    refine finished_update spot_store rfl ?_
    rcases hend with ⟨hpc, rfl, -⟩ | ⟨hpc, rfl, rfl⟩
    · exact iff_of_true (Or.inr hmem) (Or.inl hpc)
    · refine iff_of_false ?_ ?_
      · rintro (hstore | hflag)
        · cases hstore
        · rcases List.mem_append.mp hflag with hflag | hflag
          · exact notMem_flag hwords hflag
          · exact absurd (Write.flag.inj (List.mem_singleton.mp hflag)) (by decide)
      · rintro (hstore | hflag)
        · rw [show (s.thread t).pc = .store from hstore] at hpc
          cases hpc
        · exact notMem_flag hwords hflag
  obtain ⟨y, hserial, hview⟩ := h'.serial
  refine ⟨?_, h'.word, ?_, fun hf => h'.done (hfinished.mp hf), fun hf => h'.failed (hf ∘ hfinished.mpr),
    serial_of (t := t) (y := y) (fun u hut => ?_) ?_ ?_⟩
  · rw [spot_store]
    exact h'.guard.same Iff.rfl (iff_of_true (Or.inr (List.ne_nil_of_mem hmem)) howns)
  · rw [spot_store]
    refine place_update ⟨fun hnot => ?_, fun _ => Or.inr ⟨_, v, rfl, hwords, ?_⟩, fun hdone => ?_,
      fun hcalling => ?_⟩ fun u _ => h'.place u
    · rw [show pc.inside = true from hnot] at hout
      cases hout
    · rcases hend with ⟨-, hv, -⟩ | ⟨-, hv, -⟩
      · exact Or.inr hv
      · exact Or.inl hv
    · rcases hdone with hreturned | hwake
      · exact (hplace.done (Or.inl hreturned)).imp_right (List.mem_append_left _)
      · rcases hend with ⟨-, rfl, -⟩ | ⟨-, -, rfl⟩
        · exact Or.inr hmem
        · cases hwake
    · rcases hend with ⟨-, -, rfl⟩ | ⟨-, -, rfl⟩ <;> cases hcalling
  · simp only [Function.update_of_ne hut]
    exact h'.others_drained howns u hut
  · rw [← hview t (h'.others_drained howns)]
    simp only [TsoProgram.view, Function.update_self, TsoProgram.flush_concat]
    rfl
  · simp only [stage_update]
    refine hserial.quiet (not_inside_of_stage fun hpc => ?_) (not_inside_of_stage (of_outside hout).2)
    rcases hend with ⟨hstore, -⟩ | ⟨hstore, -⟩ <;> rw [hpc] at hstore <;> cases hstore

/-- The CAS wins. -/
theorem win (h' : TsoInv code x s h) (first : K) (hfree : s.mem.1 = 0)
    (hold : (s.thread t).pc ≠ .callable) :
    TsoInv code x { s with
      mem := (1, s.mem.2)
      thread := Function.update s.thread t ⟨.callable, some (first, first)⟩ } h := by
  have hne : s.mem.1 ≠ 1 := by
    rw [hfree]
    decide
  have hnobody := h'.nobody hne
  have hempty : ∀ u, s.buffer u = [] := fun u => by
    by_contra hbuffer
    exact hnobody u (Or.inr hbuffer)
  have hspot : spot { s with
      mem := (1, s.mem.2)
      thread := Function.update s.thread t ⟨.callable, some (first, first)⟩ } =
      Function.update (spot s) t (⟨.callable, some (first, first)⟩, s.buffer t) := spot_thread
  have hplace : ∀ u, Place 1 (spot s u) (h.returned u) := fun u => by
    refine ⟨(h'.place u).inside, (h'.place u).outside, fun hdone => ?_, (h'.place u).begun⟩
    rcases (h'.place u).done hdone with htwo | hflag
    · rw [hfree] at htwo
      exact absurd htwo (by decide)
    · exact Or.inr hflag
  have hnone : ∀ u, ¬ Settles (Function.update (spot s) t (⟨.callable, some (first, first)⟩, s.buffer t) u) := by
    intro u
    rw [Function.update_apply]
    split_ifs
    · rintro (hstore | hflag)
      · cases hstore
      · rw [hempty t] at hflag
        cases hflag
    · exact fun hsettles => hnobody u hsettles.owns
  have hfailed : Failed code h.log := by
    refine h'.failed ?_
    rintro (htwo | ⟨u, hu⟩)
    · rw [hfree] at htwo
      exact absurd htwo (by decide)
    · exact hnobody u hu.owns
  obtain ⟨y, hserial, hview⟩ := h'.serial
  have hguard : Guards ((1 : U32) = 1) Owns
      (Function.update (spot s) t (⟨.callable, some (first, first)⟩, s.buffer t)) :=
    h'.guard.enter hne rfl (Or.inl rfl)
  refine ⟨?_, Or.inr (Or.inl rfl), ?_, fun hf => ?_, fun _ => hfailed,
    serial_of (t := t) (y := y) (fun u _ => hempty u) ?_ ?_⟩
  · rw [hspot]
    exact hguard
  · rw [hspot]
    refine place_update ⟨fun _ => ?_, fun hout => (by cases hout), fun hdone => ?_,
      fun hcalling => (by cases hcalling)⟩ fun u _ => hplace u
    · rw [hempty t]
      exact List.forall_mem_nil _
    · rcases hdone with hreturned | hwake
      · exact (hplace t).done (Or.inl hreturned)
      · cases hwake
  · rcases hf with htwo | ⟨u, hu⟩
    · exact absurd htwo (show (1 : U32) ≠ 2 by decide)
    · rw [hspot] at hu
      exact absurd hu (hnone u)
  · rw [← hview t fun u _ => hempty u, TsoProgram.view_of_empty _ (hempty t)]
    simp only [TsoProgram.view, hempty]
    rfl
  · simp only [stage_update]
    refine hserial.enter (not_inside_of_stage hold) fun u v a b k l k' l' huv hu hv => ?_
    have honly : ∀ {u mode k l}, Function.update (fun u => (s.thread u).stage) t
        (Caller.stage ⟨.callable, some (first, first)⟩) u = .inside mode k l → u = t := by
      intro u mode k l hstage
      by_contra hut
      rw [Function.update_of_ne hut] at hstage
      refine not_inside_of_stage (fun hpc => hnobody u (Or.inl ?_)) mode k l hstage
      rw [spot, hpc]
      rfl
    exact absurd ((honly hu).trans (honly hv).symm) huv

/-- The oldest store of the owner reaches memory. -/
theorem drain (h' : TsoInv code x s h) (hbuffer : s.buffer t = w :: ws) :
    TsoInv code x { s with mem := w.apply s.mem, buffer := Function.update s.buffer t ws } h := by
  have howns : Owns (spot s t) := Or.inr (by rw [spot, hbuffer]; exact List.cons_ne_nil _ _)
  have hone := h'.one howns
  have hplace := h'.place t
  have hdrained := h'.others_drained howns
  have hspot : spot { s with mem := w.apply s.mem, buffer := Function.update s.buffer t ws } =
      Function.update (spot s) t (s.thread t, ws) := by
    funext u
    simp only [spot, Function.update_apply]
    split_ifs with hut
    · rw [hut]
    · rfl
  obtain ⟨y, hserial, hview⟩ := h'.serial
  have hothers : OthersDrained { s with mem := w.apply s.mem, buffer := Function.update s.buffer t ws } t := by
    intro u hut
    simp only [Function.update_of_ne hut]
    exact hdrained u hut
  have hview' := congrArg Prod.snd (TsoProgram.view_drain (P := buffered code Tid x) hbuffer)
  rw [hview t hdrained] at hview'
  have hdata := serial_of hothers hview' hserial
  cases w with
  | word i v =>
      have hflag : ∀ {v : U32}, Write.flag v ∈ s.buffer t ↔ .flag v ∈ ws := by
        intro v
        rw [hbuffer, List.mem_cons]
        exact or_iff_right fun heq => (by cases heq)
      have hfinished : Finished { s with
          mem := Write.apply (.word i v) s.mem
          buffer := Function.update s.buffer t ws } ↔ Finished s :=
        finished_update hspot rfl (or_congr_right hflag.symm)
      have hshape : (s.thread t).pc.inside = false → ∃ (words : List (Write ι V)) (v : U32),
          ws = words ++ [.flag v] ∧ (∀ w ∈ words, w.isWord = true) ∧ (v = 0 ∨ v = 2) := by
        intro hout
        rcases hplace.outside hout with hnil | ⟨words, v', hlast, hwords, hv'⟩
        · rw [show (spot s t).2 = _ from hbuffer] at hnil
          cases hnil
        · rw [show (spot s t).2 = _ from hbuffer] at hlast
          cases words with
          | nil => cases hlast
          | cons w words =>
              exact ⟨words, v', (List.cons.inj hlast).2, fun w' hw' => hwords w' (List.mem_cons_of_mem _ hw'), hv'⟩
      refine ⟨?_, h'.word, ?_, fun hf => h'.done (hfinished.mp hf), fun hf => h'.failed (hf ∘ hfinished.mpr), hdata⟩
      · rw [hspot]
        refine h'.guard.same Iff.rfl (iff_of_true ?_ howns)
        cases hin : (s.thread t).pc.inside with
        | true => exact Or.inl hin
        | false =>
            obtain ⟨words, v', rfl, -⟩ := hshape hin
            exact Or.inr (List.append_ne_nil_of_right_ne_nil _ (List.cons_ne_nil _ _))
      · rw [hspot]
        refine place_update ⟨fun hin w' hw' => ?_, fun hout => Or.inr (hshape hout),
          fun hdone => (hplace.done hdone).imp_right hflag.mp, hplace.begun⟩ fun u _ => h'.place u
        exact hplace.inside hin w' (by rw [spot, hbuffer]; exact List.mem_cons_of_mem _ hw')
  | flag v =>
      -- nothing else waits
      have hout : (s.thread t).pc.inside = false := by
        cases hin : (s.thread t).pc.inside with
        | false => rfl
        | true => cases hplace.inside hin (.flag v) (by rw [spot, hbuffer]; exact List.mem_cons_self)
      obtain ⟨rfl, hv⟩ : ws = [] ∧ (v = 0 ∨ v = 2) := by
        rcases hplace.outside hout with hnil | ⟨words, v', hlast, hwords, hv'⟩
        · rw [show (spot s t).2 = _ from hbuffer] at hnil
          cases hnil
        · rw [show (spot s t).2 = _ from hbuffer] at hlast
          cases words with
          | nil =>
              cases hlast
              exact ⟨rfl, hv'⟩
          | cons w words =>
              obtain rfl := (List.cons.inj hlast).1
              cases hwords _ List.mem_cons_self
      have hflag : Settles (spot s t) ↔ v = 2 := by
        change (s.thread t).pc = .store ∨ .flag 2 ∈ s.buffer t ↔ v = 2
        rw [or_iff_right (of_outside hout).1, hbuffer, List.mem_singleton, Write.flag.injEq]
        exact eq_comm
      have hnobody : ∀ u, ¬ Owns (Function.update (spot s) t (s.thread t, []) u) := by
        intro u
        rw [Function.update_apply]
        split_ifs with hut
        · rintro (hin | hne)
          · rw [show (s.thread t).pc.inside = true from hin] at hout
            cases hout
          · exact hne rfl
        · exact fun hu => hut (h'.guard.unique u t hu howns)
      have hfinished : Finished { s with
          mem := Write.apply (.flag v) s.mem
          buffer := Function.update s.buffer t [] } ↔ v = 2 := by
        refine or_iff_left ?_
        rintro ⟨u, hu⟩
        rw [hspot] at hu
        exact hnobody u hu.owns
      have hsame := (h'.finished_iff howns).trans hflag
      have hknown : ∀ u, Place v (spot s u) (h.returned u) ∨ u = t := by
        intro u
        by_cases hut : u = t
        · exact Or.inr hut
        · refine Or.inl ⟨(h'.place u).inside, (h'.place u).outside, fun hdone => ?_, (h'.place u).begun⟩
          rcases (h'.place u).done hdone with htwo | hmem
          · rw [hone] at htwo
            exact absurd htwo (by decide)
          · rw [spot, hdrained u hut] at hmem
            cases hmem
      refine ⟨?_, hv.imp_right Or.inr, ?_, fun hf => h'.done (hsame.mpr (hfinished.mp hf)),
        fun hf => h'.failed (hf ∘ hfinished.mpr ∘ hsame.mp), hdata⟩
      · rw [hspot]
        refine h'.guard.leave howns ?_ ?_
        · rcases hv with rfl | rfl
          · exact show (0 : U32) ≠ 1 by decide
          · exact show (2 : U32) ≠ 1 by decide
        · have ht := hnobody t
          rwa [Function.update_self] at ht
      · rw [hspot]
        refine place_update ⟨fun hin => ?_, fun _ => Or.inl rfl, fun hdone => Or.inl ?_, hplace.begun⟩
          fun u hut => (hknown u).resolve_right hut
        · rw [show (s.thread t).pc.inside = true from hin] at hout
          cases hout
        · rcases hplace.done hdone with htwo | hmem
          · rw [hone] at htwo
            exact absurd htwo (by decide)
          · exact hflag.mp (Or.inr hmem)

/-! ### Runs -/

theorem ended_eq_nil (hpc : c.pc ≠ .callable) (c' : Caller K) : ended t c c' = [] := by
  obtain ⟨pc, callable⟩ := c
  cases pc <;> first | rfl | exact absurd rfl hpc

/-- A step outside the section that the flag guards, with what is recorded. -/
theorem quiet_step (h' : TsoInv code x s h) (hin : (s.thread t).pc.inside = false) (hin' : c.pc.inside = false)
    (hwake : c.pc ≠ .wakeAll)
    (hdone : c.pc = .idle → (s.thread t).pc ≠ .wakeReset → s.mem.1 = 2 ∨ .flag 2 ∈ s.buffer t)
    (hbegun : c.pc.calling = true → ∃ first, c.callable = some (first, first)) :
    TsoInv code x { s with thread := Function.update s.thread t c } ⟨h.log ++ ended t (s.thread t) c,
      if c.pc = .idle ∧ (s.thread t).pc ≠ .wakeReset then Function.update h.returned t true else h.returned⟩ := by
  have hplace := h'.place t
  rw [ended_eq_nil (of_outside hin).2, List.append_nil]
  refine h'.quiet hin hin' ⟨fun hnot => ?_, fun _ => hplace.outside hin, fun hreturned => ?_, hbegun⟩ fun u hut => ?_
  · rw [show c.pc.inside = true from hnot] at hin'
    cases hin'
  · rcases hreturned with hreturned | heq
    · split_ifs at hreturned with hends
      · exact hdone hends.1 hends.2
      · exact hplace.done (Or.inl hreturned)
    · exact absurd heq hwake
  · split_ifs
    · exact Function.update_of_ne hut ..
    · rfl

theorem callableStep_pc (first k : K) (m : U32 × (ι → V)) : (callableStep code first k m).2.pc ≠ .idle := by
  rw [callableStep]
  cases code k <;> exact Pc.noConfusion

/-- The steps that only load. -/
theorem load_step (h' : TsoInv code x s h) (haccess : access code l (s.thread t) = .load)
    (hstep : callStep code l ((buffered code Tid x).view s t) (s.thread t) =
      some ((buffered code Tid x).view s t, c)) :
    TsoInv code x { s with thread := Function.update s.thread t c } ⟨h.log ++ ended t (s.thread t) c,
      if c.pc = .idle ∧ (s.thread t).pc ≠ .wakeReset then Function.update h.returned t true else h.returned⟩ := by
  have hplace := h'.place t
  have hquiet := h'.quiet_step (t := t) (c := c)
  obtain ⟨pc, callable⟩ := c
  cases hthread : s.thread t with
  | mk pc₀ callable₀ =>
      rw [hthread] at haccess hstep hquiet
      rw [spot, hthread] at hplace
      cases l with
      | callOnce first =>
          simp only [callStep, Option.ite_none_right_eq_some] at hstep
          obtain ⟨rfl, hstep⟩ := hstep
          cases hstep
          exact hquiet rfl rfl Pc.noConfusion Pc.noConfusion fun _ => ⟨first, rfl⟩
      | run =>
          cases pc₀ with
          | idle => cases hstep
          | cas | store | reset => cases haccess
          | load =>
              obtain ⟨first, rfl⟩ := hplace.begun rfl
              by_cases hflag : ((buffered code Tid x).view s t).1 = 2
              · have hback : callStep code .run ((buffered code Tid x).view s t) ⟨.load, some (first, first)⟩ =
                    some ((buffered code Tid x).view s t, ⟨.idle, some (first, first)⟩) := by
                  simp only [callStep, run, if_pos hflag]
                  rfl
                cases hstep.symm.trans hback
                exact hquiet rfl rfl Pc.noConfusion (fun _ _ => flag_of_flush hflag) fun hcalling => (by cases hcalling)
              · have hon : callStep code .run ((buffered code Tid x).view s t) ⟨.load, some (first, first)⟩ =
                    some ((buffered code Tid x).view s t, ⟨.cas, some (first, first)⟩) := by
                  simp only [callStep, run, if_neg hflag]
                  rfl
                cases hstep.symm.trans hon
                exact hquiet rfl rfl Pc.noConfusion Pc.noConfusion fun _ => ⟨first, rfl⟩
          | futexWait =>
              obtain ⟨first, rfl⟩ := hplace.begun rfl
              cases hstep
              exact hquiet rfl rfl Pc.noConfusion Pc.noConfusion fun _ => ⟨first, rfl⟩
          | wakeAll =>
              cases hstep
              exact hquiet rfl rfl Pc.noConfusion (fun _ _ => hplace.done (Or.inr rfl))
                fun hcalling => (by cases hcalling)
          | wakeReset =>
              cases hstep
              exact hquiet rfl rfl Pc.noConfusion (fun _ hnot => absurd rfl hnot) fun hcalling => (by cases hcalling)
          | callable =>
              obtain ⟨⟨first, k⟩, rfl, hcall⟩ := Option.map_eq_some_iff.mp hstep
              have hreturned : ¬ (pc = .idle ∧ Pc.callable ≠ .wakeReset) := by
                rintro ⟨hpc, -⟩
                exact callableStep_pc first k _ ((congrArg (fun r => r.2.pc) hcall).trans hpc)
              rw [if_neg hreturned]
              cases hcode : code k with
              | load i next =>
                  rw [callableStep, hcode] at hcall
                  cases hcall
                  have hended : ended t (⟨.callable, some (first, k)⟩ : Caller K)
                      ⟨.callable, some (first, next (((buffered code Tid x).view s t).2 i))⟩ = [] := rfl
                  rw [hended, List.append_nil]
                  refine h'.work hthread spot_thread (hplace.inside rfl) rfl ?_
                  simp only [func, hcode]
                  rfl
              | store i v next =>
                  simp only [access, Option.elim_some, hcode] at haccess
                  cases haccess
              | complete =>
                  rw [callableStep, hcode] at hcall
                  cases hcall
                  exact h'.finish hthread (Or.inl ⟨hcode, rfl⟩)
              | throw =>
                  rw [callableStep, hcode] at hcall
                  cases hcall
                  exact h'.finish hthread (Or.inr ⟨hcode, rfl⟩)

/-- The plain stores. -/
theorem store_step (h' : TsoInv code x s h) (haccess : access code l (s.thread t) = .store w)
    (hstep : callStep code l ((buffered code Tid x).view s t) (s.thread t) =
      some (w.apply ((buffered code Tid x).view s t), c)) :
    TsoInv code x { s with
      buffer := Function.update s.buffer t (s.buffer t ++ [w])
      thread := Function.update s.thread t c } ⟨h.log ++ ended t (s.thread t) c,
      if c.pc = .idle ∧ (s.thread t).pc ≠ .wakeReset then Function.update h.returned t true else h.returned⟩ := by
  have hplace := h'.place t
  have hflag := h'.store (t := t)
  cases hthread : s.thread t with
  | mk pc callable =>
      rw [hthread] at haccess hstep hflag
      rw [spot, hthread] at hplace
      cases l with
      | callOnce => cases haccess
      | run =>
          cases pc with
          | idle | load | cas | futexWait | wakeAll | wakeReset => cases haccess
          | store =>
              cases haccess
              have hc : c = ⟨.wakeAll, callable⟩ := by
                cases hstep
                rfl
              subst hc
              have hnot : ¬ (Pc.wakeAll = .idle ∧ Pc.store ≠ .wakeReset) := fun hends => (by cases hends.1)
              rw [if_neg hnot, ended_eq_nil Pc.noConfusion, List.append_nil]
              exact hflag 2 .wakeAll (Or.inl ⟨rfl, rfl, rfl⟩)
          | reset =>
              cases haccess
              have hc : c = ⟨.wakeReset, callable⟩ := by
                cases hstep
                rfl
              subst hc
              have hnot : ¬ (Pc.wakeReset = .idle ∧ Pc.reset ≠ .wakeReset) := fun hends => (by cases hends.1)
              rw [if_neg hnot, ended_eq_nil Pc.noConfusion, List.append_nil]
              exact hflag 0 .wakeReset (Or.inr ⟨rfl, rfl, rfl⟩)
          | callable =>
              obtain ⟨⟨first, k⟩, rfl, hcall⟩ := Option.map_eq_some_iff.mp hstep
              cases hcode : code k with
              | load i next | complete | throw =>
                  simp only [access, Option.elim_some, hcode] at haccess
                  cases haccess
              | store i v next =>
                  simp only [access, Option.elim_some, hcode] at haccess
                  cases haccess
                  have hc : c = ⟨.callable, some (first, next)⟩ := by
                    have := congrArg Prod.snd hcall
                    rw [callableStep, hcode] at this
                    exact this.symm
                  subst hc
                  have hnot : ¬ (Pc.callable = .idle ∧ Pc.callable ≠ .wakeReset) := fun hends => (by cases hends.1)
                  have hended : ended t (⟨.callable, some (first, k)⟩ : Caller K)
                      ⟨.callable, some (first, next)⟩ = [] := rfl
                  rw [if_neg hnot, hended, List.append_nil]
                  refine h'.work hthread spot_store ?_ rfl ?_
                  · intro w hw
                    rcases List.mem_append.mp hw with hw | hw
                    · exact hplace.inside rfl w hw
                    · rw [List.mem_singleton.mp hw]
                      rfl
                  · simp only [func, hcode, TsoProgram.view, Function.update_self, TsoProgram.flush_concat]
                    rfl

/-- The CAS. -/
theorem locked_step (h' : TsoInv code x s h) (haccess : access code l (s.thread t) = .locked)
    (hstep : callStep code l s.mem (s.thread t) = some (m, c)) :
    TsoInv code x { s with mem := m, thread := Function.update s.thread t c } ⟨h.log ++ ended t (s.thread t) c,
      if c.pc = .idle ∧ (s.thread t).pc ≠ .wakeReset then Function.update h.returned t true else h.returned⟩ := by
  have hplace := h'.place t
  have hquiet := h'.quiet_step (t := t) (c := c)
  have hwin := h'.win (t := t)
  cases hthread : s.thread t with
  | mk pc callable =>
      rw [hthread] at haccess hstep hquiet hwin
      rw [spot, hthread] at hplace
      obtain ⟨rfl, rfl⟩ : l = .run ∧ pc = .cas := by
        cases l with
        | callOnce => cases haccess
        | run =>
            cases pc with
            | cas => exact ⟨rfl, rfl⟩
            | callable =>
                cases callable with
                | none => cases haccess
                | some p =>
                    simp only [access, Option.elim_some] at haccess
                    cases hcode : code p.2 <;> rw [hcode] at haccess <;> cases haccess
            | idle | load | store | reset | futexWait | wakeAll | wakeReset => cases haccess
      obtain ⟨first, rfl⟩ := hplace.begun rfl
      have hresult : some (m, c) = some ((
          if s.mem.1 = 0 then ((1, s.mem.2), ⟨.callable, some (first, first)⟩)
          else if s.mem.1 = 2 then (s.mem, ⟨.idle, some (first, first)⟩)
          else (s.mem, ⟨.futexWait, some (first, first)⟩)) : (U32 × (ι → V)) × Caller K) := by
        rw [← hstep]
        simp only [callStep, run, Option.map_some]
        split_ifs <;> rfl
      split_ifs at hresult with hfree hdone
      · cases hresult
        have hnot : ¬ (Pc.callable = .idle ∧ Pc.cas ≠ .wakeReset) := fun hends => (by cases hends.1)
        rw [if_neg hnot, ended_eq_nil Pc.noConfusion, List.append_nil]
        exact hwin first hfree Pc.noConfusion
      · cases hresult
        exact hquiet rfl rfl Pc.noConfusion (fun _ _ => Or.inl hdone) fun hcalling => (by cases hcalling)
      · cases hresult
        exact hquiet rfl rfl Pc.noConfusion Pc.noConfusion fun _ => ⟨first, rfl⟩

theorem next {a : TsoAct Tid (CallLabel K)} (h' : TsoInv code x s h)
    (hnext : (buffered code Tid x).machine.next s a = some s') : TsoInv code x s' (recordTso h s a s') := by
  cases TsoProgram.transition_of_next hnext with
  | load haccess hstep =>
      simp only [recordTso, Function.update_self]
      exact h'.load_step haccess hstep
  | store haccess hstep =>
      simp only [recordTso, Function.update_self]
      exact h'.store_step haccess hstep
  | locked haccess hempty hstep =>
      simp only [recordTso, Function.update_self]
      exact h'.locked_step haccess hstep
  | drain hbuffer => exact h'.drain hbuffer

theorem init : TsoInv code x (buffered code Tid x).machine.init (⟨[], fun _ => false⟩ : TsoHistory Tid K) where
  guard := ⟨⟨fun hone => absurd hone (show (0 : U32) ≠ 1 by decide), fun ⟨_, howns⟩ => by
    rcases howns with hin | hne
    · cases hin
    · exact absurd rfl hne⟩, fun t _ howns => by
    rcases howns with hin | hne
    · cases hin
    · exact absurd rfl hne⟩
  word := Or.inl rfl
  place t := ⟨fun hin => (by cases hin), fun _ => Or.inl rfl, fun hdone => (by rcases hdone with h | h <;> cases h),
    fun hcalling => (by cases hcalling)⟩
  done := by
    rintro (htwo | ⟨u, hstore | hflag⟩)
    · exact absurd htwo (show (0 : U32) ≠ 2 by decide)
    · cases hstore
    · cases hflag
  failed _ := List.forall_mem_nil _
  serial := ⟨x, .init, fun t _ => congrArg Prod.snd (TsoProgram.view_of_empty _ rfl)⟩

end TsoInv

variable [Fintype Tid]

theorem tsoInv_of_reachable {w : TsoState Tid ι V K × TsoHistory Tid K}
    (hreach : (observedTso code x).Reachable anyStep w) : TsoInv code x w.1 w.2 := by
  refine hreach.induct (I := fun w => TsoInv code x w.1 w.2) .init ?_
  rintro ⟨s, h⟩ a ⟨s', h'⟩ - ih hnext -
  obtain ⟨hnext, hrecord⟩ := Machine.observe_next hnext
  rw [show h' = recordTso h s a s' from hrecord]
  exact ih.next hnext

/-- What thread `t` finds when it has returned from a call: no callable runs, no store of another thread waits,
and it sees the words that the callables have left one after another, of which only the last has been
completed. -/
structure Published (code : K → Instr ι V K) (x : ι → V) (w : TsoState Tid ι V K × TsoHistory Tid K) (t : Tid) :
    Prop where
  quiet : ∀ u, (w.1.thread u).pc ≠ .callable
  drained : OthersDrained w.1 t
  once : Done code w.2.log
  serial : Serial (func code) x w.2.log ((buffered code Tid x).view w.1 t).2

/-- What `call_once` promises with store buffers: one callable runs at a time, with all stores of the earlier
ones in memory, and everything that a call leaves is there for whoever has returned. -/
structure OnceLaw (code : K → Instr ι V K) (x : ι → V) (w : TsoState Tid ι V K × TsoHistory Tid K) : Prop where
  exclusive : ∀ t u, (w.1.thread t).pc = .callable → (w.1.thread u).pc = .callable → t = u
  alone : ∀ t, (w.1.thread t).pc = .callable → OthersDrained w.1 t ∧ Failed code w.2.log
  serial : ∃ y, Serializable (func code) (fun _ => true) x (fun t => (w.1.thread t).stage) y w.2.log ∧
    ∀ t, OthersDrained w.1 t → ((buffered code Tid x).view w.1 t).2 = y
  published : ∀ t, w.2.returned t = true → Published code x w t

theorem TsoInv.publishes {w : TsoState Tid ι V K × TsoHistory Tid K} (h' : TsoInv code x w.1 w.2)
    (hreturned : w.2.returned t = true) : Published code x w t := by
  have hquiet : ∀ u, (w.1.thread u).pc = .callable → Owns (spot w.1 u) := fun u hu => Or.inl (by rw [spot, hu]; rfl)
  have hall : (∀ u, (w.1.thread u).pc ≠ .callable) ∧ OthersDrained w.1 t ∧ Finished w.1 := by
    rcases (h'.place t).done (Or.inl hreturned) with htwo | hflag
    · have hnobody := h'.nobody (by rw [htwo]; decide)
      refine ⟨fun u hu => hnobody u (hquiet u hu), fun u _ => ?_, Or.inl htwo⟩
      by_contra hne
      exact hnobody u (Or.inr hne)
    · -- its own store of 2 waits
      have howns : Owns (spot w.1 t) := Settles.owns (Or.inr hflag)
      refine ⟨fun u hu => ?_, h'.others_drained howns, Or.inr ⟨t, Or.inr hflag⟩⟩
      obtain rfl := h'.guard.unique u t (hquiet u hu) howns
      exact notMem_flag ((h'.place u).inside (by rw [spot, hu]; rfl)) hflag
  obtain ⟨hnone, hdrained, hfinished⟩ := hall
  obtain ⟨y, ⟨z, hserial, -, hdata⟩, hview⟩ := h'.serial
  refine ⟨hnone, hdrained, h'.done hfinished, ?_⟩
  rw [hview t hdrained, hdata fun u mode first k hu => absurd hu (not_inside_of_stage (hnone u) mode first k)]
  exact hserial

/-- **`call_once` publishes with store buffers.** -/
theorem call_once_tso {w : TsoState Tid ι V K × TsoHistory Tid K}
    (hreach : (observedTso code x).Reachable anyStep w) : OnceLaw code x w := by
  have h' := tsoInv_of_reachable hreach
  have howns : ∀ t, (w.1.thread t).pc = .callable → Owns (spot w.1 t) := fun t ht => Or.inl (by rw [spot, ht]; rfl)
  refine ⟨fun t u ht hu => h'.guard.unique t u (howns t ht) (howns u hu),
    fun t ht => ⟨h'.others_drained (howns t ht), ?_⟩, h'.serial, fun t hreturned => h'.publishes hreturned⟩
  refine h'.failed ((h'.finished_iff (howns t ht)).not.mpr ?_)
  rintro (hstore | hflag)
  · rw [spot, ht] at hstore
    cases hstore
  · exact notMem_flag ((h'.place t).inside (by rw [spot, ht]; rfl)) hflag

/-- The callable that makes a list of stores, and throws when it meets a number above 9. -/
def storeSmall : List (Bool × ℕ) → Instr Bool ℕ (List (Bool × ℕ))
  | (i, v) :: rest => if 9 < v then .throw else .store i v rest
  | [] => .complete

/-- The callable of `a` throws after its first store; that of `b` is completed, and `b` has returned before any
of its stores is in memory. -/
theorem call_once_tso_waiting :
    ∃ w : TsoState Runner Bool ℕ (List (Bool × ℕ)) × TsoHistory Runner (List (Bool × ℕ)),
      OnceLaw storeSmall (fun _ => 0) w ∧ w.2.returned .b = true ∧ w.2.returned .a = false ∧ w.1.mem.1 = 1 ∧
        w.1.mem.2 false = 3 ∧ w.1.mem.2 true = 0 ∧ w.2.log.length = 2 := by
  refine ⟨_, @call_once_tso _ _ _ _ _ storeSmall _ (fun _ => 0) _ _ (.of_run
    ([.step .a (.callOnce [(false, 3), (true, 10)])] ++ List.replicate 5 (.step .a .run) ++ [.drain .a, .drain .a] ++
      [.step .b (.callOnce [(true, 7)])] ++ List.replicate 6 (.step .b .run)) (by decide)), ?_⟩
  decide

end Psync.Once
