import Psync.RunMachine
import Psync.RunThreads
import Mathlib.Data.Fintype.Basic

/-! Threads that run one program over a shared memory and block in a futex kernel.

A program says what one atomic step of a thread does at a position of the code, and which
positions are calls into the kernel. The kernel keeps the address each blocked thread sleeps on:

* `FUTEX_WAIT` compares and sleeps in one step, or returns at any time (value changed, signal,
  timeout or spuriously);
* `FUTEX_WAKE` releases the requested number of arbitrary sleepers on an address, or all of them if
  there are fewer;
* a requeue wakes one sleeper and moves others to a second address, or is refused with an error and
  does nothing. -/

namespace Concurrency

/-- A thread at `FUTEX_WAIT`: it may fall asleep while `holds`, and continues at `after`. -/
structure WaitCall (M Th Addr : Type*) where
  addr : Addr
  holds : M → Bool
  after : Th

/-- A thread at `FUTEX_WAKE`; `count = none` asks for every sleeper. -/
structure WakeCall (Th Addr : Type*) where
  addr : Addr
  count : Option ℕ
  after : Th

/-- A thread at a requeue: one sleeper on `src` is woken and up to `count` others move to `dst`,
provided the kernel serves the call, which it does while `holds`. -/
structure RequeueCall (M Th Addr : Type*) where
  src : Addr
  dst : Addr
  count : ℕ
  holds : M → Bool
  after : Th

/-- The code of the threads. The label `l` of a step is a call that a client begins, or a choice
the environment makes for it. -/
structure Program (Tid M Th Addr L : Type*) where
  mem : M
  start : Th
  step : Tid → L → M → Th → Option (M × Th)
  wait : Th → Option (WaitCall M Th Addr) := fun _ => none
  wake : Th → Option (WakeCall Th Addr) := fun _ => none
  requeue : Th → Option (RequeueCall M Th Addr) := fun _ => none

/-- The shared memory, the position of every thread and the address it sleeps on. -/
@[ext] structure Config (Tid M Th Addr : Type*) where
  mem : M
  thread : Tid → Th
  asleep : Tid → Option Addr

inductive Act (Tid L : Type*)
  | step (t : Tid) (l : L)
  | sleep (t : Tid)
  | ret (t : Tid)
  | wake (t : Tid) (woken : Finset Tid)
  | requeue (t : Tid) (woken moved : Finset Tid)

/-- `chosen` is what a request for `count` of the threads in `pool` may release. -/
def Chosen {Tid : Type*} (count : Option ℕ) (pool chosen : Finset Tid) : Prop :=
  chosen ⊆ pool ∧ chosen.card = (count.getD pool.card) ⊓ pool.card

instance {Tid : Type*} [DecidableEq Tid] (count : Option ℕ) (pool chosen : Finset Tid) :
    Decidable (Chosen count pool chosen) := instDecidableAnd

theorem Chosen.all {Tid : Type*} {pool chosen : Finset Tid} (h : Chosen none pool chosen) :
    chosen = pool :=
  Finset.eq_of_subset_of_card_le h.1 (by rw [h.2]; simp)

/-- A request for one thread finds one whenever there is one. -/
theorem Chosen.singleton_of_one {Tid : Type*} {pool chosen : Finset Tid}
    (h : Chosen (some 1) pool chosen) (hne : pool.Nonempty) : ∃ t, chosen = {t} := by
  have hpos := Finset.card_pos.mpr hne
  have hcard := h.2
  simp only [Option.getD_some] at hcard
  exact Finset.card_eq_one.mp (by omega)

theorem Chosen.nonempty_of_one {Tid : Type*} {pool chosen : Finset Tid}
    (h : Chosen (some 1) pool chosen) (hne : pool.Nonempty) : chosen.Nonempty := by
  obtain ⟨t, rfl⟩ := h.singleton_of_one hne
  exact Finset.singleton_nonempty t

theorem exists_chosen {Tid : Type*} (count : Option ℕ) (pool : Finset Tid) : ∃ chosen, Chosen count pool chosen := by
  obtain ⟨chosen, hsub, hcard⟩ := Finset.exists_subset_card_eq (s := pool) (n := (count.getD pool.card) ⊓ pool.card)
    inf_le_right
  exact ⟨chosen, hsub, hcard⟩

variable {Tid M Th Addr L : Type*}

namespace Config

variable (s : Config Tid M Th Addr)

def sleepers [Fintype Tid] [DecidableEq Addr] (a : Addr) : Finset Tid :=
  Finset.univ.filter fun t => s.asleep t = some a

@[simp] theorem mem_sleepers [Fintype Tid] [DecidableEq Addr] {a : Addr} {t : Tid} :
    t ∈ s.sleepers a ↔ s.asleep t = some a := by simp [sleepers]

variable [DecidableEq Tid]

/-- Thread `t` moves to `th`, leaving `m` in memory. -/
def move (t : Tid) (m : M) (th : Th) : Config Tid M Th Addr :=
  { s with mem := m, thread := Function.update s.thread t th }

def sleep (t : Tid) (a : Addr) : Config Tid M Th Addr :=
  { s with asleep := Function.update s.asleep t (some a) }

/-- The threads in `moved` go on sleeping, on the address `a`. -/
def requeue (moved : Finset Tid) (a : Addr) : Config Tid M Th Addr :=
  { s with asleep := fun u => if u ∈ moved then some a else s.asleep u }

@[simp] theorem move_mem (t : Tid) (m : M) (th : Th) : (s.move t m th).mem = m := rfl
@[simp] theorem move_thread (t : Tid) (m : M) (th : Th) :
    (s.move t m th).thread = Function.update s.thread t th := rfl
@[simp] theorem move_asleep (t : Tid) (m : M) (th : Th) : (s.move t m th).asleep = s.asleep := rfl
@[simp] theorem sleep_mem (t : Tid) (a : Addr) : (s.sleep t a).mem = s.mem := rfl
@[simp] theorem sleep_thread (t : Tid) (a : Addr) : (s.sleep t a).thread = s.thread := rfl
@[simp] theorem sleep_asleep (t : Tid) (a : Addr) :
    (s.sleep t a).asleep = Function.update s.asleep t (some a) := rfl
@[simp] theorem requeue_mem (moved : Finset Tid) (a : Addr) : (s.requeue moved a).mem = s.mem := rfl
@[simp] theorem requeue_thread (moved : Finset Tid) (a : Addr) : (s.requeue moved a).thread = s.thread := rfl
@[simp] theorem requeue_asleep (moved : Finset Tid) (a : Addr) :
    (s.requeue moved a).asleep = fun u => if u ∈ moved then some a else s.asleep u := rfl

end Config

namespace Program

variable [DecidableEq Tid] (P : Program Tid M Th Addr L)

/-- Where a thread continues when its call of `FUTEX_WAIT` returns. -/
def afterWait (th : Th) : Th := (P.wait th).elim th WaitCall.after

/-- The kernel lets the threads in `woken` return from `FUTEX_WAIT`. -/
def resume (s : Config Tid M Th Addr) (woken : Finset Tid) : Config Tid M Th Addr :=
  { s with
    thread := fun u => if u ∈ woken then P.afterWait (s.thread u) else s.thread u
    asleep := fun u => if u ∈ woken then none else s.asleep u }

@[simp] theorem resume_mem (s : Config Tid M Th Addr) (woken : Finset Tid) :
    (P.resume s woken).mem = s.mem := rfl
@[simp] theorem resume_thread (s : Config Tid M Th Addr) (woken : Finset Tid) (u : Tid) :
    (P.resume s woken).thread u = if u ∈ woken then P.afterWait (s.thread u) else s.thread u := rfl
@[simp] theorem resume_asleep (s : Config Tid M Th Addr) (woken : Finset Tid) (u : Tid) :
    (P.resume s woken).asleep u = if u ∈ woken then none else s.asleep u := rfl

/-- A property of positions that does not change when a wait returns is kept by `resume`. -/
theorem resume_same {γ : Type*} {p : Th → γ} (hp : ∀ th, p (P.afterWait th) = p th)
    (s : Config Tid M Th Addr) (woken : Finset Tid) (u : Tid) :
    p ((P.resume s woken).thread u) = p (s.thread u) := by
  rw [resume_thread]
  split
  · exact hp _
  · rfl

variable [Fintype Tid] [DecidableEq Addr]

def next (s : Config Tid M Th Addr) : Act Tid L → Option (Config Tid M Th Addr)
  | .step t l => if s.asleep t = none then
      (P.step t l s.mem (s.thread t)).map fun r => s.move t r.1 r.2 else none
  | .sleep t => if s.asleep t = none then (P.wait (s.thread t)).bind fun w =>
      if w.holds s.mem then some (s.sleep t w.addr) else none else none
  | .ret t => (P.wait (s.thread t)).map fun _ => P.resume s {t}
  | .wake t woken => if s.asleep t = none then (P.wake (s.thread t)).bind fun w =>
      if Chosen w.count (s.sleepers w.addr) woken then
        some ((P.resume s woken).move t s.mem w.after) else none else none
  | .requeue t woken moved => if s.asleep t = none then (P.requeue (s.thread t)).bind fun r =>
      if r.holds s.mem then
        if Chosen (some 1) (s.sleepers r.src) woken ∧
            Chosen (some r.count) (s.sleepers r.src \ woken) moved then
          some (((P.resume s woken).requeue moved r.dst).move t s.mem r.after) else none
      else if woken = ∅ ∧ moved = ∅ then some (s.move t s.mem r.after) else none else none

/-- The machine of all interleavings of the threads. -/
def machine : Machine (Config Tid M Th Addr) (Act Tid L) where
  init := ⟨P.mem, fun _ => P.start, fun _ => none⟩
  next := P.next

/-- What one step can do. -/
inductive Transition (s : Config Tid M Th Addr) :
    Act Tid L → Config Tid M Th Addr → Prop
  | step {t : Tid} {l : L} {m : M} {th : Th} (awake : s.asleep t = none)
      (hstep : P.step t l s.mem (s.thread t) = some (m, th)) : Transition s (.step t l) (s.move t m th)
  | sleep {t : Tid} {w : WaitCall M Th Addr} (awake : s.asleep t = none)
      (hwait : P.wait (s.thread t) = some w) (holds : w.holds s.mem = true) :
      Transition s (.sleep t) (s.sleep t w.addr)
  | ret {t : Tid} {w : WaitCall M Th Addr} (hwait : P.wait (s.thread t) = some w) :
      Transition s (.ret t) (P.resume s {t})
  | wake {t : Tid} {w : WakeCall Th Addr} {woken : Finset Tid} (awake : s.asleep t = none)
      (hwake : P.wake (s.thread t) = some w)
      (chosen : Chosen w.count (s.sleepers w.addr) woken) :
      Transition s (.wake t woken) ((P.resume s woken).move t s.mem w.after)
  | requeue {t : Tid} {r : RequeueCall M Th Addr} {woken moved : Finset Tid}
      (awake : s.asleep t = none) (hrequeue : P.requeue (s.thread t) = some r)
      (holds : r.holds s.mem = true) (hwoken : Chosen (some 1) (s.sleepers r.src) woken)
      (hmoved : Chosen (some r.count) (s.sleepers r.src \ woken) moved) :
      Transition s (.requeue t woken moved)
        (((P.resume s woken).requeue moved r.dst).move t s.mem r.after)
  | refused {t : Tid} {r : RequeueCall M Th Addr} (awake : s.asleep t = none)
      (hrequeue : P.requeue (s.thread t) = some r) (holds : r.holds s.mem = false) :
      Transition s (.requeue t ∅ ∅) (s.move t s.mem r.after)

theorem transition_of_next {s s' : Config Tid M Th Addr} {a : Act Tid L}
    (h : P.machine.next s a = some s') : P.Transition s a s' := by
  change P.next s a = some s' at h
  cases a with
  | step t l =>
      simp only [next, Option.ite_none_right_eq_some, Option.map_eq_some_iff] at h
      obtain ⟨awake, ⟨m, th⟩, hstep, rfl⟩ := h
      exact .step awake hstep
  | sleep t =>
      simp only [next, Option.ite_none_right_eq_some, Option.bind_eq_some_iff, Option.some.injEq] at h
      obtain ⟨awake, w, hwait, holds, rfl⟩ := h
      exact .sleep awake hwait holds
  | ret t =>
      simp only [next, Option.map_eq_some_iff] at h
      obtain ⟨w, hwait, rfl⟩ := h
      exact .ret hwait
  | wake t woken =>
      simp only [next, Option.ite_none_right_eq_some, Option.bind_eq_some_iff, Option.some.injEq] at h
      obtain ⟨awake, w, hwake, chosen, rfl⟩ := h
      exact .wake awake hwake chosen
  | requeue t woken moved =>
      simp only [next, Option.ite_none_right_eq_some, Option.bind_eq_some_iff] at h
      obtain ⟨awake, r, hrequeue, h⟩ := h
      split at h
      · rename_i holds
        simp only [Option.ite_none_right_eq_some, Option.some.injEq] at h
        obtain ⟨⟨hwoken, hmoved⟩, rfl⟩ := h
        exact .requeue awake hrequeue holds hwoken hmoved
      · rename_i holds
        simp only [Option.ite_none_right_eq_some, Option.some.injEq] at h
        obtain ⟨⟨rfl, rfl⟩, rfl⟩ := h
        exact .refused awake hrequeue (by simpa using holds)

/-- A property of single threads that no step of the code and no return from the kernel breaks. -/
theorem thread_of_next {I : Th → Prop} {s s' : Config Tid M Th Addr} {a : Act Tid L}
    (hI : ∀ t, I (s.thread t)) (h : P.machine.next s a = some s')
    (step : ∀ {t l m th m' th'}, I th → P.step t l m th = some (m', th') → I th')
    (afterWait : ∀ {th}, I th → I (P.afterWait th))
    (afterWake : ∀ {th w}, I th → P.wake th = some w → I w.after)
    (afterRequeue : ∀ {th r}, I th → P.requeue th = some r → I r.after) (u : Tid) :
    I (s'.thread u) := by
  have hresume : ∀ woken u, I ((P.resume s woken).thread u) := by
    intro woken u
    rw [resume_thread]
    split_ifs
    · exact afterWait (hI u)
    · exact hI u
  have hmove : ∀ {s : Config Tid M Th Addr} {t m th}, (∀ u, I (s.thread u)) → I th →
      I ((s.move t m th).thread u) := by
    intro s t m th hall hth
    rw [Config.move_thread, Function.update_apply]
    split_ifs
    · exact hth
    · exact hall u
  cases P.transition_of_next h with
  | step awake hstep => exact hmove hI (step (hI _) hstep)
  | sleep awake hwait holds => exact hI u
  | ret hwait => exact hresume _ u
  | wake awake hwake chosen => exact hmove (hresume _) (afterWake (hI _) hwake)
  | requeue awake hrequeue holds hwoken hmoved =>
      exact hmove (hresume _) (afterRequeue (hI _) hrequeue)
  | refused awake hrequeue holds => exact hmove hI (afterRequeue (hI _) hrequeue)

omit [Fintype Tid] [DecidableEq Addr] in
/-- An invariant that does not say who sleeps is kept by the kernel if it is kept by every return from
`FUTEX_WAIT`, one thread at a time. -/
theorem resume_induct {I : Config Tid M Th Addr → Prop} (s : Config Tid M Th Addr)
    (free : ∀ {s : Config Tid M Th Addr} asleep, I s → I { s with asleep := asleep })
    (ret : ∀ {s t w}, I s → P.wait (s.thread t) = some w → I (s.move t s.mem w.after)) (h : I s)
    (woken : Finset Tid) : I (P.resume s woken) := by
  induction woken using Finset.induction with
  | empty => exact free _ h
  | @insert t woken ht ih =>
      have hself : (P.resume s woken).thread t = s.thread t := by rw [resume_thread, if_neg ht]
      have hthread : (P.resume s (insert t woken)).thread =
          Function.update (P.resume s woken).thread t (P.afterWait (s.thread t)) := by
        funext u
        rw [Function.update_apply, resume_thread, resume_thread]
        by_cases hut : u = t
        · rw [if_pos hut, hut, if_pos (Finset.mem_insert_self t woken)]
        · simp only [Finset.mem_insert, hut, false_or, if_false]
      suffices hI : I ((P.resume s woken).move t s.mem (P.afterWait (s.thread t))) by
        have hmove := free (P.resume s (insert t woken)).asleep hI
        simp only [Config.move, ← hthread] at hmove
        exact hmove
      cases hwait : P.wait (s.thread t) with
      | some w =>
          rw [afterWait, hwait]
          exact ret ih (by rw [hself, hwait])
      | none =>
          have hsame : P.afterWait (s.thread t) = (P.resume s woken).thread t := by
            rw [hself, afterWait, hwait]
            rfl
          rw [hsame, Config.move, Function.update_eq_self]
          exact ih

/-- The rule for such an invariant. -/
theorem next_induct {I : Config Tid M Th Addr → Prop} {s s' : Config Tid M Th Addr} {a : Act Tid L}
    (free : ∀ {s : Config Tid M Th Addr} asleep, I s → I { s with asleep := asleep })
    (ret : ∀ {s t w}, I s → P.wait (s.thread t) = some w → I (s.move t s.mem w.after))
    (wake : ∀ {s t w}, I s → P.wake (s.thread t) = some w → I (s.move t s.mem w.after))
    (hrequeue : ∀ th, P.requeue th = none) (h : I s) (hnext : P.machine.next s a = some s')
    (step : ∀ {t l m th}, a = .step t l → P.step t l s.mem (s.thread t) = some (m, th) → I (s.move t m th)) :
    I s' := by
  cases P.transition_of_next hnext with
  | step awake hstep => exact step rfl hstep
  | sleep awake hwait holds => exact free _ h
  | ret hwait => exact P.resume_induct s free ret h _
  | @wake t w woken awake hwake chosen =>
      have hself : (P.resume s woken).thread t = s.thread t := by
        rw [resume_thread, if_neg]
        intro hmem
        have hsleep := chosen.1 hmem
        rw [Config.mem_sleepers, awake] at hsleep
        cases hsleep
      exact wake (P.resume_induct s free ret h woken) (by rw [hself, hwake])
  | requeue awake hcall => rw [hrequeue] at hcall; cases hcall
  | refused awake hcall => rw [hrequeue] at hcall; cases hcall

/-- A thread that sleeps is at a call of `FUTEX_WAIT` on the word on which it sleeps. -/
theorem wait_of_asleep {ok : StepCond (Config Tid M Th Addr) (Act Tid L)} {s : Config Tid M Th Addr}
    (hrequeue : ∀ th, P.requeue th = none) (h : P.machine.Reachable ok s) {t : Tid} {a : Addr}
    (hsleep : s.asleep t = some a) : ∃ w, P.wait (s.thread t) = some w ∧ w.addr = a := by
  refine h.induct (I := fun s => ∀ t a, s.asleep t = some a → ∃ w, P.wait (s.thread t) = some w ∧ w.addr = a)
    nofun ?_ t a hsleep
  intro s a s' _ ih hnext _ u b hu
  have hresume : ∀ {woken : Finset Tid}, (P.resume s woken).asleep u = some b →
      ∃ w, P.wait ((P.resume s woken).thread u) = some w ∧ w.addr = b := by
    intro woken hu
    rw [resume_asleep] at hu
    split_ifs at hu with hmem
    rw [resume_thread, if_neg hmem]
    exact ih u b hu
  have hmove : ∀ {s' : Config Tid M Th Addr} {v m th}, s'.asleep v = none → s'.asleep u = some b →
      (∃ w, P.wait (s'.thread u) = some w ∧ w.addr = b) →
        ∃ w, P.wait ((s'.move v m th).thread u) = some w ∧ w.addr = b := by
    intro s' v m th awake hu hw
    have huv : u ≠ v := by
      rintro rfl
      rw [awake] at hu
      cases hu
    rwa [Config.move_thread, Function.update_of_ne huv]
  cases P.transition_of_next hnext with
  | step awake hstep => exact hmove awake hu (ih u b hu)
  | @sleep v w awake hwait holds =>
      rw [Config.sleep_asleep, Function.update_apply] at hu
      split_ifs at hu with huv
      · rw [Config.sleep_thread, huv]
        exact ⟨w, hwait, Option.some.inj hu⟩
      · exact ih u b hu
  | ret hwait => exact hresume hu
  | wake awake hwake chosen =>
      refine hmove ?_ hu (hresume hu)
      rw [resume_asleep, awake, ite_self]
  | requeue awake hcall => rw [hrequeue] at hcall; cases hcall
  | refused awake hcall => rw [hrequeue] at hcall; cases hcall

/-- A program that never calls the kernel takes only steps of its code. -/
theorem step_of_next {s s' : Config Tid M Th Addr} {a : Act Tid L}
    (hwait : ∀ th, P.wait th = none) (hwake : ∀ th, P.wake th = none)
    (hrequeue : ∀ th, P.requeue th = none) (h : P.machine.next s a = some s') :
    ∃ t l m th, a = .step t l ∧ P.step t l s.mem (s.thread t) = some (m, th) ∧ s' = s.move t m th := by
  cases P.transition_of_next h with
  | step awake hstep => exact ⟨_, _, _, _, rfl, hstep, rfl⟩
  | sleep awake hcall => rw [hwait] at hcall; cases hcall
  | ret hcall => rw [hwait] at hcall; cases hcall
  | wake awake hcall => rw [hwake] at hcall; cases hcall
  | requeue awake hcall => rw [hrequeue] at hcall; cases hcall
  | refused awake hcall => rw [hrequeue] at hcall; cases hcall

theorem next_of_step {s : Config Tid M Th Addr} {t : Tid} {l : L} {m : M} {th : Th}
    (awake : s.asleep t = none) (hstep : P.step t l s.mem (s.thread t) = some (m, th)) :
    P.machine.next s (.step t l) = some (s.move t m th) := by
  change (if s.asleep t = none then _ else _) = _
  rw [if_pos awake, hstep]
  rfl

theorem next_of_sleep {s : Config Tid M Th Addr} {t : Tid} {w : WaitCall M Th Addr}
    (awake : s.asleep t = none) (hwait : P.wait (s.thread t) = some w) (holds : w.holds s.mem = true) :
    P.machine.next s (.sleep t) = some (s.sleep t w.addr) := by
  change (if s.asleep t = none then _ else _) = _
  rw [if_pos awake, hwait]
  exact if_pos holds

theorem next_of_ret {s : Config Tid M Th Addr} {t : Tid} {w : WaitCall M Th Addr}
    (hwait : P.wait (s.thread t) = some w) : P.machine.next s (.ret t) = some (P.resume s {t}) := by
  change (P.wait (s.thread t)).map _ = _
  rw [hwait]
  rfl

theorem next_of_wake {s : Config Tid M Th Addr} {t : Tid} {w : WakeCall Th Addr} {woken : Finset Tid}
    (awake : s.asleep t = none) (hwake : P.wake (s.thread t) = some w)
    (chosen : Chosen w.count (s.sleepers w.addr) woken) :
    P.machine.next s (.wake t woken) = some ((P.resume s woken).move t s.mem w.after) := by
  change (if s.asleep t = none then _ else _) = _
  rw [if_pos awake, hwake]
  exact if_pos chosen

/-- Threads of which each can take a step that leaves the memory take these steps one after another. -/
theorem leads_each {s : Config Tid M Th Addr} {l : L} {g : Th → Th} (ts : Finset Tid)
    (h : ∀ t ∈ ts, s.asleep t = none ∧ P.step t l s.mem (s.thread t) = some (s.mem, g (s.thread t))) :
    P.machine.Leads anyStep s
      { s with thread := fun t => if t ∈ ts then g (s.thread t) else s.thread t } := by
  induction ts using Finset.induction_on with
  | empty => exact .refl
  | insert t ts hnew ih =>
      obtain ⟨awake, hstep⟩ := h t (Finset.mem_insert_self t ts)
      have hstep' : P.step t l s.mem (if t ∈ ts then g (s.thread t) else s.thread t) =
          some (s.mem, g (s.thread t)) := by rwa [if_neg hnew]
      refine (ih fun u hu => h u (Finset.mem_insert_of_mem hu)).tail ⟨.step t l, ?_, trivial⟩
      rw [P.next_of_step (s := ⟨s.mem, fun u => if u ∈ ts then g (s.thread u) else s.thread u, s.asleep⟩)
        awake hstep']
      refine congrArg some (Config.ext rfl (funext fun u => ?_) rfl)
      change Function.update (fun u => if u ∈ ts then g (s.thread u) else s.thread u) t (g (s.thread t)) u =
        if u ∈ insert t ts then g (s.thread u) else s.thread u
      rw [Function.update_apply]
      by_cases hut : u = t
      · rw [if_pos hut, if_pos (hut ▸ Finset.mem_insert_self t ts), hut]
      · simp only [Finset.mem_insert, hut, false_or, if_false]

theorem observed_step_of_next {ω : Type*} {h₀ : ω}
    {record : ω → Config Tid M Th Addr → Act Tid L → Config Tid M Th Addr → ω}
    {s s' : Config Tid M Th Addr × ω} {a : Act Tid L}
    (hwait : ∀ th, P.wait th = none) (hwake : ∀ th, P.wake th = none)
    (hrequeue : ∀ th, P.requeue th = none)
    (h : (P.machine.observe h₀ record).next s a = some s') :
    ∃ t l m th, a = .step t l ∧ P.step t l s.1.mem (s.1.thread t) = some (m, th) ∧
      s' = (s.1.move t m th, record s.2 s.1 a (s.1.move t m th)) := by
  obtain ⟨hnext, hrecord⟩ := Machine.observe_next h
  obtain ⟨t, l, m, th, rfl, hstep, hmove⟩ := P.step_of_next hwait hwake hrequeue hnext
  exact ⟨t, l, m, th, rfl, hstep, Prod.ext hmove (by rw [hrecord, hmove])⟩

end Program
end Concurrency
