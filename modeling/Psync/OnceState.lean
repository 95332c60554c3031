import Psync.OnceModel
import Psync.RunGuard
import Psync.RunSleepers

/-! One callable at a time is inside the section that the value 1 of the flag guards, the value 2 says
that one has been completed, and whoever ends the section wakes all sleepers. -/

namespace Psync.Once

open Concurrency

set_option linter.unusedSectionVars false

variable {Tid : Type*} [DecidableEq Tid]

/-! ### The events -/

@[simp] theorem mem_push {t : Tid} {w : History Tid} {o : Option Event} {x : Tid × Event} :
    x ∈ push t w o ↔ x.1 = t ∧ o = some x.2 ∨ x ∈ w := by
  obtain ⟨u, e⟩ := x
  cases o with
  | none => simp [push]
  | some e' =>
      rw [push, List.mem_cons, Prod.mk.injEq, Option.some.injEq]
      exact or_congr_left (and_congr_right fun _ => eq_comm)

theorem own_push (t u : Tid) (w : History Tid) (o : Option Event) :
    own u (push t w o) = if u = t then o.toList ++ own t w else own u w := by
  cases o with
  | none =>
      split_ifs with hut
      · rw [hut]
        rfl
      · rfl
  | some e =>
      simp only [push, own]
      split_ifs with hut
      · rw [List.filter_cons_of_pos (by rw [hut]; simp), hut]
        rfl
      · rw [List.filter_cons_of_neg (by simpa using Ne.symm hut)]

theorem mem_of_mem_own {t : Tid} {w : History Tid} {e : Event} (h : e ∈ own t w) : (t, e) ∈ w := by
  obtain ⟨x, hx, rfl⟩ := List.mem_map.mp h
  rw [List.mem_filter, decide_eq_true_eq] at hx
  rw [← hx.2]
  exact hx.1

def Completed (w : History Tid) : Prop := ∃ u, (u, Event.completed) ∈ w

/-- What must have happened before the event. -/
def Fits (w : History Tid) : Event → Prop
  | .started | .completed => ¬ Completed w
  | .returned => Completed w
  | _ => True

def Ordered : History Tid → Prop
  | [] => True
  | x :: w => Fits w x.2 ∧ Ordered w

theorem Ordered.of_append {l w : History Tid} {x : Tid × Event} (h : Ordered (l ++ x :: w)) :
    Fits w x.2 := by
  induction l with
  | nil => exact h.1
  | cons y l ih => exact ih h.2

theorem Ordered.push {t : Tid} {w : History Tid} {o : Option Event} (h : Ordered w)
    (hfits : ∀ e ∈ o, Fits w e) : Ordered (push t w o) := by
  cases o with
  | none => exact h
  | some e => exact ⟨hfits e rfl, h⟩

/-! ### What a step can do -/

inductive Effect (state : U32) (pc : Pc) : U32 → Pc → Option Event → Prop
  | go {pc' : Pc} {o : Option Event} (before : pc.inside = false) (after : pc'.inside = false)
      (events : pc'.events = o.toList ++ pc.events) (hnew : ∀ e ∈ o, e = .called) :
      Effect state pc state pc' o
  | skip (done : state = 2) (before : pc.inside = false) (events : pc.events = [.called]) :
      Effect state pc state .idle (some .returned)
  | win (free : state = 0) (hpc : pc = .cas) : Effect state pc 1 .callable (some .started)
  | complete (hpc : pc = .callable) : Effect state pc state .store (some .completed)
  | throw (hpc : pc = .callable) : Effect state pc state .reset (some .threw)
  | store (hpc : pc = .store) : Effect state pc 2 .wakeAll none
  | reset (hpc : pc = .reset) : Effect state pc 0 .wakeReset none

theorem effect_of_step {l : Label} {state state' : U32} {pc pc' : Pc}
    (h : step l state pc = some (state', pc')) : Effect state pc state' pc' (pc.event state l) := by
  cases l with
  | callOnce =>
      simp only [step] at h
      split_ifs at h with hpc
      cases h
      subst hpc
      exact .go rfl rfl rfl (by simp [Pc.event])
  | complete =>
      simp only [step] at h
      split_ifs at h with hpc
      cases h
      exact .complete hpc
  | throw =>
      simp only [step] at h
      split_ifs at h with hpc
      cases h
      exact .throw hpc
  | run =>
      cases pc with
      | load =>
          simp only [step, run, Pc.event] at h ⊢
          split_ifs at h ⊢ with hdone <;> cases h
          · exact .skip hdone rfl rfl
          · exact .go rfl rfl rfl (by simp)
      | cas =>
          simp only [step, run, Pc.event] at h ⊢
          split_ifs at h ⊢ with hfree hdone <;> cases h
          · exact .win hfree rfl
          · exact .skip hdone rfl rfl
          · exact .go rfl rfl rfl (by simp)
      | store =>
          cases h
          exact .store rfl
      | reset =>
          cases h
          exact .reset rfl
      | idle | callable | wakeAll | wakeReset | futexWait => cases h

/-! ### The invariant -/

structure Inv (s : State Tid) (w : History Tid) : Prop where
  guard : Guards (s.mem = 1) (fun pc => pc.inside = true) s.thread
  done : Completed w ↔ s.mem = 2 ∨ ∃ u, s.thread u = .store
  word : s.mem = 0 ∨ s.mem = 1 ∨ s.mem = 2
  ordered : Ordered w
  calls : ∀ t, ∃ l, Calls l ∧ own t w = (s.thread t).events ++ l

variable {s s' : State Tid} {w : History Tid} {t : Tid} {m : U32} {pc : Pc} {o : Option Event}

theorem Inv.open (h : Inv s w) (hout : s.mem ≠ 1) : Completed w ↔ s.mem = 2 := by
  rw [h.done]
  refine or_iff_left ?_
  rintro ⟨u, hu⟩
  exact hout (h.guard.iff.mpr ⟨u, by rw [hu]; rfl⟩)

/-- Nothing has been completed while a callable runs or has thrown. -/
theorem Inv.not_completed (h : Inv s w) (hin : (s.thread t).inside = true)
    (hpc : s.thread t ≠ .store) : ¬ Completed w := by
  have hone : s.mem = 1 := h.guard.iff.mpr ⟨t, hin⟩
  rw [h.done]
  rintro (htwo | ⟨u, hu⟩)
  · rw [hone] at htwo
    exact absurd htwo (by decide)
  · rw [← h.guard.unique t u hin (by rw [hu]; rfl)] at hu
    exact hpc hu

theorem Inv.calls_move (h : Inv s w)
    (hnew : ∀ l, Calls l → own t w = (s.thread t).events ++ l →
      ∃ l', Calls l' ∧ o.toList ++ own t w = pc.events ++ l') (u : Tid) :
    ∃ l, Calls l ∧ own u (push t w o) = ((s.move t m pc).thread u).events ++ l := by
  rw [own_push, Config.move_thread, Function.update_apply]
  split_ifs with hut
  · obtain ⟨l, hl, heq⟩ := h.calls t
    exact hnew l hl heq
  · exact h.calls u

/-- The thread goes on in its call. -/
theorem Inv.calls_go (h : Inv s w) (hevents : pc.events = o.toList ++ (s.thread t).events) (u : Tid) :
    ∃ l, Calls l ∧ own u (push t w o) = ((s.move t m pc).thread u).events ++ l := by
  refine h.calls_move (fun l hl heq => ⟨l, hl, ?_⟩) u
  rw [heq, hevents, List.append_assoc]

theorem store_move (hpc : pc ≠ .store) (ht : s.thread t ≠ .store) :
    (∃ u, (s.move t m pc).thread u = .store) ↔ ∃ u, s.thread u = .store := by
  refine exists_congr fun u => ?_
  rw [Config.move_thread, Function.update_apply]
  split_ifs with hut
  · rw [hut]
    exact ⟨fun h => absurd h hpc, fun h => absurd h ht⟩
  · exact Iff.rfl

theorem completed_push (ho : o ≠ some .completed) : Completed (push t w o) ↔ Completed w := by
  refine exists_congr fun u => ?_
  rw [mem_push]
  exact or_iff_right fun h => ho h.2

theorem Inv.move (h : Inv s w) (heff : Effect s.mem (s.thread t) m pc o) :
    Inv (s.move t m pc) (push t w o) := by
  cases heff with
  | go before after events hnew =>
      have hstore : s.thread t ≠ .store := fun hpc => by rw [hpc] at before; cases before
      have hstore' : pc ≠ .store := fun hpc => by rw [hpc] at after; cases after
      have ho : o ≠ some .completed := fun heq => by cases hnew _ heq
      refine ⟨h.guard.same Iff.rfl (by rw [before, after]), ?_, h.word, h.ordered.push fun e he => ?_,
        h.calls_go events⟩
      · rw [completed_push ho, store_move hstore' hstore]
        exact h.done
      · rw [hnew e he]
        trivial
  | skip done before events =>
      have hstore : s.thread t ≠ .store := fun hpc => by rw [hpc] at before; cases before
      have hcompleted : Completed w := h.done.mpr (Or.inl done)
      refine ⟨h.guard.same Iff.rfl (by rw [before]; rfl), ?_, h.word, h.ordered.push fun e he => ?_,
        h.calls_move fun l hl heq => ⟨_, hl.skipped, ?_⟩⟩
      · rw [completed_push (by simp), store_move (by decide) hstore]
        exact h.done
      · cases he
        exact hcompleted
      · rw [heq, events]
        rfl
  | win free hpc =>
      have hout : s.mem ≠ 1 := by
        rw [free]
        decide
      have hnone : ¬ Completed w := by
        rw [h.open hout, free]
        decide
      have hstore : s.thread t ≠ .store := fun heq => by rw [hpc] at heq; cases heq
      refine ⟨h.guard.enter hout rfl rfl, ?_, Or.inr (Or.inl rfl), h.ordered.push fun e he => ?_,
        h.calls_go (by rw [hpc]; rfl)⟩
      · rw [completed_push (by simp), store_move (by decide) hstore]
        refine iff_of_false hnone ?_
        rintro (htwo | hu)
        · exact absurd htwo (show (1 : U32) ≠ 2 by decide)
        · exact hnone (h.done.mpr (Or.inr hu))
      · cases he
        exact hnone
  | complete hpc =>
      refine ⟨h.guard.same Iff.rfl (by rw [hpc]; rfl), ?_, h.word, h.ordered.push fun e he => ?_,
        h.calls_go (by rw [hpc]; rfl)⟩
      · refine iff_of_true ⟨t, ?_⟩ (Or.inr ⟨t, ?_⟩)
        · rw [mem_push]
          exact Or.inl ⟨rfl, rfl⟩
        · rw [Config.move_thread, Function.update_self]
      · cases he
        exact h.not_completed (t := t) (by rw [hpc]; rfl) (by rw [hpc]; exact nofun)
  | throw hpc =>
      have hstore : s.thread t ≠ .store := fun heq => by rw [hpc] at heq; cases heq
      refine ⟨h.guard.same Iff.rfl (by rw [hpc]; rfl), ?_, h.word, h.ordered.push fun e he => ?_,
        h.calls_go (by rw [hpc]; rfl)⟩
      · rw [completed_push (by simp), store_move (by decide) hstore]
        exact h.done
      · cases he
        trivial
  | store hpc =>
      have hin : (s.thread t).inside = true := by
        rw [hpc]
        rfl
      have hopen : (2 : U32) ≠ 1 := by decide
      refine ⟨h.guard.leave hin hopen nofun, ?_, Or.inr (Or.inr rfl), h.ordered.push nofun,
        h.calls_go (by rw [hpc]; rfl)⟩
      rw [completed_push (by simp)]
      exact iff_of_true (h.done.mpr (Or.inr ⟨t, hpc⟩)) (Or.inl rfl)
  | reset hpc =>
      have hin : (s.thread t).inside = true := by
        rw [hpc]
        rfl
      have hstore : s.thread t ≠ .store := fun heq => by rw [hpc] at heq; cases heq
      have hnone := h.not_completed hin hstore
      have hopen : (0 : U32) ≠ 1 := by decide
      refine ⟨h.guard.leave hin hopen nofun, ?_, Or.inl rfl, h.ordered.push nofun,
        h.calls_go (by rw [hpc]; rfl)⟩
      rw [completed_push (by simp), store_move (by decide) hstore]
      refine iff_of_false hnone ?_
      rintro (htwo | hu)
      · exact absurd htwo (show (0 : U32) ≠ 2 by decide)
      · exact hnone (h.done.mpr (Or.inr hu))

variable [Fintype Tid]

theorem wait_eq_some {c : WaitCall U32 Pc Unit} (h : wait pc = some c) :
    pc = .futexWait ∧ c = futex.wait () id 1 .cas := by
  cases pc with
  | futexWait =>
      cases h
      exact ⟨rfl, rfl⟩
  | _ => cases h

theorem wake_eq_some {c : WakeCall Pc Unit} (h : wake pc = some c) :
    (pc = .wakeAll ∨ pc = .wakeReset) ∧ c = futex.wakeAll () .idle := by
  cases pc with
  | wakeAll =>
      cases h
      exact ⟨Or.inl rfl, rfl⟩
  | wakeReset =>
      cases h
      exact ⟨Or.inr rfl, rfl⟩
  | _ => cases h

/-- A return from `futex::wait` leads back into the loop of the same call. -/
theorem afterWait_eq (pc : Pc) : (program Tid).afterWait pc = pc ∨
    pc = .futexWait ∧ (program Tid).afterWait pc = .cas := by
  cases pc with
  | futexWait => exact Or.inr ⟨rfl, rfl⟩
  | _ => exact Or.inl rfl

theorem afterWait_inside (pc : Pc) : ((program Tid).afterWait pc).inside = pc.inside := by
  cases pc <;> rfl

theorem afterWait_events (pc : Pc) : ((program Tid).afterWait pc).events = pc.events := by
  cases pc <;> rfl

theorem afterWait_store (pc : Pc) : (program Tid).afterWait pc = .store ↔ pc = .store := by
  rcases (afterWait_eq pc : (program Tid).afterWait pc = pc ∨ _) with h | ⟨rfl, h⟩
  · rw [h]
  · rw [h]
    decide

theorem Inv.resume (h : Inv s w) (woken : Finset Tid) : Inv ((program Tid).resume s woken) w where
  guard := h.guard.congr Iff.rfl fun u => by rw [Program.resume_same _ afterWait_inside]
  done := by
    rw [h.done]
    refine or_congr_right (exists_congr fun u => ?_)
    rw [Program.resume_thread]
    split_ifs
    · exact (afterWait_store _).symm
    · exact Iff.rfl
  word := h.word
  ordered := h.ordered
  calls u := by
    rw [Program.resume_same _ afterWait_events]
    exact h.calls u

/-- After `futex::wake_all` the call ends as its callable has. -/
theorem Inv.leave (h : Inv s w) (hpc : s.thread t = .wakeAll ∨ s.thread t = .wakeReset) :
    Inv (s.move t s.mem .idle) (push t w (s.thread t).leaves) := by
  have hout : (s.thread t).inside = false := by rcases hpc with hpc | hpc <;> rw [hpc] <;> rfl
  have hstore : s.thread t ≠ .store := fun heq => by rw [heq] at hout; cases hout
  have hnot : (s.thread t).leaves ≠ some .completed := by
    rcases hpc with hpc | hpc <;> rw [hpc] <;> decide
  refine ⟨h.guard.same Iff.rfl (by rw [hout]; rfl), ?_, h.word, h.ordered.push fun e he => ?_,
    h.calls_move fun l hl heq => ?_⟩
  · rw [completed_push hnot, store_move (by decide) hstore]
    exact h.done
  · rcases hpc with hpc | hpc
    · rw [hpc] at he
      cases he
      obtain ⟨l, -, heq⟩ := h.calls t
      refine ⟨t, mem_of_mem_own ?_⟩
      rw [heq, hpc]
      exact List.mem_cons_self
    · rw [hpc] at he
      cases he
      trivial
  · rcases hpc with hpc | hpc
    · refine ⟨_, hl.returned, ?_⟩
      rw [heq, hpc]
      rfl
    · refine ⟨_, hl.raised, ?_⟩
      rw [heq, hpc]
      rfl

theorem Inv.init : Inv (program Tid).machine.init ([] : History Tid) where
  guard := ⟨⟨fun h => absurd h (show (0 : U32) ≠ 1 by decide), fun ⟨_, h⟩ => nomatch h⟩,
    fun _ _ h => nomatch h⟩
  done := by
    refine iff_of_false (fun ⟨_, h⟩ => nomatch h) ?_
    rintro (h | ⟨_, h⟩)
    · exact absurd h (show (0 : U32) ≠ 2 by decide)
    · cases h
  word := Or.inl rfl
  ordered := trivial
  calls _ := ⟨[], .nil, rfl⟩

theorem Inv.next {a : Act Tid Label} {x x' : State Tid × History Tid} (h : Inv x.1 x.2)
    (hnext : (observed Tid).next x a = some x') : Inv x'.1 x'.2 := by
  obtain ⟨hmove, hrecord⟩ := Machine.observe_next hnext
  rw [hrecord]
  generalize x'.1 = s' at hmove
  cases Program.transition_of_next _ hmove with
  | step awake hstep => exact h.move (effect_of_step hstep)
  | sleep awake hwait holds => exact ⟨h.guard, h.done, h.word, h.ordered, h.calls⟩
  | ret hwait => exact h.resume _
  | @wake t c woken awake hwake chosen =>
      obtain ⟨hpc, rfl⟩ := wake_eq_some hwake
      have hsame : ((program Tid).resume x.1 woken).thread t = x.1.thread t := by
        rw [Program.resume_thread]
        split_ifs
        · rcases hpc with hpc | hpc <;> rw [hpc] <;> rfl
        · rfl
      have hleave := (h.resume woken).leave (t := t) (by rwa [hsame])
      rwa [hsame] at hleave
  | requeue awake hrequeue => cases hrequeue
  | refused awake hrequeue => cases hrequeue

theorem inv_of_reachable {x : State Tid × History Tid} (h : (observed Tid).Reachable anyStep x) :
    Inv x.1 x.2 :=
  h.induct (I := fun x => Inv x.1 x.2) Inv.init fun _ ih hnext _ => ih.next hnext

/-! ### The sleepers -/

theorem wakesAll : (program Tid).WakesAll Pc.waking where
  wait hwait := by
    obtain ⟨rfl, -⟩ := wait_eq_some hwait
    rfl
  step := by
    intro t l m th m' th' hstep
    cases th with
    | wakeAll | wakeReset => cases l <;> cases hstep
    | _ => rfl
  wake hwake := by
    obtain ⟨-, rfl⟩ := wake_eq_some hwake
    rfl
  requeue _ := rfl

/-- Only the two stores end the section, and a wake follows either. -/
theorem Effect.watched {state : U32} {pc' : Pc} (h : Effect state pc m pc' o) (hone : state = 1) :
    m = 1 ∨ pc'.waking = true := by
  cases h with
  | win free hpc => exact Or.inl rfl
  | store hpc => exact Or.inr rfl
  | reset hpc => exact Or.inr rfl
  | _ => exact Or.inl hone

theorem watched_of_reachable {x : State Tid × History Tid} (h : (observed Tid).Reachable anyStep x) :
    Watched (· = 1) Pc.waking x.1 := by
  refine h.induct (I := fun x => Watched (· = 1) Pc.waking x.1) Watched.init ?_
  intro x a x' _ ih hnext _
  refine ih.next wakesAll (Machine.observe_next hnext).1 ?_ ?_
  · intro t c _ hwait holds
    obtain ⟨-, rfl⟩ := wait_eq_some hwait
    exact eq_of_beq holds
  · intro t l m th _ hstep _ hone
    refine (Effect.watched (effect_of_step hstep) hone).imp_right fun hwaking => ⟨t, ?_⟩
    rwa [Config.move_thread, Function.update_self]

/-! ### `call_once` -/

/-- The callables of one flag in the state `s` of a run with the events `w`. -/
structure Law (s : State Tid) (w : History Tid) : Prop where
  alone : ∀ t u, s.thread t = .callable → s.thread u = .callable → t = u
  /-- No callable begins or is completed after one that was completed. -/
  last : ∀ l x l', w = l ++ x :: l' → x.2 = .completed →
    ∀ y ∈ l, y.2 ≠ .started ∧ y.2 ≠ .completed
  /-- A call returns only after a callable was completed. -/
  after : ∀ l x l', w = l ++ x :: l' → x.2 = .returned → ∃ u, (u, .completed) ∈ l'
  /-- An exception leaves the call that ran the callable, and no other. -/
  calls : ∀ t, ∃ l, Calls l ∧ own t w = (s.thread t).events ++ l
  /-- Unless a callable has been completed or is at work, the next CAS begins one: also after all
  callables so far have thrown. -/
  reopened : (∀ u, (u, .completed) ∉ w) → (∀ u, (s.thread u).inside = false) →
    run s.mem .cas = some (1, .callable)
  /-- A thread sleeps only while a callable runs, or until a wake that is going to come. -/
  awake : ∀ t, s.asleep t = some () →
    (∃ u, s.thread u = .callable) ∨ ∃ u, (s.thread u).owes = true

theorem Ordered.last {l l' : History Tid} {x : Tid × Event} (h : Ordered (l ++ x :: l'))
    (hx : x.2 = .completed) : ∀ y ∈ l, y.2 ≠ .started ∧ y.2 ≠ .completed := by
  intro y hy
  obtain ⟨l₁, l₂, rfl⟩ := List.append_of_mem hy
  rw [List.append_assoc, List.cons_append] at h
  have hfits := h.of_append
  have hmem : Completed (l₂ ++ x :: l') := by
    refine ⟨x.1, List.mem_append_right _ ?_⟩
    rw [← hx]
    exact List.mem_cons_self
  constructor <;> intro hy <;> rw [hy] at hfits <;> exact hfits hmem

theorem Inv.reopened (h : Inv s w) (hnone : ∀ u, (u, Event.completed) ∉ w)
    (hout : ∀ u, (s.thread u).inside = false) : run s.mem .cas = some (1, .callable) := by
  have hone : s.mem ≠ 1 := by
    intro hone
    obtain ⟨u, hu⟩ := h.guard.iff.mp hone
    rw [hout u] at hu
    cases hu
  have htwo : s.mem ≠ 2 := fun htwo => by
    obtain ⟨u, hu⟩ := (h.open hone).mpr htwo
    exact hnone u hu
  rw [run, if_pos ((h.word.resolve_right fun hor => hor.elim hone htwo))]

theorem owes_of_waking {pc : Pc} (h : pc.waking = true) : pc.owes = true := by
  cases pc <;> first | rfl | cases h

theorem owes_of_inside {pc : Pc} (h : pc.inside = true) : pc = .callable ∨ pc.owes = true := by
  cases pc <;> first | exact Or.inl rfl | exact Or.inr rfl | cases h

/-- In every run the callables of a flag are run to success once, and nobody is left asleep. -/
theorem call_once_exactly_once {x : State Tid × History Tid}
    (h : (observed Tid).Reachable anyStep x) : Law x.1 x.2 := by
  have hinv := inv_of_reachable h
  refine ⟨fun t u ht hu => ?_, fun l y l' heq hy => ?_, fun l y l' heq hy => ?_, hinv.calls,
    hinv.reopened, fun t ht => ?_⟩
  · exact hinv.guard.unique t u (by rw [ht]; rfl) (by rw [hu]; rfl)
  · have hordered := hinv.ordered
    rw [heq] at hordered
    exact hordered.last hy
  · have hordered := hinv.ordered
    rw [heq] at hordered
    have hfits := hordered.of_append
    rwa [hy] at hfits
  · rcases watched_of_reachable h ⟨t, ht⟩ with hone | ⟨u, hu⟩
    · obtain ⟨u, hu⟩ := hinv.guard.iff.mp hone
      rcases owes_of_inside hu with hu | hu
      · exact Or.inl ⟨u, hu⟩
      · exact Or.inr ⟨u, hu⟩
    · exact Or.inr ⟨u, owes_of_waking hu⟩

/-- The callable of `a` throws while `b` sleeps; then `b` completes its own, and `c` returns. -/
def throwRun : List (Act Runner Label) :=
  [.step .a .callOnce, .step .a .run, .step .a .run, .step .b .callOnce, .step .b .run, .step .b .run,
    .sleep .b, .step .a .throw, .step .a .run, .wake .a {.b}, .step .b .run, .step .b .complete,
    .step .b .run, .step .c .callOnce, .step .c .run]

theorem call_once_exactly_once_throws : ∃ x : State Runner × History Runner,
    x.2 = [(.c, .returned), (.c, .called), (.b, .completed), (.b, .started), (.a, .raised),
      (.a, .threw), (.b, .called), (.a, .started), (.a, .called)] ∧ Law x.1 x.2 :=
  let M := observed Runner
  ⟨(M.run anyStep M.init throwRun).get (by decide), by decide, call_once_exactly_once (.of_run _ _)⟩

end Psync.Once
