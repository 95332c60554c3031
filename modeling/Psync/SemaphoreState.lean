import Psync.SemaphoreModel

/-! Every token is accounted for: it is in `count_`, or has been acquired. While a thread sleeps, every
token in `count_` has an awake thread that is going to try for it, or a wake that is still owed. -/

namespace Psync.CountingSemaphore

open Concurrency

set_option linter.unusedSectionVars false

variable {Tid : Type*}

/-- What a thread contributes to the care for the tokens. -/
def care (p : Pc × Option Unit) : ℕ := (p.1.acquiring && p.2.isNone).toNat + p.1.owed

def places (s : State Tid) : Tid → Pc × Option Unit := fun t => (s.thread t, s.asleep t)

theorem tally_care [Fintype Tid] (s : State Tid) :
    tally care (places s) = awake s + tally Pc.owed s.thread := by
  rw [awake, count_eq_tally]
  exact tally_add (w := fun p : Pc × Option Unit => (p.1.acquiring && p.2.isNone).toNat)
    (v := fun p => p.1.owed)

/-! ### What a step can do -/

/-- A step of an awake thread: what it adds to the count, and what it takes. Only a step that takes a
token lets a call return with one. -/
inductive Effect (m : U32) (pc : Pc) : U32 → Pc → ℕ → ℕ → Prop
  | keep {pc' : Pc} (hcare : m = 0 ∨ care (pc, none) ≤ care (pc', none)) (hnone : pc'.success = false) :
      Effect m pc m pc' 0 0
  | add {update : U32} (hpc : pc = .releaseAdd update) (hlt : m.toNat + update.toNat < 2 ^ 32) :
      Effect m pc (m + update) (.releaseWake update) update.toNat 0
  | take {c : Caller} (hpc : pc = .tryCas c m) (hpos : 0 < m.toNat) :
      Effect m pc (m - 1) c.succeeded 0 1

theorem success_succeeded (c : Caller) : c.succeeded.success = true := by
  cases c with
  | first timed | spin timed i | loop timed => cases timed <;> rfl
  | client | last => rfl

theorem care_succeeded (c : Caller) : care (c.succeeded, none) = 0 := by
  cases c with
  | first timed | spin timed i | loop timed => cases timed <;> rfl
  | client | last => rfl

theorem success_failed (c : Caller) : c.failed.success = false := by
  cases c with
  | loop timed => cases timed <;> rfl
  | _ => rfl

theorem success_tryNext (c : Caller) (m : U32) : (tryNext c m).success = false := by
  rw [tryNext]
  split_ifs
  · exact success_failed c
  · rfl

/-- After the test of `try_acquire` the count is 0, or the thread goes on in the same call. -/
theorem care_tryNext (c : Caller) (m : U32) : m = 0 ∨ care (tryNext c m, none) = c.acquiring.toNat := by
  rw [tryNext]
  split_ifs with hzero
  · exact Or.inl hzero
  · refine Or.inr ?_
    rw [care]
    simp [Pc.acquiring, Pc.owed]

theorem acquiring_eq (pc : Pc) : care (pc, none) = pc.acquiring.toNat + pc.owed := by
  rw [care, Option.isNone_none, Bool.and_true]

variable [DecidableEq Tid] {s s' : State Tid} {h : History} {t : Tid} {m : U32} {pc : Pc}
  {desired leastMaxValue : U32} {released acquired : ℕ}

theorem effect_of_step {l : Label} (hstep : step l s.mem (s.thread t) = some (m, pc))
    (hok : within leastMaxValue s (.step t l) s') (hthread : s'.thread t = pc)
    (hloaded : ∀ c current, s.thread t = .tryCas c current → 0 < current.toNat) :
    ∃ released acquired, Effect s.mem (s.thread t) m pc released acquired ∧
      record h s (.step t l) s' = ⟨h.released + released, h.acquired + acquired⟩ := by
  have begin_call : ∀ {pc' : Pc}, (if s.thread t = .idle then some (s.mem, pc') else none) = some (m, pc) →
      pc'.success = false → Effect s.mem (s.thread t) m pc 0 0 := by
    intro pc' hbegin hnone
    split_ifs at hbegin with hidle
    cases hbegin
    rw [hidle]
    exact .keep (Or.inr (Nat.zero_le _)) hnone
  cases l with
  | release update => exact ⟨0, 0, begin_call hstep rfl, rfl⟩
  | tryAcquire => exact ⟨0, 0, begin_call hstep rfl, rfl⟩
  | acquire => exact ⟨0, 0, begin_call hstep rfl, rfl⟩
  | tryAcquireFor => exact ⟨0, 0, begin_call hstep rfl, rfl⟩
  | now expired =>
      simp only [step] at hstep
      split_ifs at hstep with hclock hexpired
      all_goals
        cases hstep
        rw [hclock]
        exact ⟨0, 0, .keep (Or.inr le_rfl) rfl, rfl⟩
  | run =>
      cases hpc : s.thread t with
      | releaseAdd update =>
          rw [hpc] at hstep
          cases hstep
          rw [within, hpc] at hok
          exact ⟨_, _, .add rfl (lt_of_le_of_lt hok leastMaxValue.isLt), by rw [record, hpc]; rfl⟩
      | tryLoad c =>
          rw [hpc] at hstep
          obtain ⟨rfl, rfl⟩ := Prod.mk.inj (Option.some.inj hstep)
          refine ⟨0, 0, .keep ((care_tryNext c s.mem).imp_right fun heq => ?_) (success_tryNext c s.mem), ?_⟩
          · rw [heq, acquiring_eq]
            exact le_rfl
          · simp only [record, hpc, hthread, success_tryNext, Bool.toNat_false, Nat.add_zero]
      | tryCas c current =>
          have hpos := hloaded c current hpc
          rw [hpc] at hstep
          simp only [step, run] at hstep
          split_ifs at hstep with hsame
          · obtain ⟨rfl, rfl⟩ := Prod.mk.inj (Option.some.inj hstep)
            refine ⟨0, 1, ?_, ?_⟩
            · rw [← hsame] at hpos ⊢
              exact .take rfl hpos
            · simp only [record, hpc, hthread, success_succeeded, Bool.toNat_true, Nat.add_zero]
          · obtain ⟨rfl, rfl⟩ := Prod.mk.inj (Option.some.inj hstep)
            refine ⟨0, 0, .keep ((care_tryNext c s.mem).imp_right fun heq => ?_) (success_tryNext c s.mem), ?_⟩
            · rw [heq, acquiring_eq]
              exact le_rfl
            · simp only [record, hpc, hthread, success_tryNext, Bool.toNat_false, Nat.add_zero]
      | loopLoad timed =>
          rw [hpc] at hstep
          obtain ⟨rfl, rfl⟩ := Prod.mk.inj (Option.some.inj hstep)
          have hnone : (if s.mem = 0 then Pc.futexWait timed else .tryLoad (.loop timed)).success = false := by
            split_ifs <;> rfl
          refine ⟨0, 0, .keep (Or.inr ?_) hnone, ?_⟩
          · split_ifs <;> exact le_rfl
          · simp only [record, hpc, hthread, hnone, Bool.toNat_false, Nat.add_zero]
      | tryAcquired result | acquired | tryAcquiredFor result =>
          rw [hpc] at hstep
          obtain ⟨rfl, rfl⟩ := Prod.mk.inj (Option.some.inj hstep)
          exact ⟨0, 0, .keep (Or.inr le_rfl) rfl, by rw [record, hpc, hthread]; rfl⟩
      | idle | releaseWake update | clock | futexWait timed =>
          rw [hpc] at hstep
          cases hstep

theorem Effect.conserved (heff : Effect s.mem (s.thread t) m pc released acquired) :
    m.toNat + acquired = s.mem.toNat + released := by
  cases heff with
  | keep hcare hnone => rfl
  | add hpc hlt => rw [BitVec.toNat_add_of_lt hlt, add_zero]
  | take hpc hpos =>
      rw [BitVec.toNat_sub_of_le (y := 1) hpos]
      exact Nat.sub_add_cancel hpos

/-- A thread that gives up its care for a token has taken it, or has seen that there is none. -/
theorem Effect.cared (heff : Effect s.mem (s.thread t) m pc released acquired) :
    m.toNat = 0 ∨ m.toNat + care (s.thread t, none) ≤ s.mem.toNat + care (pc, none) := by
  have hsum := heff.conserved
  cases heff with
  | keep hcare hnone => exact hcare.imp (congrArg BitVec.toNat) fun hle => Nat.add_le_add_left hle _
  | add hpc hlt =>
      rw [hpc, acquiring_eq, acquiring_eq]
      simp only [Pc.acquiring, Pc.owed, Bool.toNat_false]
      exact Or.inr (by omega)
  | @take c hpc hpos =>
      have hle := Bool.toNat_le c.acquiring
      rw [hpc, acquiring_eq, care_succeeded]
      simp only [Pc.acquiring, Pc.owed]
      exact Or.inr (by omega)

theorem failed_ne (c c' : Caller) (current : U32) : c.failed ≠ .tryCas c' current := by
  cases c with
  | loop timed => cases timed <;> exact nofun
  | _ => exact nofun

theorem succeeded_ne (c c' : Caller) (current : U32) : c.succeeded ≠ .tryCas c' current := by
  cases c with
  | first timed | spin timed i | loop timed => cases timed <;> exact nofun
  | client | last => exact nofun

theorem tryNext_loaded {c c' : Caller} {current : U32} (h : tryNext c m = .tryCas c' current) :
    0 < current.toNat := by
  rw [tryNext] at h
  split_ifs at h with hzero
  · exact absurd h (failed_ne c c' current)
  · cases h
    exact Nat.pos_of_ne_zero fun heq => hzero (BitVec.eq_of_toNat_eq heq)

/-- The CAS of `try_acquire` is reached only with a positive count. -/
theorem loaded_of_step {l : Label} {c : Caller} {current : U32}
    (h : step l s.mem (s.thread t) = some (m, .tryCas c current)) : 0 < current.toNat := by
  cases l with
  | run =>
      generalize s.thread t = pc at h
      cases pc with
      | tryLoad c' =>
          simp only [step, run, Option.some.injEq, Prod.mk.injEq] at h
          exact tryNext_loaded h.2
      | tryCas c' current' =>
          simp only [step, run] at h
          split_ifs at h
          · exact absurd (Prod.mk.inj (Option.some.inj h)).2 (succeeded_ne c' c current)
          · simp only [Option.some.injEq, Prod.mk.injEq] at h
            exact tryNext_loaded h.2
      | loopLoad timed =>
          simp only [step, run] at h
          split_ifs at h <;> cases h
      | _ => cases h
  | now expired =>
      simp only [step] at h
      split_ifs at h <;> cases h
  | _ =>
      simp only [step] at h
      split_ifs at h
      cases h

/-! ### The invariant -/

variable [Fintype Tid]

structure Inv (desired : U32) (s : State Tid) (h : History) : Prop where
  conserved : s.mem.toNat + h.acquired = desired.toNat + h.released
  loaded : ∀ t c current, s.thread t = .tryCas c current → 0 < current.toNat
  sleeper : ∀ t, s.asleep t = some () → ∃ timed, s.thread t = .futexWait timed
  cared : (∃ t, s.asleep t = some ()) → s.mem.toNat ≤ tally care (places s)

theorem wait_eq_some {c : WaitCall U32 Pc Unit} (h : wait pc = some c) :
    ∃ timed, pc = .futexWait timed ∧ c = futex.wait () id 0 (.tryLoad (.loop timed)) := by
  cases pc with
  | futexWait timed =>
      cases h
      exact ⟨timed, rfl, rfl⟩
  | _ => cases h

theorem wake_eq_some {c : WakeCall Pc Unit} (h : wake pc = some c) :
    ∃ update, pc = .releaseWake update ∧ c = futex.wake () update.toInt .idle := by
  cases pc with
  | releaseWake update =>
      cases h
      exact ⟨update, rfl, rfl⟩
  | _ => cases h

theorem places_move : places (s.move t m pc) =
    Function.update (places s) t (pc, s.asleep t) := by
  funext u
  rw [places, Config.move_thread, Config.move_asleep, Function.update_apply, Function.update_apply]
  split_ifs with hut
  · rw [hut]
  · rfl

theorem Inv.move (hinv : Inv desired s h) (awake : s.asleep t = none)
    (heff : Effect s.mem (s.thread t) m pc released acquired)
    (hloaded : ∀ c current, pc = .tryCas c current → 0 < current.toNat) :
    Inv desired (s.move t m pc) ⟨h.released + released, h.acquired + acquired⟩ where
  conserved := by
    have hsum := heff.conserved
    have hold := hinv.conserved
    simp only [Config.move_mem]
    omega
  loaded u c current hu := by
    rw [Config.move_thread, Function.update_apply] at hu
    split_ifs at hu
    · exact hloaded c current hu
    · exact hinv.loaded u c current hu
  sleeper u hu := by
    have hut : u ≠ t := by
      rintro rfl
      rw [Config.move_asleep, awake] at hu
      cases hu
    rw [Config.move_thread, Function.update_of_ne hut]
    exact hinv.sleeper u hu
  cared hu := by
    have hold := hinv.cared hu
    have htally := tally_update (w := care) (f := places s) t (pc, none)
    have hplace : places s t = (s.thread t, none) := by rw [places, awake]
    rw [hplace] at htally
    rw [places_move, awake, Config.move_mem]
    rcases heff.cared with hzero | hle
    · omega
    · omega

theorem Inv.sleep {c : WaitCall U32 Pc Unit} (hinv : Inv desired s h)
    (hwait : wait (s.thread t) = some c) (holds : c.holds s.mem = true) : Inv desired (s.sleep t c.addr) h := by
  obtain ⟨timed, hpc, rfl⟩ := wait_eq_some hwait
  have hzero : s.mem = 0 := eq_of_beq holds
  refine ⟨hinv.conserved, hinv.loaded, fun u hu => ?_, fun _ => ?_⟩
  · rw [Config.sleep_asleep, Function.update_apply] at hu
    split_ifs at hu with hut
    · exact ⟨timed, by rw [Config.sleep_thread, hut, hpc]⟩
    · exact hinv.sleeper u hu
  · rw [Config.sleep_mem, hzero]
    exact Nat.zero_le _

/-- A return from `futex::wait` leads back into the loop. -/
theorem afterWait_eq (pc : Pc) : (program Tid desired).afterWait pc = pc ∨ ∃ timed,
    pc = .futexWait timed ∧ (program Tid desired).afterWait pc = .tryLoad (.loop timed) := by
  cases pc with
  | futexWait timed => exact Or.inr ⟨timed, rfl, rfl⟩
  | _ => exact Or.inl rfl

theorem afterWait_acquiring (pc : Pc) :
    ((program Tid desired).afterWait pc).acquiring = pc.acquiring := by
  cases pc <;> rfl

theorem afterWait_owed (pc : Pc) : ((program Tid desired).afterWait pc).owed = pc.owed := by
  cases pc <;> rfl

theorem care_resume (woken : Finset Tid) (u : Tid) :
    care (places ((program Tid desired).resume s woken) u) =
      if u ∈ woken then care ((s.thread u), none) else care (places s u) := by
  rw [care, places, Program.resume_asleep]
  simp only [Program.resume_same _ afterWait_acquiring, Program.resume_same _ afterWait_owed]
  split_ifs <;> rfl

theorem care_le (pc : Pc) (a : Option Unit) : care (pc, a) ≤ care (pc, none) := by
  cases a with
  | none => exact le_rfl
  | some x =>
      rw [care, Option.isNone_some, Bool.and_false]
      exact Nat.add_le_add_right (Nat.zero_le _) _

theorem Inv.resume (hinv : Inv desired s h) (woken : Finset Tid) :
    Inv desired ((program Tid desired).resume s woken) h where
  conserved := hinv.conserved
  loaded u c current hu := by
    rw [Program.resume_thread] at hu
    split_ifs at hu
    · have hafter : (program Tid desired).afterWait (s.thread u) = s.thread u ∨ _ := afterWait_eq _
      rcases hafter with heq | ⟨timed, -, heq⟩
      · rw [heq] at hu
        exact hinv.loaded u c current hu
      · rw [heq] at hu
        cases hu
    · exact hinv.loaded u c current hu
  sleeper u hu := by
    rw [Program.resume_asleep] at hu
    split_ifs at hu with hw
    rw [Program.resume_thread, if_neg hw]
    exact hinv.sleeper u hu
  cared := by
    rintro ⟨u, hu⟩
    rw [Program.resume_asleep] at hu
    split_ifs at hu
    refine (hinv.cared ⟨u, hu⟩).trans (tally_mono fun v => ?_)
    rw [care_resume]
    split_ifs
    · exact care_le _ _
    · exact le_rfl

/-- The wakes of a `release` reach as many sleepers as it owes, unless they reach all of them. -/
theorem owed_le {update : U32} {woken : Finset Tid} {u : Tid}
    (chosen : Chosen (futex.wake () update.toInt Pc.idle).count (s.sleepers ()) woken)
    (hu : s.asleep u = some ()) (hnot : u ∉ woken) : update.toNat ≤ woken.card := by
  have hmem : u ∈ s.sleepers () := s.mem_sleepers.mpr hu
  have hlt : woken.card < (s.sleepers ()).card :=
    Finset.card_lt_card (Finset.ssubset_iff_subset_ne.mpr ⟨chosen.1, fun heq => hnot (by rwa [heq])⟩)
  have hcard := chosen.2
  simp only [futex.wake] at hcard
  split_ifs at hcard with hle
  · rw [Option.getD_none, inf_idem] at hcard
    omega
  · have hint : update.toInt.toNat = update.toNat := by
      rw [BitVec.toInt_eq_toNat_cond] at hle ⊢
      split_ifs at hle ⊢ <;> omega
    rw [Option.getD_some, hint] at hcard
    omega

theorem Inv.wake {c : WakeCall Pc Unit} {woken : Finset Tid} (hinv : Inv desired s h)
    (awake : s.asleep t = none) (hwake : wake (s.thread t) = some c)
    (chosen : Chosen c.count (s.sleepers c.addr) woken) :
    Inv desired (((program Tid desired).resume s woken).move t s.mem c.after) h := by
  obtain ⟨update, hpc, rfl⟩ := wake_eq_some hwake
  have hresume := hinv.resume woken
  have hnot : t ∉ woken := fun ht => by
    have := s.mem_sleepers.mp (chosen.1 ht)
    rw [awake] at this
    cases this
  have hawake : ((program Tid desired).resume s woken).asleep t = none := by
    rw [Program.resume_asleep, if_neg hnot, awake]
  refine ⟨hresume.conserved, fun u c' current hu => ?_, fun u hu => ?_, ?_⟩
  · rw [Config.move_thread, Function.update_apply] at hu
    split_ifs at hu
    · cases hu
    · exact hresume.loaded u c' current hu
  · have hut : u ≠ t := by
      rintro rfl
      rw [Config.move_asleep, hawake] at hu
      cases hu
    rw [Config.move_thread, Function.update_of_ne hut]
    exact hresume.sleeper u hu
  · rintro ⟨u, hu⟩
    rw [Config.move_asleep, Program.resume_asleep] at hu
    split_ifs at hu with hw
    have howed := owed_le chosen hu hw
    have hold := hinv.cared ⟨u, hu⟩
    -- every woken thread cares for one token from now on
    have hwoken : tally care (places ((program Tid desired).resume s woken)) =
        tally care (places s) + woken.card := by
      refine tally_add_card (fun v hv => ?_) fun v hv => ?_
      · obtain ⟨timed, hfutex⟩ := hinv.sleeper v (s.mem_sleepers.mp (chosen.1 hv))
        rw [care_resume, if_pos hv, places, s.mem_sleepers.mp (chosen.1 hv), hfutex]
        rfl
      · rw [care_resume, if_neg hv]
    have hleave := tally_update (w := care)
      (f := places ((program Tid desired).resume s woken)) t (Pc.idle, none)
    rw [care_resume, if_neg hnot, places, awake, hpc, acquiring_eq, acquiring_eq] at hleave
    simp only [Pc.acquiring, Pc.owed, Bool.toNat_false] at hleave
    rw [places_move, hawake, Config.move_mem]
    simp only [futex.wake]
    omega

theorem Inv.init : Inv desired (program Tid desired).machine.init ⟨0, 0⟩ where
  conserved := rfl
  loaded _ _ _ h := nomatch h
  sleeper _ h := nomatch h
  cared := fun ⟨_, h⟩ => nomatch h

theorem inv_of_reachable {x : State Tid × History}
    (h : (observed Tid desired).Reachable (fun x a x' => within leastMaxValue x.1 a x'.1) x) :
    Inv desired x.1 x.2 := by
  refine h.induct (I := fun x => Inv desired x.1 x.2) Inv.init ?_
  intro x a x' _ ih hnext hok
  obtain ⟨hmove, hrecord⟩ := Machine.observe_next hnext
  rw [hrecord]
  generalize x'.1 = s' at hmove hok
  cases Program.transition_of_next _ hmove with
  | step awake hstep =>
      obtain ⟨released, acquired, heff, heq⟩ := effect_of_step (h := x.2) hstep hok
        (by rw [Config.move_thread, Function.update_self]) (ih.loaded _)
      rw [heq]
      exact ih.move awake heff fun c current hpc => loaded_of_step (hpc ▸ hstep)
  | sleep awake hwait holds => exact ih.sleep hwait holds
  | ret hwait => exact ih.resume _
  | wake awake hwake chosen => exact ih.wake awake hwake chosen
  | requeue awake hrequeue => cases hrequeue
  | refused awake hrequeue => cases hrequeue

/-- Thread `t` falls asleep in `try_acquire_for`. -/
def sleepRun (t : Runner) : List (Act Runner Label) :=
  .step t .tryAcquireFor :: List.replicate 18 (.step t .run) ++
    [.step t (.now false), .step t .run, .sleep t]

/-- Threads `a` and `b` sleep, and `c` has released two tokens and has not asked for the wakes yet. -/
def owedRun : List (Act Runner Label) :=
  sleepRun .a ++ sleepRun .b ++ [.step .c (.release 2), .step .c .run]

end Psync.CountingSemaphore
