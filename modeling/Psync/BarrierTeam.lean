import Psync.BarrierCount

/-! A fixed team, of as many threads as the barrier expects, all of which call `arrive_and_wait` over
and over. A thread that has not arrived in the current phase keeps it open, so that nobody arrives
while the counter is about to be reset, and all runs of a team are prompt. -/

namespace Psync.Barrier

open Concurrency MachineWord

set_option linter.unusedSectionVars false

variable {Tid : Type*} [Fintype Tid] [DecidableEq Tid]

/-- The thread is in a call and has not executed its `fetch_sub`. -/
def Pc.arriving : Pc → Bool
  | .loadPhase _ | .fetchSub .. => true
  | _ => false

/-- What is known about a thread of the team: it has arrived in the current phase and waits for it,
or it has not arrived in it. -/
structure Member (phase : U32) (h : History Tid) (t : Tid) (pc : Pc) : Prop where
  joint : pc.split = false
  /-- The thread arrives once in each of its calls. -/
  calls : h.calls t = h.arrivals t + if pc.arriving then 1 else 0
  ge : h.completed ≤ h.arrivals t
  le : h.arrivals t ≤ h.completed + 1
  out : pc.token = none → h.arrivals t = h.completed
  own : pc.token.isSome → h.arrivals t = h.own t + 1
  loaded : ∀ call current, pc = .fetchSub call current → current = phase
  waking : pc.waking = true → h.arrivals t = h.completed

structure Team (s : Config Tid Mem Pc Unit) (h : History Tid) : Prop where
  member : ∀ t, Member s.mem.phase h t (s.thread t)
  /-- A thread that sleeps in a phase that is complete is going to be woken. -/
  asleep : ∀ t, s.asleep t = some () → (∃ current, s.thread t = .waitFutex current) ∧
    (h.arrivals t = h.completed → ∃ u, (s.thread u).waking = true)

variable {expected : U32} {s s' : Config Tid Mem Pc Unit} {h h' : History Tid} {t : Tid} {m : Mem}
  {pc : Pc}

/-- Once the last thread has arrived, everybody has. -/
theorem Team.complete (hteam : Team s h) (hc : Count expected s h)
    (hcard : expected.toNat = Fintype.card Tid) (ht : (s.thread t).stage.isSome) (u : Tid) :
    h.arrivals u = h.completed + 1 := by
  refine eq_of_tally_eq (w := id) (fun u => (hteam.member u).le) ?_ u
  rw [← hcard]
  exact hc.complete t ht

/-- A thread that has not arrived keeps the phase open. -/
theorem Team.open (hteam : Team s h) (hc : Count expected s h)
    (hcard : expected.toNat = Fintype.card Tid) (ht : (s.thread t).token = none) (u : Tid) :
    (s.thread u).stage = none := by
  cases hu : (s.thread u).stage with
  | none => rfl
  | some b =>
      have hall := hteam.complete hc hcard (t := u) (by rw [hu]; rfl) t
      have hout := (hteam.member t).out ht
      omega

theorem Team.prompt {l : Label} (hteam : Team s h) (hc : Count expected s h)
    (hcard : expected.toNat = Fintype.card Tid) : prompt s (.step t l) s' := by
  cases l with
  | run =>
      cases hpc : s.thread t with
      | fetchSub call current =>
          simp only [Barrier.prompt, hpc]
          refine ⟨(hteam.member t).loaded call current hpc, fun u => last_iff.mpr ?_⟩
          exact hteam.open hc hcard (t := t) (by rw [hpc]; rfl) u
      | _ =>
          simp only [Barrier.prompt, hpc]
  | _ => exact trivial

/-- A step of a thread that is awake and does not wake others. -/
theorem Team.move (hteam : Team s h) (awake : s.asleep t = none)
    (hwaking : (s.thread t).waking = false) (hcompleted : h'.completed = h.completed)
    (hphase : m.phase = s.mem.phase) (harrivals : ∀ u, u ≠ t → h'.arrivals u = h.arrivals u)
    (hown : ∀ u, u ≠ t → h'.own u = h.own u) (hcalls : ∀ u, u ≠ t → h'.calls u = h.calls u)
    (hpc : Member m.phase h' t pc) : Team (s.move t m pc) h' := by
  refine ⟨fun u => ?_, fun u hu => ?_⟩
  · rw [Config.move_thread, Function.update_apply]
    split_ifs with hut
    · rw [hut]
      exact hpc
    · obtain ⟨hjoint, hcall, hge, hle, hout, hown', hloaded, hwake⟩ := hteam.member u
      rw [← harrivals u hut, ← hcalls u hut] at hcall
      rw [← harrivals u hut, ← hcompleted] at hge hle hout hwake
      rw [← harrivals u hut, ← hown u hut] at hown'
      exact ⟨hjoint, hcall, hge, hle, hout, hown', fun call current h => (hloaded call current h).trans hphase.symm,
        hwake⟩
  · have hut : u ≠ t := by
      rintro rfl
      rw [Config.move_asleep, awake] at hu
      cases hu
    obtain ⟨⟨current, hu⟩, hwoken⟩ := hteam.asleep u hu
    refine ⟨⟨current, by rw [Config.move_thread, Function.update_of_ne hut, hu]⟩, fun heq => ?_⟩
    rw [harrivals u hut, hcompleted] at heq
    obtain ⟨v, hv⟩ := hwoken heq
    have hvt : v ≠ t := by
      rintro rfl
      rw [hwaking] at hv
      cases hv
    exact ⟨v, by rwa [Config.move_thread, Function.update_of_ne hvt]⟩

/-- The last thread completes the phase and is about to wake the others. -/
theorem Team.advance {call : Call} {current : U32} (hteam : Team s h) (hc : Count expected s h)
    (hcard : expected.toNat = Fintype.card Tid) (awake : s.asleep t = none)
    (hpc : s.thread t = .advance call current) :
    Team (s.move t { s.mem with phase := s.mem.phase + 1 } (.wakeAll call current))
      { h with completed := h.completed + 1 } := by
  have hall := hteam.complete hc hcard (t := t) (by rw [hpc]; rfl)
  have hself : ((s.move t { s.mem with phase := s.mem.phase + 1 } (.wakeAll call current)).thread t)
      = .wakeAll call current := by
    rw [Config.move_thread, Function.update_self]
  refine ⟨fun u => ?_, fun u hu => ⟨?_, fun _ => ⟨t, by rw [hself]; rfl⟩⟩⟩
  · obtain ⟨hjoint, hcall, -, -, hout, hown, -, -⟩ := hteam.member u
    have hu := hall u
    rw [Config.move_thread, Function.update_apply]
    split_ifs with hut
    · rw [hut, hpc] at hjoint hcall hown
      rw [hut] at hu ⊢
      exact ⟨hjoint, hcall, hu.ge, hu.le.trans (Nat.le_succ _), fun _ => hu, hown, nofun, fun _ => hu⟩
    · refine ⟨hjoint, hcall, hu.ge, hu.le.trans (Nat.le_succ _), fun _ => hu, hown, fun c cur hfetch => ?_,
        fun _ => hu⟩
      have hnone := hout (by rw [hfetch]; rfl)
      omega
  · have hut : u ≠ t := by
      rintro rfl
      rw [Config.move_asleep, awake] at hu
      cases hu
    obtain ⟨⟨cur, hu⟩, -⟩ := hteam.asleep u hu
    exact ⟨cur, by rw [Config.move_thread, Function.update_of_ne hut, hu]⟩

/-- The thread keeps its arrival. -/
theorem Member.keep {phase : U32} {pc' : Pc} (hm : Member phase h t pc) (hsplit : pc'.split = false)
    (harriving : pc'.arriving = pc.arriving) (htoken : pc'.token.isSome = pc.token.isSome)
    (hloaded : ∀ call current, pc' = .fetchSub call current → current = phase)
    (hwaking : pc'.waking = false) : Member phase h t pc' where
  joint := hsplit
  calls := by rw [harriving, hm.calls]
  ge := hm.ge
  le := hm.le
  out hnone := by
    refine hm.out ?_
    rw [hnone] at htoken
    exact Option.isNone_iff_eq_none.mp (by simpa using htoken.symm)
  own hsome := hm.own (by rwa [← htoken])
  loaded := hloaded
  waking h := by
    rw [hwaking] at h
    cases h

/-- The thread begins a call. -/
theorem Member.call {phase : U32} (hm : Member phase h t .idle) :
    Member phase { h with calls := Function.update h.calls t (h.calls t + 1) } t
      (.loadPhase .arriveAndWait) where
  joint := rfl
  calls := by
    have hcall := hm.calls
    simp only [Function.update_self, hcall]
    rfl
  ge := hm.ge
  le := hm.le
  out _ := hm.out rfl
  own htoken := by cases htoken
  loaded _ _ hfetch := by cases hfetch
  waking hwaking := by cases hwaking

/-- The thread arrives, and then waits or is the last one. -/
theorem Member.arrive {phase : U32} {pc' : Pc} (hm : Member phase h t pc) (hpc : pc.token = none)
    (harriving : pc.arriving = true) (harrived : pc'.arriving = false) (hsplit : pc'.split = false)
    (htoken : pc'.token.isSome) (hwaking : pc'.waking = false) : Member phase (h.arrive t) t pc' := by
  have hout := hm.out hpc
  refine ⟨hsplit, ?_, ?_, ?_, fun hnone => ?_, fun _ => ?_, fun call current hfetch => ?_, fun h => ?_⟩
  · rw [calls_arrive, arrivals_arrive_self, hm.calls, harriving, harrived]
    rfl
  · rw [completed_arrive, arrivals_arrive_self, hout]
    exact Nat.le_succ _
  · rw [completed_arrive, arrivals_arrive_self, hout]
  · rw [hnone] at htoken
    cases htoken
  · rw [arrivals_arrive_self, own_arrive_self, hout]
  · rw [hfetch] at htoken
    cases htoken
  · rw [hwaking] at h
    cases h

theorem call_of_joint {call : Call} (h : decide (call = .arrive) = false) : call = .arriveAndWait := by
  cases call with
  | arrive => cases h
  | arriveAndWait => rfl

theorem Team.run (hteam : Team s h) (hinv : Inv expected s h)
    (hcard : expected.toNat = Fintype.card Tid) (awake : s.asleep t = none)
    (hrun : run expected s.mem (s.thread t) = some (m, pc)) :
    Team (s.move t m pc) (record h s (.step t .run) s') := by
  have hm := hteam.member t
  cases hpc : s.thread t with
  | idle | wakeAll call current | waitFutex current =>
      rw [hpc] at hrun
      cases hrun
  | loadPhase call =>
      rw [hpc] at hrun hm
      cases hrun
      simp only [record, hpc]
      refine hteam.move awake (by rw [hpc]; rfl) rfl rfl (fun _ _ => rfl) (fun _ _ => rfl) (fun _ _ => rfl) ?_
      refine hm.keep hm.joint rfl rfl (fun call' current heq => ?_) rfl
      cases heq
      rfl
  | fetchSub call current =>
      rw [hpc, Barrier.run, Option.some.injEq, Prod.mk.injEq] at hrun
      obtain ⟨rfl, rfl⟩ := hrun
      rw [hpc] at hm
      obtain rfl := call_of_joint hm.joint
      simp only [record, hpc]
      refine hteam.move awake (by rw [hpc]; rfl) rfl rfl (fun u hut => Function.update_of_ne hut ..)
        (fun u hut => Function.update_of_ne hut ..) (fun _ _ => rfl) ?_
      split_ifs
      · exact hm.arrive rfl rfl rfl rfl rfl rfl
      · exact hm.arrive rfl rfl rfl rfl rfl rfl
  | reset call current =>
      rw [hpc] at hrun hm
      cases hrun
      simp only [record, hpc]
      refine hteam.move awake (by rw [hpc]; rfl) rfl rfl (fun _ _ => rfl) (fun _ _ => rfl) (fun _ _ => rfl) ?_
      exact hm.keep hm.joint rfl rfl (fun _ _ hfetch => by cases hfetch) rfl
  | advance call current =>
      rw [hpc, Barrier.run, Option.some.injEq, Prod.mk.injEq] at hrun
      obtain ⟨rfl, rfl⟩ := hrun
      simp only [record, hpc]
      exact hteam.advance hinv.count hcard awake hpc
  | ret token =>
      rw [hpc] at hm
      cases hm.joint
  | waitLoad current =>
      rw [hpc] at hrun hm
      cases hrun
      simp only [record, hpc]
      refine hteam.move awake (by rw [hpc]; rfl) rfl rfl (fun _ _ => rfl) (fun _ _ => rfl) (fun _ _ => rfl) ?_
      split_ifs with hphase
      · exact hm.keep rfl rfl rfl (fun _ _ hfetch => by cases hfetch) rfl
      · -- the phase of the arrival is complete, since the word has changed
        have hown := hm.own rfl
        obtain ⟨hcurrent, hle⟩ := hinv.tokens.own t current (by rw [hpc]; rfl)
        have hne : h.own t ≠ h.completed := by
          intro heq
          rw [hcurrent, hinv.count.phase, heq] at hphase
          exact hphase rfl
        have := hm.ge
        exact ⟨rfl, hm.calls, hm.ge, hm.le, fun _ => by omega, fun htoken => (by cases htoken),
          fun _ _ hfetch => (by cases hfetch), fun hwaking => (by cases hwaking)⟩

theorem Team.step {l : Label} (hteam : Team s h) (hinv : Inv expected s h)
    (hcard : expected.toNat = Fintype.card Tid) (awake : s.asleep t = none)
    (hstep : step expected l s.mem (s.thread t) = some (m, pc)) (hok : teamOnly s (.step t l) s') :
    Team (s.move t m pc) (record h s (.step t l) s') := by
  cases l with
  | run => exact hteam.run hinv hcard awake hstep
  | arriveAndWait =>
      simp only [Barrier.step] at hstep
      split_ifs at hstep with hpc
      cases hstep
      have hm := hteam.member t
      rw [hpc] at hm
      refine hteam.move awake (by rw [hpc]; rfl) rfl rfl (fun _ _ => rfl) (fun _ _ => rfl)
        (fun u hut => Function.update_of_ne hut ..) ?_
      exact hm.call
  | arrive => exact hok.elim
  | wait i => exact hok.elim

theorem Team.sleep {current : U32} (hteam : Team s h) (hinv : Inv expected s h)
    (hpc : s.thread t = .waitFutex current) (hphase : s.mem.phase = current) :
    Team (s.sleep t ()) h := by
  refine ⟨hteam.member, fun u hu => ?_⟩
  rw [Config.sleep_asleep, Function.update_apply] at hu
  split_ifs at hu with hut
  · -- the phase that the thread waits for is the current one
    subst hut
    refine ⟨⟨current, hpc⟩, fun heq => ?_⟩
    have hown := (hteam.member u).own (by rw [hpc]; rfl)
    obtain ⟨hcurrent, hle⟩ := hinv.tokens.own u current (by rw [hpc]; rfl)
    rw [← hphase, hinv.count.phase] at hcurrent
    have := ofNat_inj (r := h.own u) hle (by omega) le_rfl (by omega) hcurrent
    omega
  · exact hteam.asleep u hu

theorem Team.resume (hteam : Team s h) (woken : Finset Tid) :
    Team ((program Tid expected).resume s woken) h := by
  have hkeep : ∀ u, Member s.mem.phase h u ((program Tid expected).afterWait (s.thread u)) ∧
      ((program Tid expected).afterWait (s.thread u)).waking = (s.thread u).waking := by
    intro u
    have hm := hteam.member u
    cases hpc : s.thread u with
    | waitFutex current =>
        rw [hpc] at hm
        exact ⟨hm.keep rfl rfl rfl nofun rfl, rfl⟩
    | _ =>
        rw [hpc] at hm
        exact ⟨hm, rfl⟩
  have hwaking : ∀ u, (((program Tid expected).resume s woken).thread u).waking =
      (s.thread u).waking := by
    intro u
    rw [Program.resume_thread]
    split_ifs
    · exact (hkeep u).2
    · rfl
  refine ⟨fun u => ?_, fun u hu => ?_⟩
  · rw [Program.resume_thread]
    split_ifs
    · exact (hkeep u).1
    · exact hteam.member u
  · rw [Program.resume_asleep] at hu
    split_ifs at hu with hwoken
    obtain ⟨⟨current, hpc⟩, hwake⟩ := hteam.asleep u hu
    refine ⟨⟨current, by rw [Program.resume_thread, if_neg hwoken, hpc]⟩, fun heq => ?_⟩
    obtain ⟨v, hv⟩ := hwake heq
    exact ⟨v, by rwa [hwaking]⟩

/-- After `futex::wake_all` nobody sleeps. -/
theorem Team.wake {call : Call} {current : U32} {woken : Finset Tid} (hteam : Team s h)
    (hpc : s.thread t = .wakeAll call current) (hall : s.sleepers () = woken) :
    Team (((program Tid expected).resume s woken).move t s.mem (afterWake call current)) h := by
  refine ⟨fun u => ?_, fun u hu => ?_⟩
  · rw [Config.move_thread, Function.update_apply]
    split_ifs with hut
    · have hm := hteam.member t
      rw [hpc] at hm
      obtain rfl := call_of_joint hm.joint
      rw [hut]
      exact ⟨rfl, hm.calls, hm.ge, hm.le, fun _ => hm.waking rfl, nofun, nofun, nofun⟩
    · exact (hteam.resume woken).member u
  · rw [Config.move_asleep, Program.resume_asleep, ← hall] at hu
    split_ifs at hu with hwoken
    exact absurd ((Config.mem_sleepers s).mpr hu) hwoken

theorem Team.next {w w' : Config Tid Mem Pc Unit × History Tid} {a : Act Tid Label}
    (hteam : Team w.1 w.2) (hinv : Inv expected w.1 w.2)
    (hcard : expected.toNat = Fintype.card Tid)
    (hnext : (machine Tid expected).next w a = some w') (hok : teamOnly w.1 a w'.1) :
    Team w'.1 w'.2 := by
  obtain ⟨hnext, hrecord⟩ := Machine.observe_next hnext
  rw [hrecord]
  generalize w'.1 = s' at hnext hok
  cases Program.transition_of_next _ hnext with
  | step awake hstep => exact hteam.step hinv hcard awake hstep hok
  | @sleep t wait awake hwait holds =>
      obtain ⟨current, hpc, rfl⟩ := wait_eq_some hwait
      exact hteam.sleep hinv hpc (beq_iff_eq.mp holds)
  | ret hwait => exact hteam.resume _
  | @wake t wake woken awake hwake chosen =>
      obtain ⟨call, current, hpc, rfl⟩ := wake_eq_some hwake
      exact hteam.wake hpc chosen.all.symm
  | requeue awake hrequeue => cases hrequeue
  | refused awake hrequeue => cases hrequeue

theorem Team.init : Team (program Tid expected).machine.init (.init : History Tid) where
  member _ := ⟨rfl, rfl, le_rfl, Nat.le_succ _, fun _ => rfl, nofun, nofun, nofun⟩
  asleep := nofun

theorem Team.prompt_next {w w' : Config Tid Mem Pc Unit × History Tid} {a : Act Tid Label}
    (hteam : Team w.1 w.2) (hinv : Inv expected w.1 w.2)
    (hcard : expected.toNat = Fintype.card Tid) : Barrier.prompt w.1 a w'.1 := by
  cases a with
  | step t l => exact hteam.prompt hinv.count hcard
  | _ => exact trivial

theorem team_of_reachable {w : Config Tid Mem Pc Unit × History Tid} (hexpected : 0 < expected.toNat)
    (hcard : expected.toNat = Fintype.card Tid)
    (h : (machine Tid expected).Reachable (under teamOnly) w) :
    Inv expected w.1 w.2 ∧ Team w.1 w.2 := by
  refine h.induct (I := fun w => Inv expected w.1 w.2 ∧ Team w.1 w.2) ⟨Inv.init hexpected, Team.init⟩ ?_
  intro w a w' _ ih hnext hok
  obtain ⟨hinv, hteam⟩ := ih
  exact ⟨hinv.next hexpected hnext (hteam.prompt_next hinv hcard),
    hteam.next hinv hcard hnext hok⟩

/-- A team stays together. A thread arrives once in each of its calls, and has arrived when it returns;
one that has returned from its `k`-th call finds that all others have arrived `k` times. The counter
never underflows, and is full again before the first arrival of the next phase. A thread that sleeps
in a complete phase is going to be woken by the thread that completed it. -/
theorem barrier_team_together {w : Config Tid Mem Pc Unit × History Tid}
    (hpos : 0 < Fintype.card Tid) (hcard : Fintype.card Tid < 2 ^ 32)
    (h : (machine Tid (BitVec.ofNat 32 (Fintype.card Tid))).Reachable (under teamOnly) w) :
    (∀ t, w.2.arrivals t ≤ w.2.calls t ∧ w.2.calls t ≤ w.2.arrivals t + 1) ∧
    (∀ t, w.1.thread t = .idle → w.2.arrivals t = w.2.calls t ∧ ∀ u, w.2.calls t ≤ w.2.arrivals u) ∧
    (∀ t call current, w.1.thread t = .fetchSub call current → 0 < w.1.mem.arrived.toNat ∧
      ((∀ u, w.2.arrivals u ≤ w.2.arrivals t) → w.1.mem.arrived.toNat = Fintype.card Tid)) ∧
    ∀ t, w.1.asleep t = some () → w.2.arrivals t ≤ w.2.completed →
      ∃ u, (w.1.thread u).waking = true ∧ w.2.arrivals u = w.2.arrivals t := by
  have hexpected : (BitVec.ofNat 32 (Fintype.card Tid)).toNat = Fintype.card Tid := by
    rw [BitVec.toNat_ofNat, Nat.mod_eq_of_lt hcard]
  obtain ⟨⟨hc, hk, hl⟩, hteam⟩ := team_of_reachable (by omega) hexpected h
  refine ⟨fun t => ?_, fun t hpc => ?_, fun t call current hpc => ?_, fun t ht hle => ?_⟩
  · have hcall := (hteam.member t).calls
    split_ifs at hcall <;> omega
  · have hcall := (hteam.member t).calls
    rw [hpc] at hcall
    have harrived : w.2.calls t = w.2.arrivals t := hcall
    refine ⟨harrived.symm, fun u => ?_⟩
    rw [harrived, (hteam.member t).out (by rw [hpc]; rfl)]
    exact (hteam.member u).ge
  · have hout := (hteam.member t).out (by rw [hpc]; rfl)
    obtain ⟨harrived, -, hsum⟩ := hc.gathering (hteam.open hc hexpected (t := t) (by rw [hpc]; rfl))
    refine ⟨harrived, fun hfirst => ?_⟩
    have htally : tally id w.2.arrivals = tally (fun _ => w.2.completed) w.2.arrivals := by
      refine tally_congr fun u => ?_
      exact le_antisymm ((hfirst u).trans hout.le) (hteam.member u).ge
    have hconst : tally (fun _ => w.2.completed) w.2.arrivals =
        Fintype.card Tid * w.2.completed := Finset.sum_const_nat fun _ _ => rfl
    rw [htally, hconst, hexpected, Nat.mul_succ] at hsum
    omega
  · have heq := le_antisymm hle (hteam.member t).ge
    obtain ⟨u, hu⟩ := (hteam.asleep t ht).2 heq
    exact ⟨u, hu, ((hteam.member u).waking hu).trans heq.symm⟩

/-- Thread `a` sleeps, `b` has arrived, and `c` has completed the phase. -/
def wakingRun : List (Act Runner Label) :=
  [.step .a .arriveAndWait, .step .a .run, .step .a .run, .step .a .run, .sleep .a,
    .step .b .arriveAndWait, .step .b .run, .step .b .run,
    .step .c .arriveAndWait, .step .c .run, .step .c .run, .step .c .run, .step .c .run]

theorem barrier_team_together_waking : ∃ w : Config Runner Mem Pc Unit × History Runner,
    w.1.asleep .a = some () ∧ w.1.mem.phase = 1 ∧ ∃ u, (w.1.thread u).waking = true :=
  let M := machine Runner (BitVec.ofNat 32 (Fintype.card Runner))
  have h : M.Reachable (under teamOnly)
    ((M.run (under teamOnly) M.init wakingRun).get (by decide)) := .of_run _ _
  ⟨(M.run (under teamOnly) M.init wakingRun).get (by decide), by decide, by decide,
    ((barrier_team_together (by decide) (by decide) h).2.2.2 .a (by decide) (by decide)).imp
      fun _ hu => hu.1⟩

end Psync.Barrier
