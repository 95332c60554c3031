import Psync.BarrierModel
import Psync.RunGuard
import Psync.WordRing

/-! The split interface. In the runs in which every `fetch_sub` is executed in the phase that its
thread has loaded, and not while the counter is about to be reset, the barrier counts every arrival
in the phase that its token names. -/

namespace Psync.Barrier

open Concurrency MachineWord

set_option linter.unusedSectionVars false

variable {Tid : Type*} [Fintype Tid] [DecidableEq Tid]

/-! ### The counter -/

/-- What the last thread of a phase still has to do: store to the counter, or only advance. -/
def Pc.stage : Pc → Option Bool
  | .reset .. => some false
  | .advance .. => some true
  | _ => none

/-- Both the counter and the number of arrivals say how far the phase is. -/
structure Count (expected : U32) (s : Config Tid Mem Pc Unit) (h : History Tid) : Prop where
  phase : s.mem.phase = BitVec.ofNat 32 h.completed
  /-- Only one thread is the last one. -/
  unique : ∀ t u, (s.thread t).stage.isSome → (s.thread u).stage.isSome → t = u
  gathering : (∀ t, (s.thread t).stage = none) → 0 < s.mem.arrived.toNat ∧
    s.mem.arrived.toNat ≤ expected.toNat ∧
    tally id h.arrivals + s.mem.arrived.toNat = expected.toNat * (h.completed + 1)
  complete : ∀ t, (s.thread t).stage.isSome →
    tally id h.arrivals = expected.toNat * (h.completed + 1)
  reset : ∀ t, (s.thread t).stage = some true → s.mem.arrived = expected
  /-- The arrivals of the complete phases and of the current one. -/
  full : ∀ p, p < h.completed → h.counted p = expected.toNat
  current : tally id h.arrivals = expected.toNat * h.completed + h.counted h.completed
  later : ∀ p, h.completed < p → h.counted p = 0

variable {expected : U32} {s s' : Config Tid Mem Pc Unit} {h h' : History Tid} {t : Tid} {pc : Pc}

theorem last_iff : pc.last = false ↔ pc.stage = none := by
  cases pc <;> simp [Pc.last, Pc.stage]

/-- A step that is neither an arrival nor one of the last thread. -/
theorem Count.frame (hc : Count expected s h) (harrived : s'.mem.arrived = s.mem.arrived)
    (hphase : s'.mem.phase = s.mem.phase)
    (hstage : ∀ u, (s'.thread u).stage = (s.thread u).stage)
    (harrivals : h'.arrivals = h.arrivals) (hcompleted : h'.completed = h.completed)
    (hcounted : h'.counted = h.counted) : Count expected s' h' where
  phase := by rw [hphase, hcompleted, hc.phase]
  unique t u ht hu := by
    rw [hstage] at ht hu
    exact hc.unique t u ht hu
  gathering hnone := by
    rw [harrived, harrivals, hcompleted]
    exact hc.gathering fun t => by rw [← hstage, hnone]
  complete t ht := by
    rw [hstage] at ht
    rw [harrivals, hcompleted]
    exact hc.complete t ht
  reset t ht := by
    rw [hstage] at ht
    rw [harrived]
    exact hc.reset t ht
  full p hp := by
    rw [hcounted]
    exact hc.full p (hcompleted ▸ hp)
  current := by
    rw [harrivals, hcompleted, hcounted]
    exact hc.current
  later p hp := by
    rw [hcounted]
    exact hc.later p (hcompleted ▸ hp)

theorem Count.move (hc : Count expected s h) {m : Mem} (harrived : m.arrived = s.mem.arrived)
    (hphase : m.phase = s.mem.phase) (hstage : pc.stage = (s.thread t).stage)
    (harrivals : h'.arrivals = h.arrivals) (hcompleted : h'.completed = h.completed)
    (hcounted : h'.counted = h.counted) : Count expected (s.move t m pc) h' :=
  hc.frame harrived hphase (apply_update_same (g := Pc.stage) hstage) harrivals hcompleted hcounted

theorem tally_arrive : tally id (h.arrive t).arrivals = tally id h.arrivals + 1 := by
  have := tally_update (w := id) (f := h.arrivals) t (h.arrivals t + 1)
  rw [History.arrive]
  simp only [id_eq] at this ⊢
  omega

@[simp] theorem completed_arrive : (h.arrive t).completed = h.completed := rfl

@[simp] theorem calls_arrive : (h.arrive t).calls = h.calls := rfl

@[simp] theorem arrivals_arrive_self : (h.arrive t).arrivals t = h.arrivals t + 1 :=
  Function.update_self ..

@[simp] theorem own_arrive_self : (h.arrive t).own t = h.completed := Function.update_self ..

theorem counted_arrive (p : ℕ) : (h.arrive t).counted p =
    if p = h.completed then h.counted h.completed + 1 else h.counted p :=
  Function.update_apply ..

/-- The new stage of a thread that moves to `pc`. -/
theorem stage_move {m : Mem} {u : Tid} : ((s.move t m pc).thread u).stage =
    if u = t then pc.stage else (s.thread u).stage := by
  rw [Config.move_thread, Function.update_apply]
  split_ifs <;> rfl

/-- An arrival that is not the last one of its phase, or is. -/
theorem Count.arrive (hc : Count expected s h) (hnone : ∀ u, (s.thread u).stage = none)
    (hpc : pc.stage = if s.mem.arrived = 1 then some false else none) :
    Count expected (s.move t { s.mem with arrived := s.mem.arrived - 1 } pc) (h.arrive t) := by
  obtain ⟨hpos, hle, hsum⟩ := hc.gathering hnone
  have hsub : (s.mem.arrived - 1).toNat = s.mem.arrived.toNat - 1 := BitVec.toNat_sub_of_le hpos
  have hone : s.mem.arrived = 1 ↔ s.mem.arrived.toNat = 1 := BitVec.toNat_eq
  refine ⟨hc.phase, fun u v hu hv => ?_, fun hall => ?_, fun u hu => ?_, fun u hu => ?_, fun p hp => ?_,
    ?_, fun p hp => ?_⟩
  · rw [stage_move] at hu hv
    split_ifs at hu hv with hut hvt
    · rw [hut, hvt]
    · rw [hnone] at hv
      cases hv
    · rw [hnone] at hu
      cases hu
    · rw [hnone] at hu
      cases hu
  · have hself := hall t
    rw [stage_move, if_pos rfl, hpc] at hself
    split_ifs at hself with heq
    rw [hone] at heq
    simp only [Config.move_mem, hsub, tally_arrive, completed_arrive]
    omega
  · rw [stage_move] at hu
    split_ifs at hu with hut
    · rw [hpc] at hu
      split_ifs at hu with heq
      · rw [hone] at heq
        rw [tally_arrive, completed_arrive]
        omega
      · cases hu
    · rw [hnone] at hu
      cases hu
  · rw [stage_move] at hu
    split_ifs at hu with hut
    · rw [hpc] at hu
      split_ifs at hu
      cases hu
    · rw [hnone] at hu
      cases hu
  · rw [completed_arrive] at hp
    rw [counted_arrive, if_neg (Nat.ne_of_lt hp)]
    exact hc.full p hp
  · rw [tally_arrive, completed_arrive, counted_arrive, if_pos rfl, hc.current]
    exact Nat.add_assoc _ _ _
  · rw [completed_arrive] at hp
    rw [counted_arrive, if_neg (Nat.ne_of_gt hp)]
    exact hc.later p hp

/-- Once the last thread moves, no other thread is the last one. -/
theorem Count.others (hc : Count expected s h) (ht : (s.thread t).stage.isSome) {u : Tid}
    (hne : u ≠ t) : (s.thread u).stage = none := by
  cases hu : (s.thread u).stage with
  | none => rfl
  | some b => exact absurd (hc.unique u t (by rw [hu]; rfl) ht) hne

theorem Count.storeExpected (hc : Count expected s h) (ht : (s.thread t).stage = some false)
    (hpc : pc.stage = some true) :
    Count expected (s.move t { s.mem with arrived := expected } pc) h := by
  have hlast : (s.thread t).stage.isSome := by rw [ht]; rfl
  have hmove : ∀ u, ((s.move t { s.mem with arrived := expected } pc).thread u).stage.isSome → u = t := by
    intro u hu
    rw [stage_move] at hu
    split_ifs at hu with hut
    · exact hut
    · rw [hc.others hlast hut] at hu
      cases hu
  refine ⟨hc.phase, fun u v hu hv => (hmove u hu).trans (hmove v hv).symm, fun hall => ?_,
    fun _ _ => hc.complete t hlast, fun _ _ => rfl, hc.full, hc.current, hc.later⟩
  have hself := hall t
  rw [stage_move, if_pos rfl, hpc] at hself
  cases hself

theorem Count.addPhase (hc : Count expected s h) (hexpected : 0 < expected.toNat)
    (ht : (s.thread t).stage = some true) (hpc : pc.stage = none) :
    Count expected (s.move t { s.mem with phase := s.mem.phase + 1 } pc)
      { h with completed := h.completed + 1 } := by
  have hlast : (s.thread t).stage.isSome := by rw [ht]; rfl
  have hnone : ∀ u, ((s.move t { s.mem with phase := s.mem.phase + 1 } pc).thread u).stage = none := by
    intro u
    rw [stage_move]
    split_ifs with hut
    · exact hpc
    · exact hc.others hlast hut
  have harrived : s.mem.arrived = expected := hc.reset t ht
  have hsum := hc.complete t hlast
  have hcurrent := hc.current
  have hzero := hc.later (h.completed + 1) (Nat.lt_succ_self _)
  refine ⟨?_, fun u _ hu => ?_, fun _ => ?_, fun u hu => ?_, fun u hu => ?_, fun p hp => ?_, ?_,
    fun p hp => hc.later p (by simp only at hp; omega)⟩
  · simp only [Config.move_mem, hc.phase]
    exact (ofNat_succ _).symm
  · rw [hnone] at hu
    cases hu
  · simp only [Config.move_mem, harrived, hsum]
    exact ⟨hexpected, le_rfl, (Nat.mul_succ _ _).symm⟩
  · rw [hnone] at hu
    cases hu
  · rw [hnone] at hu
    cases hu
  · simp only at hp
    rcases Nat.lt_succ_iff_lt_or_eq.mp hp with hlt | rfl
    · exact hc.full p hlt
    · rw [Nat.mul_succ] at hsum
      simp only
      omega
  · simp only [hsum, hzero]
    exact (Nat.add_zero _).symm

/-! ### Tokens -/

/-- The phase a thread has loaded, once it has arrived. -/
def Pc.token : Pc → Option U32
  | .reset _ current | .advance _ current | .wakeAll _ current => some current
  | .ret current | .waitLoad current | .waitFutex current => some current
  | _ => none

/-- Tokens name the phase in which their arrival was counted. -/
structure Tokens (s : Config Tid Mem Pc Unit) (h : History Tid) : Prop where
  own : ∀ t current, (s.thread t).token = some current →
    current = BitVec.ofNat 32 (h.own t) ∧ h.own t ≤ h.completed
  issued : s.mem.tokens = h.tokenPhase.map (BitVec.ofNat 32)
  issued_le : ∀ p ∈ h.tokenPhase, p ≤ h.completed

/-- A step that issues no token. -/
theorem Tokens.frame (hk : Tokens s h) (htokens : s'.mem.tokens = s.mem.tokens)
    (hphases : h'.tokenPhase = h.tokenPhase) (hcompleted : h.completed ≤ h'.completed)
    (hown : ∀ u current, (s'.thread u).token = some current →
      (s.thread u).token = some current ∧ h'.own u = h.own u ∨
      current = BitVec.ofNat 32 (h'.own u) ∧ h'.own u ≤ h'.completed) : Tokens s' h' where
  own u current hu := by
    rcases hown u current hu with ⟨htoken, heq⟩ | hnew
    · rw [heq]
      exact (hk.own u current htoken).imp_right fun hle => hle.trans hcompleted
    · exact hnew
  issued := by rw [htokens, hphases, hk.issued]
  issued_le p hp := by
    rw [hphases] at hp
    exact (hk.issued_le p hp).trans hcompleted

/-- A step of one thread that keeps its token, or drops it. -/
theorem Tokens.move (hk : Tokens s h) {m : Mem} (htokens : m.tokens = s.mem.tokens)
    (htoken : ∀ current, pc.token = some current → (s.thread t).token = some current)
    (hown : h'.own = h.own) (hphases : h'.tokenPhase = h.tokenPhase)
    (hcompleted : h.completed ≤ h'.completed) : Tokens (s.move t m pc) h' := by
  refine hk.frame htokens hphases hcompleted fun u current hu => Or.inl ?_
  rw [Config.move_thread, Function.update_apply] at hu
  rw [hown]
  split_ifs at hu with hut
  · rw [hut]
    exact ⟨htoken current hu, rfl⟩
  · exact ⟨hu, rfl⟩

/-- A step after which one thread has a new token. -/
theorem Tokens.begin (hk : Tokens s h) {m : Mem} {p : ℕ} (htokens : m.tokens = s.mem.tokens)
    (htoken : ∀ current, pc.token = some current → current = BitVec.ofNat 32 p)
    (hown : h'.own = Function.update h.own t p) (hphases : h'.tokenPhase = h.tokenPhase)
    (hcompleted : h'.completed = h.completed) (hp : p ≤ h.completed) :
    Tokens (s.move t m pc) h' := by
  refine hk.frame htokens hphases hcompleted.ge fun u current hu => ?_
  rw [Config.move_thread, Function.update_apply] at hu
  rw [hown, hcompleted]
  split_ifs at hu with hut
  · rw [hut, Function.update_self]
    exact Or.inr ⟨htoken current hu, hp⟩
  · rw [Function.update_of_ne hut]
    exact Or.inl ⟨hu, rfl⟩

theorem afterArrival_stage (call : Call) (current : U32) :
    (afterArrival call current).stage = none := by
  cases call <;> rfl

theorem afterWake_stage (call : Call) (current : U32) : (afterWake call current).stage = none := by
  cases call <;> rfl

theorem afterArrival_waking (call : Call) (current : U32) :
    (afterArrival call current).waking = false := by
  cases call <;> rfl

theorem afterWake_waking (call : Call) (current : U32) : (afterWake call current).waking = false := by
  cases call <;> rfl

theorem afterArrival_token (call : Call) (current : U32) :
    (afterArrival call current).token = some current := by
  cases call <;> rfl

theorem afterWake_token {call : Call} {current current' : U32}
    (h : (afterWake call current).token = some current') : current' = current := by
  cases call with
  | arrive => exact (Option.some.inj h).symm
  | arriveAndWait => cases h

/-! ### The last thread -/

/-- The last thread of a phase arrived in it, and wakes the others when the phase is complete. -/
structure Last (s : Config Tid Mem Pc Unit) (h : History Tid) : Prop where
  own : ∀ t, (s.thread t).stage.isSome → h.own t = h.completed
  waking : ∀ t, (s.thread t).waking = true → h.own t < h.completed

/-- A step that completes no phase. -/
theorem Last.move (hl : Last s h) {m : Mem} (hcompleted : h'.completed = h.completed)
    (hother : ∀ u, u ≠ t → h'.own u = h.own u)
    (hown : pc.stage.isSome → h'.own t = h.completed)
    (hwaking : pc.waking = true → h'.own t < h.completed) : Last (s.move t m pc) h' := by
  refine ⟨fun u hu => ?_, fun u hu => ?_⟩
  · rw [Config.move_thread, Function.update_apply] at hu
    rw [hcompleted]
    split_ifs at hu with hut
    · rw [hut]
      exact hown hu
    · rw [hother u hut]
      exact hl.own u hu
  · rw [Config.move_thread, Function.update_apply] at hu
    rw [hcompleted]
    split_ifs at hu with hut
    · rw [hut]
      exact hwaking hu
    · rw [hother u hut]
      exact hl.waking u hu

/-- A step of a thread that is not the last one of its phase. -/
theorem Last.keep (hl : Last s h) {m : Mem} (hcompleted : h'.completed = h.completed)
    (hother : ∀ u, u ≠ t → h'.own u = h.own u) (hstage : pc.stage = none)
    (hwaking : pc.waking = false) : Last (s.move t m pc) h' := by
  refine hl.move hcompleted hother (fun h => ?_) (fun h => ?_)
  · rw [hstage] at h
    cases h
  · rw [hwaking] at h
    cases h

/-- The last thread completes its phase. -/
theorem Last.advance (hl : Last s h) (hc : Count expected s h) {m : Mem}
    (ht : (s.thread t).stage.isSome) (hpc : pc.stage = none) :
    Last (s.move t m pc) { h with completed := h.completed + 1 } := by
  refine ⟨fun u hu => ?_, fun u hu => ?_⟩
  · rw [stage_move] at hu
    split_ifs at hu with hut
    · rw [hpc] at hu
      cases hu
    · rw [hc.others ht hut] at hu
      cases hu
  · rw [Config.move_thread, Function.update_apply] at hu
    split_ifs at hu with hut
    · rw [hut]
      exact Nat.lt_succ_of_le (hl.own t ht).le
    · exact (hl.waking u hu).trans (Nat.lt_succ_self _)

/-! ### The steps -/

structure Inv (expected : U32) (s : Config Tid Mem Pc Unit) (h : History Tid) : Prop where
  count : Count expected s h
  tokens : Tokens s h
  last : Last s h

theorem Inv.run {m : Mem} (hinv : Inv expected s h) (hexpected : 0 < expected.toNat)
    (hrun : run expected s.mem (s.thread t) = some (m, pc)) (hok : prompt s (.step t .run) s') :
    Inv expected (s.move t m pc) (record h s (.step t .run) s') := by
  obtain ⟨hc, hk, hl⟩ := hinv
  cases hpc : s.thread t with
  | idle | wakeAll call current | waitFutex current =>
      rw [hpc] at hrun
      cases hrun
  | loadPhase call =>
      rw [hpc] at hrun
      cases hrun
      simp only [record, hpc]
      exact ⟨hc.move rfl rfl (by rw [hpc]; rfl) rfl rfl rfl, hk.move rfl nofun rfl rfl le_rfl,
        hl.keep rfl (fun _ _ => rfl) rfl rfl⟩
  | fetchSub call current =>
      rw [hpc, Barrier.run, Option.some.injEq, Prod.mk.injEq] at hrun
      obtain ⟨rfl, rfl⟩ := hrun
      simp only [prompt, hpc] at hok
      simp only [record, hpc]
      refine ⟨?_, ?_, hl.move rfl (fun u hut => Function.update_of_ne hut ..)
        (fun _ => own_arrive_self) fun hwaking => ?_⟩
      · refine hc.arrive (fun u => last_iff.mp (hok.2 u)) ?_
        split_ifs
        · rfl
        · exact afterArrival_stage call current
      · refine hk.begin rfl (fun current' htoken => ?_) rfl rfl rfl le_rfl
        rw [← hc.phase, ← hok.1]
        split_ifs at htoken
        · exact (Option.some.inj htoken).symm
        · rw [afterArrival_token] at htoken
          exact (Option.some.inj htoken).symm
      · split_ifs at hwaking
        · cases hwaking
        · rw [afterArrival_waking] at hwaking
          cases hwaking
  | reset call current =>
      rw [hpc] at hrun
      cases hrun
      simp only [record, hpc]
      have hlast : (s.thread t).stage.isSome := by rw [hpc]; rfl
      refine ⟨hc.storeExpected (by rw [hpc]; rfl) rfl, hk.move rfl (fun c htoken => ?_) rfl rfl le_rfl,
        hl.move rfl (fun _ _ => rfl) (fun _ => hl.own t hlast) (fun hwaking => (by cases hwaking))⟩
      rw [hpc]
      exact htoken
  | advance call current =>
      rw [hpc, Barrier.run, Option.some.injEq, Prod.mk.injEq] at hrun
      obtain ⟨rfl, rfl⟩ := hrun
      simp only [record, hpc]
      refine ⟨hc.addPhase hexpected (by rw [hpc]; rfl) rfl,
        hk.move rfl (fun c htoken => ?_) rfl rfl (Nat.le_succ _), hl.advance hc (by rw [hpc]; rfl) rfl⟩
      rw [hpc]
      exact htoken
  | ret token =>
      rw [hpc] at hrun
      cases hrun
      simp only [record, hpc]
      obtain ⟨htoken, hle⟩ := hk.own t token (by rw [hpc]; rfl)
      refine ⟨hc.move rfl rfl (by rw [hpc]; rfl) rfl rfl rfl, ⟨fun u current hu => ?_, ?_, ?_⟩,
        hl.keep rfl (fun _ _ => rfl) rfl rfl⟩
      · rw [Config.move_thread, Function.update_apply] at hu
        split_ifs at hu
        · cases hu
        · exact hk.own u current hu
      · rw [Config.move_mem, hk.issued, List.map_append, htoken]
        rfl
      · intro p hp
        rcases List.mem_append.mp hp with hp | hp
        · exact hk.issued_le p hp
        · rw [List.mem_singleton.mp hp]
          exact hle
  | waitLoad current =>
      rw [hpc] at hrun
      cases hrun
      simp only [record, hpc]
      refine ⟨hc.move rfl rfl ?_ rfl rfl rfl, hk.move rfl (fun current' htoken => ?_) rfl rfl le_rfl,
        hl.keep rfl (fun _ _ => rfl) ?_ ?_⟩
      · rw [hpc]
        split_ifs <;> rfl
      · rw [hpc]
        split_ifs at htoken
        · exact htoken
        · cases htoken
      · split_ifs <;> rfl
      · split_ifs <;> rfl

theorem Inv.step {l : Label} {m : Mem} (hinv : Inv expected s h) (hexpected : 0 < expected.toNat)
    (hstep : step expected l s.mem (s.thread t) = some (m, pc)) (hok : prompt s (.step t l) s') :
    Inv expected (s.move t m pc) (record h s (.step t l) s') := by
  obtain ⟨hc, hk, hl⟩ := hinv
  cases l with
  | run => exact Inv.run ⟨hc, hk, hl⟩ hexpected hstep hok
  | arrive | arriveAndWait =>
      simp only [Barrier.step] at hstep
      split_ifs at hstep with hpc
      cases hstep
      exact ⟨hc.move rfl rfl (by rw [hpc]; rfl) rfl rfl rfl, hk.move rfl nofun rfl rfl le_rfl,
        hl.keep rfl (fun _ _ => rfl) rfl rfl⟩
  | wait i =>
      simp only [Barrier.step] at hstep
      split_ifs at hstep with hpc
      simp only [Option.map_eq_some_iff] at hstep
      obtain ⟨token, htoken, heq⟩ := hstep
      cases heq
      simp only [hk.issued, List.getElem?_map, Option.map_eq_some_iff] at htoken
      obtain ⟨p, hp, rfl⟩ := htoken
      refine ⟨hc.move rfl rfl (by rw [hpc]; rfl) rfl rfl rfl,
        hk.begin (p := p) rfl (fun current h => (Option.some.inj h).symm) ?_ rfl rfl ?_,
        hl.keep rfl (fun u hut => Function.update_of_ne hut ..) rfl rfl⟩
      · simp only [record, List.getD, hp, Option.getD_some]
      · exact hk.issued_le p (List.mem_of_getElem? hp)

variable (expected) in
theorem afterWait_keeps (pc : Pc) : ((program Tid expected).afterWait pc).stage = pc.stage ∧
    ((program Tid expected).afterWait pc).token = pc.token ∧
    ((program Tid expected).afterWait pc).waking = pc.waking := by
  cases pc <;> exact ⟨rfl, rfl, rfl⟩

theorem Inv.resume (hinv : Inv expected s h) (woken : Finset Tid) :
    Inv expected ((program Tid expected).resume s woken) h := by
  have hstage := Program.resume_same _ (fun pc => (afterWait_keeps expected pc).1) s woken
  have hwaking := Program.resume_same _ (fun pc => (afterWait_keeps expected pc).2.2) s woken
  refine ⟨hinv.count.frame rfl rfl hstage rfl rfl rfl,
    hinv.tokens.frame rfl rfl le_rfl fun u current hu => Or.inl ⟨?_, rfl⟩,
    fun u hu => hinv.last.own u (by rwa [← hstage]), fun u hu => hinv.last.waking u (by rwa [← hwaking])⟩
  rwa [Program.resume_same _ (fun pc => (afterWait_keeps expected pc).2.1) s woken] at hu

theorem wait_eq_some {w : WaitCall Mem Pc Unit} (hw : wait pc = some w) :
    ∃ current, pc = .waitFutex current ∧ w = futex.wait () Mem.phase current (.waitLoad current) := by
  cases pc <;> cases hw
  exact ⟨_, rfl, rfl⟩

theorem wake_eq_some {w : WakeCall Pc Unit} (hw : wake pc = some w) :
    ∃ call current, pc = .wakeAll call current ∧ w = futex.wakeAll () (afterWake call current) := by
  cases pc <;> cases hw
  exact ⟨_, _, rfl, rfl⟩

theorem Inv.wake {call : Call} {current : U32} (hinv : Inv expected s h)
    (hpc : s.thread t = .wakeAll call current) :
    Inv expected (s.move t s.mem (afterWake call current)) h := by
  refine ⟨hinv.count.move rfl rfl ?_ rfl rfl rfl,
    hinv.tokens.move rfl (fun current' htoken => ?_) rfl rfl le_rfl,
    hinv.last.keep rfl (fun _ _ => rfl) (afterWake_stage call current) (afterWake_waking call current)⟩
  · rw [hpc]
    exact afterWake_stage call current
  · rw [hpc, afterWake_token htoken]
    rfl

theorem Inv.init (hexpected : 0 < expected.toNat) :
    Inv expected (program Tid expected).machine.init .init := by
  have hzero : tally id (History.init : History Tid).arrivals = 0 := tally_eq_zero.mpr fun _ => rfl
  refine ⟨⟨rfl, nofun, fun _ => ⟨hexpected, le_rfl, ?_⟩, nofun, nofun, nofun, ?_, fun _ _ => rfl⟩,
    ⟨nofun, rfl, nofun⟩, ⟨nofun, nofun⟩⟩
  · rw [hzero]
    simp [History.init, program, Program.machine]
  · rw [hzero]
    rfl

/-- One step of the machine, when it is prompt. -/
theorem Inv.next {w w' : Config Tid Mem Pc Unit × History Tid} {a : Act Tid Label}
    (hinv : Inv expected w.1 w.2) (hexpected : 0 < expected.toNat)
    (hnext : (machine Tid expected).next w a = some w') (hok : prompt w.1 a w'.1) :
    Inv expected w'.1 w'.2 := by
  obtain ⟨hnext, hrecord⟩ := Machine.observe_next hnext
  rw [hrecord]
  generalize w'.1 = s' at hnext hok
  cases Program.transition_of_next _ hnext with
  | step awake hstep => exact hinv.step hexpected hstep hok
  | sleep awake hwait holds =>
      exact ⟨hinv.count.frame rfl rfl (fun _ => rfl) rfl rfl rfl,
        hinv.tokens.frame rfl rfl le_rfl fun _ _ hu => Or.inl ⟨hu, rfl⟩,
        hinv.last.own, hinv.last.waking⟩
  | ret hwait => exact hinv.resume _
  | @wake t w woken awake hwake chosen =>
      obtain ⟨call, current, hpc, rfl⟩ := wake_eq_some hwake
      refine (hinv.resume woken).wake ?_
      rw [Program.resume_thread, hpc]
      split_ifs <;> rfl
  | requeue awake hrequeue => cases hrequeue
  | refused awake hrequeue => cases hrequeue

theorem inv_of_reachable {w : Config Tid Mem Pc Unit × History Tid} (hexpected : 0 < expected.toNat)
    (h : (machine Tid expected).Reachable (under prompt) w) : Inv expected w.1 w.2 :=
  h.induct (I := fun w => Inv expected w.1 w.2) (Inv.init hexpected)
    fun _ ih hnext hok => ih.next hexpected hnext hok

/-! ### Returns -/

/-- A thread inside a call begins no other. -/
theorem run_of_busy {l : Label} {m : Mem} {r : Mem × Pc} (hbusy : pc ≠ .idle)
    (hstep : step expected l m pc = some r) : run expected m pc = some r := by
  cases l with
  | run => exact hstep
  | _ =>
      rw [Barrier.step, if_neg hbusy] at hstep
      cases hstep

/-- A call of `wait` or `arrive_and_wait` returns from the loop after a load that finds another phase,
or as the last one after `futex::wake_all`. -/
theorem returns_of_run {m : Mem} (hrun : run expected s.mem (s.thread t) = some (m, .idle))
    (hjoint : (s.thread t).split = false) :
    ∃ current, s.thread t = .waitLoad current ∧ s.mem.phase ≠ current := by
  cases hpc : s.thread t with
  | fetchSub call current =>
      rw [hpc, Barrier.run, Option.some.injEq, Prod.mk.injEq] at hrun
      obtain ⟨-, hidle⟩ := hrun
      split_ifs at hidle
      cases call <;> cases hidle
  | ret token =>
      rw [hpc] at hjoint
      cases hjoint
  | waitLoad current =>
      rw [hpc, Barrier.run, Option.some.injEq, Prod.mk.injEq] at hrun
      refine ⟨current, rfl, fun hphase => ?_⟩
      rw [if_pos hphase] at hrun
      cases hrun.2
  | _ =>
      rw [hpc] at hrun
      cases hrun

theorem Inv.full_of_returned {a : Act Tid Label} (hinv : Inv expected s h)
    (hnext : (program Tid expected).machine.next s a = some s') (hbusy : s.thread t ≠ .idle)
    (hjoint : (s.thread t).split = false) (hidle : s'.thread t = .idle) :
    h.counted (h.own t) = expected.toNat := by
  obtain ⟨hc, hk, hl⟩ := hinv
  have hresume : ∀ woken, ((program Tid expected).resume s woken).thread t ≠ .idle := by
    intro woken
    rw [Program.resume_thread]
    split_ifs
    · cases hpc : s.thread t with
      | idle => exact absurd hpc hbusy
      | _ => exact fun h => (by cases h)
    · exact hbusy
  cases Program.transition_of_next _ hnext with
  | @step u l m pc awake hstep =>
      rw [Config.move_thread, Function.update_apply] at hidle
      split_ifs at hidle with htu
      · subst htu hidle
        obtain ⟨current, hpc, hphase⟩ := returns_of_run (run_of_busy hbusy hstep) hjoint
        obtain ⟨hcurrent, hle⟩ := hk.own t current (by rw [hpc]; rfl)
        refine hc.full _ (lt_of_le_of_ne hle fun heq => hphase ?_)
        rw [hc.phase, hcurrent, heq]
      · exact absurd hidle hbusy
  | sleep awake hwait holds => exact absurd hidle hbusy
  | ret hwait => exact absurd hidle (hresume _)
  | @wake u w woken awake hwake chosen =>
      rw [Config.move_thread, Function.update_apply] at hidle
      split_ifs at hidle with htu
      · obtain ⟨call, current, hpc, -⟩ := wake_eq_some hwake
        exact hc.full _ (hl.waking t (by rw [htu, hpc]; rfl))
      · exact absurd hidle (hresume _)
  | requeue awake hrequeue => cases hrequeue
  | refused awake hrequeue => cases hrequeue

/-- Thread `t` calls `arrive` and is not the last one of the phase. -/
def arriveRun (t : Runner) : List (Act Runner Label) :=
  [.step t .arrive, .step t .run, .step t .run, .step t .run]

/-- Thread `t` calls `arrive`, completes the phase and returns. -/
def completeRun (t : Runner) : List (Act Runner Label) :=
  [.step t .arrive, .step t .run, .step t .run, .step t .run, .step t .run, .wake t ∅, .step t .run]

/-- Thread `c` waits for the phase that `a` and `b` have completed. -/
def waitRun : List (Act Runner Label) := arriveRun .a ++ completeRun .b ++ [.step .c (.wait 0)]

/-- Thread `a` arrives again after thread `b` was the last one, before `b` has reset the counter. -/
def lostRun : List (Act Runner Label) :=
  arriveRun .a ++ [.step .b .arrive, .step .b .run, .step .b .run] ++ arriveRun .a ++
    [.step .b .run, .step .b .run, .wake .b ∅, .step .b .run]

/-- Thread `c` has loaded the phase before `a` and `b` complete it, and arrives in the next one. -/
def staleRun : List (Act Runner Label) :=
  [.step .c .arriveAndWait, .step .c .run] ++ arriveRun .a ++ completeRun .b ++ [.step .c .run]

end Psync.Barrier
