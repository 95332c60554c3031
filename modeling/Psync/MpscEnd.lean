import Psync.MpscClose

/-! The end of the stream. `pop_blocking` gives up when the queue is closed and one more `try_pop` finds
nothing at the front. A producer that got past its check of `closed_` before the close may still be on
its way then, and its item is left behind; if there is none, nothing is. -/

namespace Psync.MPSCQueue

open Concurrency MachineWord

set_option linter.unusedSectionVars false

variable {V Tid : Type*} [DecidableEq Tid] {k : ℕ} {consumer t : Tid} {m m' : Mem V}
  {f : Tid → Pc V} {h h' : History V Tid} {pc pc' : Pc V} {c : Push V} {head : U64}

/-- Every winning CAS finds its slot ready. -/
def claimsFree (capacity : U64) : StepCond (State V Tid × History V Tid) (Act Tid (Label V)) :=
  fun s a _ => match a with
    | .step t .run => ClaimFree (maskOf capacity) s.1.mem (s.1.thread t)
    | _ => True

instance (capacity : U64) (s : State V Tid × History V Tid) (a : Act Tid (Label V))
    (s' : State V Tid × History V Tid) : Decidable (claimsFree capacity s a s') :=
  match a with
  | .step t .run => inferInstanceAs (Decidable (ClaimFree (maskOf capacity) s.1.mem (s.1.thread t)))
  | .step _ (.tryPush _) | .step _ (.pushBlocking _) | .step _ .tryPop => .isTrue trivial
  | .step _ .popBlocking | .step _ .close | .step _ .spurious => .isTrue trivial
  | .sleep _ | .ret _ | .wake .. | .requeue .. => .isTrue trivial

/-- No position at the front or behind it has got past its check of `closed_`. -/
def NoneKept (h : History V Tid) : Prop :=
  ∀ p < h.claimed.length, h.recycled ≤ p → (h.phase p).kept = false

instance (h : History V Tid) : Decidable (NoneKept h) :=
  inferInstanceAs (Decidable (∀ p < h.claimed.length, h.recycled ≤ p → _))

/-- The queue is closed in `s`, and every push that has returned `true` in `s'` had its item popped
in `s`. -/
structure StreamEnded (s s' : State V Tid × History V Tid) : Prop where
  closed : s.1.mem.closed = true
  popped : ∀ (p : ℕ) (c : Tid × V), s'.2.claimed[p]? = some c → s'.2.phase p = .succeeded →
    s.2.popped[p]? = some (some c.2)

/-! ### Steps -/

/-- The last `try_pop` of `pop_blocking` comes after the load of `closed_`. -/
theorem closed_of_run {mask : U64} (h : run mask m pc = some (m', .popSeq .last)) : m'.closed = true := by
  cases pc with
  | popClosed =>
      rw [run, Option.some.injEq, Prod.mk.injEq] at h
      obtain ⟨rfl, hpc⟩ := h
      split_ifs at hpc with hclosed
      · exact hclosed
      · cases hpc
  | pushCheck c | pushSeq c head | pushCas c head | pushClosed c head | pushed c result value
  | popSeq mode | popped mode result =>
      rw [run, Option.some.injEq] at h
      split_ifs at h <;> cases h
  | _ => cases h

theorem closed_of_last {mask : U64} {l : Label V} {isConsumer : Bool}
    (hstep : step mask isConsumer l m pc = some (m', .popSeq .last)) : m'.closed = true := by
  cases l with
  | tryPop | popBlocking =>
      simp only [step] at hstep
      split_ifs at hstep
      cases pc <;> cases hstep
  | run => exact closed_of_run hstep
  | _ => cases pc <;> cases hstep

/-- `pop_blocking` returns `nullopt` after a `try_pop` that found nothing at the front. -/
theorem last_of_popped {mask : U64} (h : run mask m pc = some (m', .popped .last none)) :
    pc = .popSeq .last ∧ m' = m := by
  cases pc with
  | popSeq mode =>
      rw [run, Option.some.injEq] at h
      split_ifs at h <;> cases h
      exact ⟨rfl, rfl⟩
  | pushCheck c | pushSeq c head | pushCas c head | pushClosed c head | pushed c result value
  | popped mode result | popClosed =>
      rw [run, Option.some.injEq] at h
      split_ifs at h <;> cases h
  | _ => cases h

/-- Once the queue is closed, no position gets past its check. -/
theorem kept_of_step (h' : Inv k consumer m f h) (hclosed : m.closed = true) {l : Label V}
    {isConsumer : Bool} {p : ℕ} (hstep : step (ringMask k) isConsumer l m (f t) = some (m', pc'))
    (hkept : ((h.step (ringMask k) t l m (f t) pc').phase p).kept = true) : (h.phase p).kept = true := by
  have howns := h'.owns t
  have hmark : ∀ {c head ph ph'}, Holds h t c head ph → (ph'.kept = true → ph.kept = true) →
      ((h.mark t ph').phase p).kept = true → (h.phase p).kept = true := by
    intro c head ph ph' hh himp hk'
    rw [History.mark_phase, Function.update_apply] at hk'
    split_ifs at hk' with hp
    · rw [hp, hh.phase]
      exact himp hk'
    · exact hk'
  generalize f t = pc at hkept howns hstep
  rcases History.step_cases hstep h t with ⟨c, rfl, heq⟩ | ⟨mode, item, rfl, heq⟩ | heq
  · obtain ⟨head, hh⟩ := howns
    rw [heq] at hkept
    exact hmark hh (fun _ => rfl) hkept
  · rw [heq] at hkept
    exact hkept
  rw [heq] at hkept
  unfold History.act at hkept
  split at hkept
  · split_ifs at hkept
    · rw [History.claim_phase, Function.update_apply] at hkept
      split_ifs at hkept
      · cases hkept
      · exact hkept
    · exact hkept
  · rw [hclosed] at hkept
    exact hmark howns (by decide) hkept
  · exact hmark howns.1 (fun _ => rfl) hkept
  · exact hkept
  · exact hkept
  · exact hkept

/-- Positions keep their claims. -/
theorem claimed_of_step (mask : U64) (t : Tid) (l : Label V) (m : Mem V) (pc pc' : Pc V)
    (h : History V Tid) : h.claimed <+: (h.step mask t l m pc pc').claimed := by
  rw [History.step, History.answer_claimed]
  unfold History.act
  split
  · split_ifs
    · exact List.prefix_append ..
    · exact List.prefix_rfl
  all_goals exact List.prefix_rfl

/-! ### Runs -/

variable [Fintype Tid] {capacity : U64} {s s' : State V Tid × History V Tid} {a : Act Tid (Label V)}

theorem Sound.next (hsound : Sound capacity consumer s) (hcap : capacity.toNat ≤ 2 ^ 63)
    (hnext : (observed V capacity consumer).next s a = some s') (hok : claimsFree capacity s a s') :
    Sound capacity consumer s' := by
  obtain ⟨t, l, m, pc, rfl, hstep, hmove, hhistory⟩ := observed_next hnext
  obtain ⟨s', h'⟩ := s'
  subst hmove hhistory
  have hfree : l = .run → ClaimFree (maskOf capacity) s.1.mem (s.1.thread t) := by
    rintro rfl
    exact hok
  exact hsound.step hcap hfree hstep

/-- Before its last `try_pop` the consumer has seen the queue closed. -/
def SawClosed (consumer : Tid) (s : State V Tid) : Prop :=
  s.thread consumer = .popSeq .last → s.mem.closed = true

theorem ended_of_reachable (hcap : capacity.toNat ≤ 2 ^ 63)
    (h : (observed V capacity consumer).Reachable (claimsFree capacity) s) :
    Sound capacity consumer s ∧ SawClosed consumer s.1 := by
  refine h.induct (I := fun s => Sound capacity consumer s ∧ SawClosed consumer s.1)
    ⟨.init hcap, nofun⟩ fun {s a s'} _ ih hnext hok => ⟨ih.1.next hcap hnext hok, fun hlast => ?_⟩
  obtain ⟨t, l, m, pc, rfl, hstep, hmove, -⟩ := observed_next hnext
  rw [hmove, Config.move_thread, Function.update_apply] at hlast
  rw [hmove, Config.move_mem]
  split_ifs at hlast with ht
  · rw [hlast] at hstep
    exact closed_of_last hstep
  · exact closed_of_step hstep (ih.2 hlast)

/-- The states after a closed queue was found with nothing kept from position `n` on. -/
structure Over (capacity : U64) (consumer : Tid) (n : ℕ) (claimed : List (Tid × V))
    (s : State V Tid × History V Tid) : Prop where
  sound : Sound capacity consumer s
  closed : s.1.mem.closed = true
  kept : ∀ p, n ≤ p → (s.2.phase p).kept = false
  claimed : claimed <+: s.2.claimed

theorem Over.next {n : ℕ} {claimed : List (Tid × V)} (h : Over capacity consumer n claimed s)
    (hcap : capacity.toNat ≤ 2 ^ 63) (hnext : (observed V capacity consumer).next s a = some s')
    (hok : claimsFree capacity s a s') : Over capacity consumer n claimed s' := by
  have hsound := h.sound.next hcap hnext hok
  obtain ⟨t, l, m, pc, rfl, hstep, hmove, hhistory⟩ := observed_next hnext
  refine ⟨hsound, ?_, fun p hp => ?_, ?_⟩
  · rw [hmove, Config.move_mem]
    exact closed_of_step hstep h.closed
  · rw [hhistory, maskOf_eq]
    by_contra hkept
    rw [maskOf_eq] at hstep
    have := kept_of_step h.sound h.closed hstep (Bool.eq_true_of_not_eq_false hkept)
    rw [h.kept p hp] at this
    cases this
  · rw [hhistory]
    exact h.claimed.trans (claimed_of_step ..)

theorem over_of_leads {n : ℕ} (hsound : Sound capacity consumer s) (hcap : capacity.toNat ≤ 2 ^ 63)
    (hclosed : s.1.mem.closed = true) (hkept : ∀ p, n ≤ p → (s.2.phase p).kept = false)
    (hlead : (observed V capacity consumer).Leads (claimsFree capacity) s s') :
    Over capacity consumer n s.2.claimed s' :=
  hlead.induct (I := Over capacity consumer n s.2.claimed) ⟨hsound, hclosed, hkept, List.prefix_rfl⟩
    fun _ ih hnext hok => ih.next hcap hnext hok

theorem Inv.claimed_of_kept (h' : Inv k consumer m f h) {p : ℕ} (hp : (h.phase p).kept = true) :
    p < h.claimed.length := by
  by_contra hle
  rw [(h'.fresh p).mpr (Nat.le_of_not_lt hle)] at hp
  cases hp

/-- Nothing is left behind. -/
theorem Over.streamEnded (hsound : Sound capacity consumer s) (hpc : s.1.thread consumer = .popped .last none)
    (h : Over capacity consumer s.2.recycled s.2.claimed s') (hclosed : s.1.mem.closed = true) :
    StreamEnded s s' := by
  refine ⟨hclosed, fun p c hc hp => ?_⟩
  have hlt : p < s.2.recycled := by
    by_contra hle
    have := h.kept p (Nat.le_of_not_lt hle)
    rw [hp] at this
    cases this
  have hle : s.2.recycled ≤ s.2.claimed.length := (Nat.le_add_right ..).trans hsound.taking_le
  have hsame : s.2.claimed[p]? = some c := by
    obtain ⟨rest, hrest⟩ := h.claimed
    rwa [← hrest, List.getElem?_append_left (by omega)] at hc
  have hpopped := hsound.popped
  rw [hpc] at hpopped
  rw [hpopped, List.getElem?_map, List.getElem?_take_of_lt (Nat.lt_add_right _ hlt),
    hsame]
  rfl

/-! ### Pushes that are still on their way -/

theorem observed_run (hrun : run (maskOf capacity) s.1.mem (s.1.thread t) = some (m, pc)) :
    (observed V capacity consumer).next s (.step t .run) =
      some (s.1.move t m pc, s.2.step (maskOf capacity) t .run s.1.mem (s.1.thread t) pc) := by
  have awake : s.1.asleep t = none := by
    cases s.1.asleep t with
    | none => rfl
    | some x => exact x.elim
  change ((program V capacity consumer).next s.1 (.step t .run)).map _ = _
  rw [Program.next, if_pos awake, show (program V capacity consumer).step t .run s.1.mem (s.1.thread t) =
    some (m, pc) from hrun]
  simp only [Option.map_some, record, Config.move_thread, Function.update_self]

/-- A later state in which the push of position `p` has returned `true`. -/
def Returns (capacity : U64) (consumer : Tid) (p : ℕ) (s : State V Tid × History V Tid) : Prop :=
  ∃ s', (observed V capacity consumer).Leads (claimsFree capacity) s s' ∧
    s'.2.phase p = .succeeded

theorem Returns.of_next {p : ℕ} (hnext : (observed V capacity consumer).next s a = some s')
    (hok : claimsFree capacity s a s') (h : Returns capacity consumer p s') : Returns capacity consumer p s := by
  obtain ⟨u, hlead, hu⟩ := h
  exact ⟨u, .head ⟨a, hnext, hok⟩ hlead, hu⟩

theorem claimsFree_of_claiming (hpc : (s.1.thread t).claiming = none) :
    claimsFree capacity s (.step t .run) s' := by
  intro head hhead
  rw [hpc] at hhead
  cases hhead

theorem returns_of_pushSize (hpc : s.1.thread t = .pushSize c) :
    Returns capacity consumer (s.2.position t) s := by
  refine ⟨_, .single ⟨_, observed_run (t := t) (by rw [hpc]; rfl), claimsFree_of_claiming (by rw [hpc]; rfl)⟩, ?_⟩
  rw [hpc]
  exact Function.update_self ..

theorem returns_of_pushPublish (hpc : s.1.thread t = .pushPublish c head) :
    Returns capacity consumer (s.2.position t) s := by
  refine .of_next (observed_run (t := t) (by rw [hpc]; rfl)) (claimsFree_of_claiming (by rw [hpc]; rfl)) ?_
  rw [hpc]
  exact returns_of_pushSize (Function.update_self ..)

theorem returns_of_pushData (hpc : s.1.thread t = .pushData c head) :
    Returns capacity consumer (s.2.position t) s := by
  refine .of_next (observed_run (t := t) (by rw [hpc]; rfl)) (claimsFree_of_claiming (by rw [hpc]; rfl)) ?_
  rw [hpc]
  exact returns_of_pushPublish (Function.update_self ..)

/-- A push that has got past its check will return `true`. -/
theorem Inv.returns (hsound : Sound capacity consumer s) {p : ℕ} (hkept : (s.2.phase p).kept = true) :
    Returns capacity consumer p s := by
  have howned := hsound.owned p
  cases hp : s.2.phase p with
  | succeeded => exact ⟨s, .refl, hp⟩
  | published =>
      obtain ⟨t, rfl, hstage⟩ := howned (by rw [hp]; rfl)
      rw [hp] at hstage
      cases hpc : s.1.thread t with
      | pushSize c => exact returns_of_pushSize hpc
      | _ =>
          rw [hpc] at hstage
          cases hstage
  | accepted =>
      obtain ⟨t, rfl, hstage⟩ := howned (by rw [hp]; rfl)
      rw [hp] at hstage
      cases hpc : s.1.thread t with
      | pushData c head => exact returns_of_pushData hpc
      | pushPublish c head => exact returns_of_pushPublish hpc
      | _ =>
          rw [hpc] at hstage
          cases hstage
  | _ =>
      rw [hp] at hkept
      cases hkept

/-- When the last `try_pop` of `pop_blocking` has found nothing, the stream has ended in every later state
exactly if no position from the front on had got past its check of `closed_`. -/
theorem pop_blocking_ends_stream (hcap : capacity.toNat ≤ 2 ^ 63)
    (h : (observed V capacity consumer).Reachable (claimsFree capacity) s)
    (hnext : (observed V capacity consumer).next s (.step consumer .run) = some s')
    (hend : s'.1.thread consumer = .popped .last none) :
    (∀ u, (observed V capacity consumer).Leads (claimsFree capacity) s' u → StreamEnded s' u) ↔
      NoneKept s.2 := by
  obtain ⟨hsound, hsaw⟩ := ended_of_reachable hcap h
  obtain ⟨t, l, m, pc, hact, hstep, hmove, hhistory⟩ := observed_next hnext
  cases hact
  have hend' := hend
  rw [hmove, Config.move_thread, Function.update_self] at hend'
  subst hend'
  obtain ⟨hpc, rfl⟩ := last_of_popped hstep
  have hclosed : s'.1.mem.closed = true := by
    rw [hmove]
    exact hsaw hpc
  have hsame : s'.2 = s.2 := by
    rw [hhistory, hpc]
    rfl
  have hsound' : Sound capacity consumer s' :=
    hsound.next hcap hnext (claimsFree_of_claiming (by rw [hpc]; rfl))
  constructor
  · intro hall p hlt hp
    by_contra hkept
    rw [← hsame] at hkept hp hlt
    obtain ⟨u, hlead, hu⟩ := Inv.returns hsound' (Bool.eq_true_of_not_eq_false hkept)
    have hover := over_of_leads (n := s'.2.claimed.length) hsound' hcap hclosed (fun q hq => by
      rw [(hsound'.fresh q).mpr hq]
      rfl) hlead
    obtain ⟨rest, hrest⟩ := hover.claimed
    have hpopped := (hall u hlead).popped p s'.2.claimed[p]
      (by rw [← hrest, List.getElem?_append_left hlt, List.getElem?_eq_getElem hlt]) hu
    have hlength := (List.getElem?_eq_some_iff.mp hpopped).1
    have htaken := hsound'.popped
    rw [hend] at htaken
    rw [htaken, List.length_map, List.length_take] at hlength
    change p < min (s'.2.recycled + 0) _ at hlength
    omega
  · intro hnone u hlead
    have hover := over_of_leads (n := s'.2.recycled) hsound' hcap hclosed (fun p hp => by
      rw [hsame] at hp ⊢
      by_contra hkept
      have hkept' := Bool.eq_true_of_not_eq_false hkept
      rw [hnone p (Inv.claimed_of_kept hsound hkept') hp] at hkept'
      cases hkept') hlead
    exact hover.streamEnded hsound' hend hclosed

/-- Thread `a` pushes 7 and closes the queue; thread `b` pops it, and its next `pop_blocking` is in its last
`try_pop`. -/
def endRun : List (Act Runner (Label ℕ)) :=
  .step .a (.tryPush 7) :: List.replicate 8 (.step .a .run) ++
    [.step .a .close, .step .a .run, .step .b .popBlocking] ++ List.replicate 5 (.step .b .run) ++
    [.step .b .popBlocking, .step .b .run, .step .b .run, .step .b .run]

theorem pop_blocking_ends_stream_popped : ∃ s : State ℕ Runner × History ℕ Runner,
    s.1.thread .b = .popped .last none ∧ s.2.popped = [some 7] ∧
    ∀ u, (observed ℕ 1 Runner.b).Leads (claimsFree 1) s u → StreamEnded s u := by
  let M := observed ℕ 1 Runner.b
  let s := (M.run (claimsFree 1) M.init endRun).get (by decide)
  exact ⟨(M.next s (.step .b .run)).get (by decide), by decide, by decide,
    (pop_blocking_ends_stream (by decide) (Machine.Reachable.of_run (M := M) endRun _)
      (Option.some_get _).symm (by decide)).mpr (by decide)⟩

/-- Thread `a` has read `closed_` clear when thread `b` closes the queue and calls `pop_blocking`. -/
def earlyRun : List (Act Runner (Label ℕ)) :=
  .step .a (.tryPush 7) :: List.replicate 4 (.step .a .run) ++
    [.step .b .close, .step .b .run, .step .b .popBlocking] ++ List.replicate 4 (.step .b .run)

/-- `pop_blocking` is about to return `nullopt`, and then the push of 7 returns `true`. -/
theorem pop_blocking_ends_early : ∃ s u : State ℕ Runner × History ℕ Runner,
    (observed ℕ 1 Runner.b).Reachable anyStep s ∧ s.1.thread .b = .popped .last none ∧
    (observed ℕ 1 Runner.b).Leads anyStep s u ∧ u.2.acceptedItems = [7] ∧ s.2.popped = [] ∧
    ¬ StreamEnded s u := by
  let M := observed ℕ 1 Runner.b
  let s := (M.run anyStep M.init earlyRun).get (by decide)
  refine ⟨s, (M.run anyStep s (List.replicate 3 (.step .a .run))).get (by decide), .of_run _ _, by decide,
    .run (Option.some_get _).symm, by decide, by decide, fun hended => ?_⟩
  have hpopped := hended.popped 0 (.a, 7) (by decide) (by decide)
  revert hpopped
  decide

end Psync.MPSCQueue
