import Psync.MpscState

/-! Closing the queue. A producer that reads `closed_` set after its CAS cannot give its position
back, and the consumer never gets past it: an item accepted at a later position is lost. In the runs
in which a refused position has no accepted one behind it, and every winning CAS finds its slot ready,
draining the queue yields exactly the accepted items. -/

namespace Psync.MPSCQueue

open Concurrency MachineWord

set_option linter.unusedSectionVars false

variable {V Tid : Type*} [DecidableEq Tid] {k : ℕ} {consumer t : Tid} {m m' : Mem V}
  {f : Tid → Pc V} {h h' : History V Tid} {pc pc' : Pc V} {c : Push V} {head : U64}

/-- The push of the position has got past its check of `closed_`. -/
def Phase.kept : Phase → Bool
  | .accepted | .published | .succeeded => true
  | _ => false

/-- The items whose push has returned `true`, in the order of their positions. -/
def History.acceptedItems (h : History V Tid) : List V :=
  (h.claimed.zipIdx.filter fun x => h.phase x.2 = .succeeded).map fun x => x.1.2

/-- When a producer reads `closed_` set, no position behind its own is accepted. -/
def RefusesLast (m : Mem V) (h : History V Tid) (t : Tid) (pc : Pc V) : Prop :=
  pc.stage = some .claimed → m.closed = true →
    ∀ p < h.claimed.length, h.position t < p → (h.phase p).kept = false

/-- Every winning CAS finds its slot ready, and nothing is accepted behind a refused position. -/
def closesCleanly (capacity : U64) :
    StepCond (State V Tid × History V Tid) (Act Tid (Label V)) := fun s a _ =>
  match a with
  | .step t .run => ClaimFree (maskOf capacity) s.1.mem (s.1.thread t) ∧
      RefusesLast s.1.mem s.2 t (s.1.thread t)
  | _ => True

instance (mask : U64) (m : Mem V) (pc : Pc V) : Decidable (ClaimFree mask m pc) :=
  Option.decidableForallMem pc.claiming

instance (m : Mem V) (h : History V Tid) (t : Tid) (pc : Pc V) :
    Decidable (RefusesLast m h t pc) :=
  inferInstanceAs (Decidable (_ → _ → ∀ p < h.claimed.length, h.position t < p → _))

instance (capacity : U64) (s : State V Tid × History V Tid) (a : Act Tid (Label V))
    (s' : State V Tid × History V Tid) : Decidable (closesCleanly capacity s a s') :=
  match a with
  | .step t .run => inferInstanceAs (Decidable (ClaimFree (maskOf capacity) s.1.mem (s.1.thread t) ∧
      RefusesLast s.1.mem s.2 t (s.1.thread t)))
  | .step _ (.tryPush _) | .step _ (.pushBlocking _) | .step _ .tryPop => .isTrue trivial
  | .step _ .popBlocking | .step _ .close | .step _ .spurious => .isTrue trivial
  | .sleep _ | .ret _ | .wake .. | .requeue .. => .isTrue trivial

/-- Every push has returned, and the consumer is outside every call. -/
def Quiet (consumer : Tid) (s : State V Tid × History V Tid) : Prop :=
  (∀ t, (s.1.thread t).pushing = false) ∧ s.1.thread consumer = .idle

/-- Draining the queue yields the accepted items that were not popped before, in order. -/
def DrainsAccepted (capacity : U64) (s : State V Tid × History V Tid) : Prop :=
  ∃ rest, Drains (maskOf capacity) s.1.mem rest ∧
    s.2.popped ++ rest = s.2.acceptedItems.map some

/-! ### Refused positions -/

/-- Nothing is accepted behind a refused position, and refusals come after the close. -/
structure Shut (m : Mem V) (h : History V Tid) : Prop where
  before : ∀ p q, (h.phase p).kept = true → h.phase q = .refused → p < q
  closed : ∀ q, h.phase q = .refused → m.closed = true

theorem Shut.same (hs : Shut m h) (hclosed : m.closed = true → m'.closed = true)
    (hkept : ∀ p, (h'.phase p).kept = true → (h.phase p).kept = true)
    (hrefused : ∀ p, h'.phase p = .refused → h.phase p = .refused) : Shut m' h' where
  before p q hp hq := hs.before p q (hkept p hp) (hrefused q hq)
  closed q hq := hclosed (hs.closed q (hrefused q hq))

/-- A mark that keeps a position on its side of the check. -/
theorem Shut.mark {ph ph' : Phase} (hs : Shut m h) (hclosed : m.closed = true → m'.closed = true)
    (hh : Holds h t c head ph) (hkept : ph'.kept = true → ph.kept = true) (hne : ph' ≠ .refused) :
    Shut m' (h.mark t ph') := by
  refine hs.same hclosed (fun p hp => ?_) fun p hp => ?_
  · rw [History.mark_phase, Function.update_apply] at hp
    split_ifs at hp with heq
    · rw [heq, hh.phase]
      exact hkept hp
    · exact hp
  · rw [History.mark_phase, Function.update_apply] at hp
    split_ifs at hp
    · exact absurd hp hne
    · exact hp

/-- The check itself. -/
theorem Shut.check (hs : Shut m h) (h' : Inv k consumer m f h)
    (hlast : m.closed = true → ∀ p < h.claimed.length, h.position t < p →
      (h.phase p).kept = false) :
    Shut m (h.mark t (if m.closed then .refused else .accepted)) := by
  cases hclosed : m.closed with
  | true =>
      refine ⟨fun p q hp hq => ?_, fun _ _ => hclosed⟩
      rw [if_pos rfl, History.mark_phase, Function.update_apply] at hp hq
      split_ifs at hp with hpt
      · cases hp
      · split_ifs at hq with hqt
        · subst hqt
          have hlt : p < h.claimed.length := by
            by_contra hge
            rw [(h'.fresh p).mpr (Nat.le_of_not_lt hge)] at hp
            cases hp
          by_contra hnot
          rw [hlast hclosed p hlt (by omega)] at hp
          cases hp
        · exact hs.before p q hp hq
  | false =>
      have hnone : ∀ q, h.phase q ≠ .refused := by
        intro q hq
        have := hs.closed q hq
        rw [hclosed] at this
        cases this
      have hnone' : ∀ q, (h.mark t .accepted).phase q ≠ .refused := by
        intro q
        rw [History.mark_phase, Function.update_apply]
        split_ifs
        · nofun
        · exact hnone q
      exact ⟨fun p q _ hq => absurd hq (hnone' q), fun q hq => absurd hq (hnone' q)⟩

theorem closed_of_step {mask : U64} {l : Label V} {isConsumer : Bool}
    (hstep : step mask isConsumer l m pc = some (m', pc')) (hclosed : m.closed = true) :
    m'.closed = true := by
  have hstart : ∀ {first : Pc V}, start m first pc = some (m', pc') → m'.closed = true := by
    intro first hs
    cases pc <;> cases hs
    exact hclosed
  cases l with
  | tryPush value => exact hstart hstep
  | pushBlocking value => exact hstart hstep
  | tryPop =>
      simp only [step] at hstep
      split_ifs at hstep
      exact hstart hstep
  | popBlocking =>
      simp only [step] at hstep
      split_ifs at hstep
      exact hstart hstep
  | close => exact hstart hstep
  | spurious =>
      cases pc <;> cases hstep
      exact hclosed
  | run =>
      cases pc with
      | idle => cases hstep
      | pushCas c head | popSeq mode =>
          rw [step, run, Option.some.injEq] at hstep
          split_ifs at hstep <;> cases hstep <;> exact hclosed
      | close =>
          cases hstep
          rfl
      | _ =>
          rw [step, run, Option.some.injEq, Prod.mk.injEq] at hstep
          obtain ⟨rfl, -⟩ := hstep
          exact hclosed

theorem Shut.step {l : Label V} {isConsumer : Bool} (hs : Shut m h) (h' : Inv k consumer m f h)
    (hlast : l = .run → RefusesLast m h t (f t))
    (hstep : MPSCQueue.step (ringMask k) isConsumer l m (f t) = some (m', pc')) :
    Shut m' (h.step (ringMask k) t l m (f t) pc') := by
  have hclosed := closed_of_step hstep
  have howns := h'.owns t
  generalize f t = pc at hlast hstep howns
  rcases History.step_cases hstep h t with ⟨c, rfl, heq⟩ | ⟨mode, item, rfl, heq⟩ | heq
  · obtain ⟨head, hh⟩ := howns
    rw [heq]
    exact hs.mark hclosed hh (fun _ => rfl) nofun
  · rw [heq]
    exact hs.same hclosed (fun _ hp => hp) fun _ hp => hp
  rw [heq]
  unfold History.act
  split
  · split_ifs
    · refine hs.same hclosed (fun p hp => ?_) fun p hp => ?_
      · rw [History.claim_phase, Function.update_apply] at hp
        split_ifs at hp
        · cases hp
        · exact hp
      · rw [History.claim_phase, Function.update_apply] at hp
        split_ifs at hp
        exact hp
    · exact hs.same hclosed (fun _ hp => hp) fun _ hp => hp
  · cases hstep
    exact hs.check h' (hlast rfl rfl)
  · exact hs.mark hclosed howns.1 (fun _ => rfl) nofun
  · exact hs.same hclosed (fun _ hp => hp) fun _ hp => hp
  · exact hs.same hclosed (fun _ hp => hp) fun _ hp => hp
  · exact hs.same hclosed (fun _ hp => hp) fun _ hp => hp

/-! ### The queue at rest -/

theorem pushing_of_stage {ph : Phase} (hstage : pc.stage = some ph) : pc.pushing = true := by
  cases pc <;> first | rfl | cases hstage

/-- Once every push has returned, every claim has been decided. -/
theorem Inv.decided (h' : Inv k consumer m f h) (hrest : ∀ t, (f t).pushing = false) {p : ℕ}
    (hp : p < h.claimed.length) : h.phase p = .succeeded ∨ h.phase p = .refused := by
  have hsettled : (h.phase p).pending = false := by
    by_contra hpending
    obtain ⟨t, -, hstage⟩ := h'.owned p (Bool.eq_true_of_not_eq_false hpending)
    have hpushing := pushing_of_stage hstage
    rw [hrest t] at hpushing
    cases hpushing
  have hfresh : h.phase p ≠ .unclaimed := fun heq => absurd ((h'.fresh p).mp heq) (by omega)
  cases hph : h.phase p with
  | succeeded => exact Or.inl rfl
  | refused => exact Or.inr rfl
  | unclaimed => exact absurd hph hfresh
  | claimed | accepted | published =>
      rw [hph] at hsettled
      cases hsettled

/-- Then the accepted positions are those in front of the first refused one. -/
theorem Shut.settled (hs : Shut m h) (h' : Inv k consumer m f h)
    (hrest : ∀ t, (f t).pushing = false) : ∃ n, ∀ p, h.phase p = .succeeded ↔ p < n := by
  have hend : ∃ p, h.phase p ≠ .succeeded :=
    ⟨h.claimed.length, by rw [(h'.fresh _).mpr le_rfl]; nofun⟩
  classical
  refine ⟨Nat.find hend, fun p => ⟨fun hp => ?_, fun hp => ?_⟩⟩
  · by_contra hge
    have hlt : p < h.claimed.length := h'.claimed_of_ready (by rw [hp]; rfl)
    rcases h'.decided hrest (p := Nat.find hend) (by omega) with hfirst | hfirst
    · exact Nat.find_spec hend hfirst
    · exact hge (hs.before p _ (by rw [hp]; rfl) hfirst)
  · by_contra hne
    exact Nat.find_min hend hp hne

theorem filter_zipIdx {α : Type*} (l : List α) (n i : ℕ) :
    ((l.zipIdx i).filter fun x => x.2 < i + n).map Prod.fst = l.take n := by
  induction l generalizing n i with
  | nil => rw [List.take_nil]; rfl
  | cons a l ih =>
      cases n with
      | zero =>
          rw [List.take_zero, List.map_eq_nil_iff, List.filter_eq_nil_iff]
          intro x hx
          have := List.le_snd_of_mem_zipIdx hx
          simp only [decide_eq_true_eq]
          omega
      | succ n =>
          rw [List.zipIdx_cons, List.filter_cons_of_pos (by simp), List.map_cons, List.take_succ_cons,
            ← ih n (i + 1), show i + (n + 1) = i + 1 + n by omega]

theorem acceptedItems_eq {n : ℕ} (hn : ∀ p, h.phase p = .succeeded ↔ p < n) :
    h.acceptedItems = (h.claimed.take n).map Prod.snd := by
  have hfilter := filter_zipIdx h.claimed n 0
  rw [Nat.zero_add] at hfilter
  rw [History.acceptedItems, ← hfilter, List.map_map]
  congr 2
  funext x
  rw [decide_eq_decide]
  exact hn x.2

/-! ### Draining -/

theorem popAlone_popSeq (mask : U64) (fuel : ℕ) (m : Mem V) (mode : PopMode) :
    popAlone mask (fuel + 1) (m, .popSeq mode) =
      (run mask m (.popSeq mode)).bind (popAlone mask fuel) := rfl

/-- A `try_pop` that nothing disturbs takes the next item once it is published. -/
theorem Inv.tryPop_ready {x : Tid × V} (h' : Inv k consumer m f h) (hk : k ≤ 64)
    (hidle : f consumer = .idle) (hready : (h.phase h.recycled).ready = true)
    (hx : h.claimed[h.recycled]? = some x) :
    ∃ m', tryPop (ringMask k) m = some (m', some (some x.2)) ∧
      Inv k consumer m' f { h with
        popped := h.popped ++ [some x.2]
        returned := h.returned ++ [some x.2]
        recycled := h.recycled + 1 } := by
  have hsees := (h'.sees (by rw [hidle]; rfl)).mpr hready
  have htail := h'.tail
  rw [hidle] at htail
  have hdata : (m.slot (ringMask k) m.tail).data = some x.2 := by
    rw [Mem.slot, htail]
    exact h'.data _ x (by rw [hidle]; rfl) hready hx
  have hcall : Inv k consumer m (Function.update f consumer (.popSeq .once)) h := by
    refine h'.quiet rfl rfl rfl (fun ph hph => ?_) rfl (by rw [hidle]; rfl) rfl rfl
      (by rw [hidle]; rfl) rfl fun _ => rfl
    rw [hidle] at hph
    cases hph
  have htake := hcall.take (Function.update_self ..) hready
  rw [Function.update_idem] at htake
  have hmove := htake.moveOut hk (Function.update_self ..)
  rw [Function.update_idem] at hmove
  have hrecycle := hmove.recycle hk (Function.update_self ..)
  rw [Function.update_idem] at hrecycle
  have hdeliver := hrecycle.deliver (Function.update_self ..)
  rw [Function.update_idem] at hdeliver
  have hreturn := hdeliver.plain (Function.update_self ..) rfl rfl rfl rfl
    (show Pc.idle.stage = none from rfl) rfl rfl rfl rfl rfl fun hp => absurd hp Bool.false_ne_true
  rw [Function.update_idem, ← hidle, Function.update_eq_self] at hreturn
  rw [← hdata]
  exact ⟨_, (popAlone_popSeq _ 3 m .once).trans (by rw [run, if_pos hsees]; rfl), hreturn⟩

theorem Inv.tryPop_empty (h' : Inv k consumer m f h) (hidle : f consumer = .idle)
    (hready : (h.phase h.recycled).ready = false) : tryPop (ringMask k) m = some (m, none) := by
  have hsees := (h'.sees (by rw [hidle]; rfl)).not.mpr (Bool.eq_false_iff.mp hready)
  rw [tryPop, popAlone_popSeq, run, if_neg hsees]
  rfl

/-- The consumer pops the published positions, and stops at the first that is not. -/
theorem Inv.drains {n : ℕ} (h' : Inv k consumer m f h) (hk : k ≤ 64) (hidle : f consumer = .idle)
    (hn : ∀ p, (h.phase p).ready = true ↔ p < n) (hle : h.recycled ≤ n) :
    Drains (ringMask k) m (((h.claimed.take n).drop h.recycled).map fun c => some c.2) := by
  induction hleft : n - h.recycled generalizing m h with
  | zero =>
      obtain rfl : h.recycled = n := by omega
      have hlast : (h.phase h.recycled).ready = false :=
        Bool.eq_false_iff.mpr fun hr => absurd ((hn _).mp hr) (by omega)
      rw [List.drop_eq_nil_of_le (List.length_take_le ..)]
      exact .empty (h'.tryPop_empty hidle hlast)
  | succ left ih =>
      have hready := (hn h.recycled).mpr (by omega)
      have hlt := h'.claimed_of_ready hready
      have hlength : h.recycled < (h.claimed.take n).length := by
        rw [List.length_take]
        omega
      obtain ⟨m', hpop, hnext⟩ :=
        h'.tryPop_ready hk hidle hready (List.getElem?_eq_getElem hlt)
      rw [List.drop_eq_getElem_cons hlength, List.getElem_take]
      exact .pop hpop (ih hnext hn (show h.recycled + 1 ≤ n by omega)
        (show n - (h.recycled + 1) = left by omega))

/-! ### Closing -/

/-- The invariant of the runs in which the queue is closed cleanly. -/
theorem shut_of_reachable [Fintype Tid] {capacity : U64} {s : State V Tid × History V Tid}
    (hcap : capacity.toNat ≤ 2 ^ 63)
    (h : (observed V capacity consumer).Reachable (closesCleanly capacity) s) :
    Sound capacity consumer s ∧ Shut s.1.mem s.2 := by
  refine h.induct (I := fun s => Sound capacity consumer s ∧ Shut s.1.mem s.2)
    ⟨.init hcap, nofun, nofun⟩ ?_
  intro s a s' _ ih hnext hok
  obtain ⟨t, l, m, pc, rfl, hstep, hmove, hhistory⟩ := observed_next hnext
  obtain ⟨s', h'⟩ := s'
  subst hmove hhistory
  have hclean : l = .run → ClaimFree (maskOf capacity) s.1.mem (s.1.thread t) ∧
      RefusesLast s.1.mem s.2 t (s.1.thread t) := by
    rintro rfl
    exact hok
  refine ⟨ih.1.step hcap (fun hl => (hclean hl).1) hstep, ?_⟩
  rw [maskOf_eq] at hstep ⊢
  exact ih.2.step ih.1 (fun hl => (hclean hl).2) hstep

/-- A queue that is closed cleanly keeps every accepted item for its consumer. -/
theorem close_keeps_accepted [Fintype Tid] {capacity : U64} {s : State V Tid × History V Tid}
    (hcap : capacity.toNat ≤ 2 ^ 63)
    (h : (observed V capacity consumer).Reachable (closesCleanly capacity) s)
    (hquiet : Quiet consumer s) : DrainsAccepted capacity s := by
  obtain ⟨hsound, hshut⟩ := shut_of_reachable hcap h
  obtain ⟨hrest, hidle⟩ := hquiet
  have hinv : Inv (ringBits capacity) consumer s.1.mem s.1.thread s.2 := hsound
  have hk : ringBits capacity ≤ 63 := ringBits_le (by omega) hcap
  obtain ⟨n, hn⟩ := hshut.settled hinv hrest
  have hready : ∀ p, (s.2.phase p).ready = true ↔ p < n := by
    intro p
    rw [← hn p]
    constructor
    · intro hr
      rcases hinv.decided hrest (hinv.claimed_of_ready hr) with hp | hp
      · exact hp
      · rw [hp] at hr
        cases hr
    · intro hp
      rw [hp]
      rfl
  have hle : s.2.recycled ≤ n := by
    by_contra hgt
    have htaking : (s.1.thread consumer).taking = 0 := by rw [hidle]; rfl
    exact absurd ((hready n).mp (hinv.ready n (by omega))) (by omega)
  refine ⟨_, maskOf_eq capacity ▸ hinv.drains (by omega) hidle hready hle, ?_⟩
  have hpopped := hinv.popped
  rw [hidle] at hpopped
  rw [acceptedItems_eq hn, List.map_map, hpopped, ← List.map_append]
  refine congrArg (List.map _) ?_
  change s.2.claimed.take s.2.recycled ++ _ = _
  calc s.2.claimed.take s.2.recycled ++ (s.2.claimed.take n).drop s.2.recycled
      = (s.2.claimed.take n).take s.2.recycled ++ (s.2.claimed.take n).drop s.2.recycled := by
        rw [List.take_take, min_eq_left hle]
    _ = s.2.claimed.take n := List.take_append_drop ..

/-- Thread `a` pushes 7 into a queue of two slots and closes it; its next push is refused. -/
def closeRun : List (Act Runner (Label ℕ)) :=
  .step .a (.tryPush 7) :: List.replicate 8 (.step .a .run) ++
    [.step .a .close, .step .a .run, .step .a (.tryPush 8)] ++ List.replicate 6 (.step .a .run)

theorem close_keeps_accepted_refused : ∃ s : State ℕ Runner × History ℕ Runner,
    s.2.claimed.length = 2 ∧ DrainsAccepted 1 s :=
  let M := observed ℕ 1 Runner.b
  ⟨(M.run (closesCleanly 1) M.init closeRun).get (by decide), by decide,
    close_keeps_accepted (by decide) (Machine.Reachable.of_run (M := M) _ _)
      (by unfold Quiet; decide)⟩

/-- Thread `a` claims position 0, thread `b` pushes 8 at position 1 and closes the queue, and thread `a`
reverts. -/
def lossRun : List (Act Runner (Label ℕ)) :=
  .step .a (.tryPush 7) :: List.replicate 3 (.step .a .run) ++
    .step .b (.tryPush 8) :: List.replicate 8 (.step .b .run) ++
    [.step .b .close, .step .b .run] ++ List.replicate 3 (.step .a .run)

/-- The item accepted at position 1 is never popped. -/
theorem close_loses_accepted : ∃ s : State ℕ Runner × History ℕ Runner,
    (observed ℕ 1 Runner.b).Reachable anyStep s ∧ Quiet .b s ∧ ¬ DrainsAccepted 1 s := by
  let M := observed ℕ 1 Runner.b
  refine ⟨(M.run anyStep M.init lossRun).get (by decide), .of_run _ _, by unfold Quiet; decide, ?_⟩
  rintro ⟨rest, hdrains, hrest⟩
  have hempty : (tryPop (maskOf 1) ((M.run anyStep M.init lossRun).get (by decide)).1.mem).map
    Prod.snd = some none := by decide
  cases hdrains with
  | empty h => exact absurd hrest (by decide)
  | pop h rest =>
      rw [h] at hempty
      cases hempty

end Psync.MPSCQueue
