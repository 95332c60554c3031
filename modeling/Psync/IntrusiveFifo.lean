import Psync.IntrusiveState

/-! The intrusive queue is a lossless first-in first-out queue in every run in which a node is pushed
again only after a pop has returned it. A pop that finds nothing has seen an empty queue, or a
producer between its two steps. -/

namespace Psync.MPSCIntrusiveQueue

open Concurrency

set_option linter.unusedSectionVars false

variable {Node Tid : Type*} [DecidableEq Node] [DecidableEq Tid] [Fintype Tid]
  {consumer t : Tid} {chain chain' : List (Cell Node)} {s s' : State Node Tid}
  {h h' : History Node} {m : Mem Node} {pc : Pc Node} {a b e : Cell Node}

/-! ### Steps of the queue -/

/-- A first entry without a link is alone, or there is a gap behind it. -/
theorem Inv.alone_or_gap (hinv : Inv consumer chain s h) (hfirst : s.mem.tail = a) :
    chain = [a] ∨ ∃ b, Consecutive chain a b := by
  obtain ⟨rest, rfl⟩ := List.head?_eq_some_iff.mp (hfirst ▸ hinv.shape.first)
  cases rest with
  | nil => exact Or.inl rfl
  | cons y rest => exact Or.inr ⟨y, Or.inl ⟨rfl, rfl⟩⟩

/-- A pop that finds a gap is excused. -/
theorem Inv.note_of_gap (hinv : Inv consumer chain s h) (ht : t = consumer)
    (hidle : (s.thread t).cell = none) (hgap : Consecutive chain a b) (hnone : s.mem.next a = none) :
    (h'.note (s.move t m pc)).excused = true := by
  subst ht
  obtain ⟨u, hut, hu⟩ := hinv.excused_of_gap hgap hnone hidle
  refine note_excused.mpr (Or.inr (Or.inr ⟨u, ?_⟩))
  rwa [Config.move_thread, Function.update_of_ne hut]

/-- A step of a thread that pushes nothing. -/
theorem Inv.rest (hinv : Inv consumer chain s h) (hpop : pc.popping = true → t = consumer)
    (hcell : pc.cell = none) (hidle : (s.thread t).cell = none)
    (hknown : Local s.mem chain (h.note s') pc) :
    Inv consumer chain (s.move t s.mem pc) (h.note s') := by
  refine hinv.quiet hpop ?_ ?_ rfl rfl (fun _ => id) ?_ hknown fun u _ => ?_
  · intro e he
    rw [hcell] at he
    cases he
  · intro a b caller hu
    rw [hu] at hidle
    cases hidle
  · intro node hnode
    rw [hcell] at hnode
    cases hnode
  · exact (hinv.known u).mono fun hexc => note_excused.mpr (Or.inl hexc)

/-- The first entry is popped. -/
theorem Inv.take (hinv : Inv consumer chain s h) (hfirst : s.mem.tail = a) (ha : a ≠ .stub)
    (hnext : s.mem.next a = some b) (ht : (s.thread t).popping = true)
    (hidle : (s.thread t).cell = none) :
    ∃ rest, Inv consumer rest (s.move t { s.mem with tail := b } (.popped (some a)))
      (record h s (.step t .run) (s.move t { s.mem with tail := b } (.popped (some a)))) := by
  obtain ⟨node, rfl⟩ : ∃ node, a = .entry node := by
    cases a with
    | stub => exact absurd rfl ha
    | entry node => exact ⟨node, rfl⟩
  have hgrow : record h s (.step t .run) (s.move t { s.mem with tail := b } (.popped (some (.entry node))))
      = ({ h with popped := h.popped ++ [node], inside := Function.update h.inside node false } :
        History Node).note (s.move t { s.mem with tail := b } (.popped (some (.entry node)))) := by
    simp only [record, History.grow, Config.move_thread, Function.update_self]
    generalize s.thread t = pc at hidle
    cases pc <;> first | rfl | cases hidle
  rw [hgrow]
  refine hinv.advance hfirst hnext ht hidle rfl rfl rfl (fun n hn => ?_) fun _ _ _ => trivial
  by_cases hnode : node = n
  · exact Or.inr (by rw [hnode])
  · refine Or.inl ?_
    simp only [History.note, Function.update_of_ne (Ne.symm hnode)] at hn
    exact hn

/-- A first entry without a link is alone, or its gap is an excuse. -/
theorem Inv.alone_or_note (hinv : Inv consumer chain s h) (hfirst : s.mem.tail = a)
    (hnone : s.mem.next a = none) (ht : t = consumer) (hidle : (s.thread t).cell = none) :
    chain = [a] ∨ (h'.note (s.move t m pc)).excused = true :=
  (hinv.alone_or_gap hfirst).imp_right fun ⟨_, hgap⟩ => hinv.note_of_gap ht hidle hgap hnone

/-- A step of a thread that pushes nothing adds nothing to the history, unless it pops an entry. -/
theorem record_rest (hidle : (s.thread t).cell = none) (hresult : ∀ c, pc ≠ .popped (some c)) :
    record h s (.step t .run) (s.move t m pc) = h.note (s.move t m pc) := by
  have hgrow : h.grow s (.step t .run) (s.move t m pc) = h := by
    simp only [History.grow, Config.move_thread, Function.update_self]
    generalize s.thread t = from' at hidle
    cases pc with
    | popped result =>
        cases result with
        | none => cases from' <;> first | rfl | cases hidle
        | some c => exact absurd rfl (hresult c)
    | _ => cases from' <;> first | rfl | cases hidle
  rw [record, hgrow]

theorem Inv.run_pushExchange {caller : Option (Cell Node)} (hinv : Inv consumer chain s h)
    (hpc : s.thread t = .pushExchange e caller)
    (hrun : MPSCIntrusiveQueue.run s.mem (.pushExchange e caller) = some (m, pc)) :
    ∃ chain', Inv consumer chain' (s.move t m pc) (record h s (.step t .run) (s.move t m pc)) := by
  cases hrun
  have hkeep : ∀ {h' : History Node} {s' : State Node Tid}, h'.excused = true →
      (h'.note s').excused = true := fun hexc => note_excused.mpr (Or.inl hexc)
  have hnote : ∀ {h' : History Node}, (Pc.pushLink s.mem.head e caller).linking = true →
      (h'.note (s.move t { s.mem with head := e } (.pushLink s.mem.head e caller))).excused = true := by
    intro h' hlink
    refine note_excused.mpr (Or.inr (Or.inr ⟨t, ?_⟩))
    rwa [Config.move_thread, Function.update_self]
  cases e with
  | stub =>
      simp only [record, History.grow, hpc, Config.move_thread, Function.update_self]
      exact ⟨_, hinv.exchange hpc (List.append_nil _).symm rfl rfl hkeep hnote⟩
  | entry node =>
      simp only [record, History.grow, hpc, Config.move_thread, Function.update_self]
      exact ⟨_, hinv.exchange hpc rfl rfl rfl (fun hexc => note_excused.mpr (Or.inl hexc)) hnote⟩

theorem Inv.run_popNext (hinv : Inv consumer chain s h) (hpc : s.thread t = .popNext)
    (hrun : MPSCIntrusiveQueue.run s.mem .popNext = some (m, pc)) :
    ∃ chain', Inv consumer chain' (s.move t m pc) (record h s (.step t .run) (s.move t m pc)) := by
  have ht := hinv.pops t (by rw [hpc]; rfl)
  have hidle : (s.thread t).cell = none := by rw [hpc]; rfl
  rw [MPSCIntrusiveQueue.run] at hrun
  cases hnext : s.mem.next s.mem.tail with
  | none =>
      rw [hnext] at hrun
      simp only [Option.some.injEq, Prod.mk.injEq] at hrun
      obtain ⟨rfl, rfl⟩ := hrun
      refine ⟨chain, ?_⟩
      split_ifs with hstub
      · rw [record_rest hidle fun c hc => by cases hc]
        refine hinv.rest (fun _ => ht) rfl hidle ?_
        rcases hinv.alone_or_note hstub (hstub ▸ hnext) ht hidle with hchain | hnote
        · exact Inv.excused_of_stub hinv.order hchain
        · exact hnote
      · rw [record_rest hidle fun c hc => by cases hc]
        exact hinv.rest (fun _ => ht) rfl hidle ⟨rfl, hstub, (hinv.alone_or_note rfl hnext ht hidle).symm⟩
  | some next =>
      rw [hnext] at hrun
      simp only [Option.some.injEq, Prod.mk.injEq] at hrun
      obtain ⟨rfl, rfl⟩ := hrun
      split_ifs with hstub
      · rw [record_rest hidle fun c hc => by cases hc]
        refine hinv.advance rfl hnext (by rw [hpc]; rfl) hidle rfl rfl ?_ (fun _ => Or.inl) ?_
        · rw [hstub]
          exact (List.append_nil _).symm
        · rintro hor rest -
          exact ⟨rfl, hor.resolve_right fun hne => hne hstub⟩
      · exact hinv.take rfl hstub hnext (by rw [hpc]; rfl) hidle

theorem Inv.run_popSecond (hinv : Inv consumer chain s h) (hpc : s.thread t = .popSecond a)
    (hrun : MPSCIntrusiveQueue.run s.mem (.popSecond a) = some (m, pc)) :
    ∃ chain', Inv consumer chain' (s.move t m pc) (record h s (.step t .run) (s.move t m pc)) := by
  have ht := hinv.pops t (by rw [hpc]; rfl)
  have hidle : (s.thread t).cell = none := by rw [hpc]; rfl
  have hknown := hinv.known t
  rw [hpc] at hknown
  obtain ⟨htail, hne⟩ := hknown
  rw [MPSCIntrusiveQueue.run] at hrun
  cases hnext : s.mem.next a with
  | none =>
      rw [hnext] at hrun
      cases hrun
      rw [record_rest hidle fun c hc => by cases hc]
      exact ⟨chain, hinv.rest (fun _ => ht) rfl hidle
        ⟨htail, hne, (hinv.alone_or_note htail hnext ht hidle).symm⟩⟩
  | some next =>
      rw [hnext] at hrun
      cases hrun
      exact hinv.take htail hne hnext (by rw [hpc]; rfl) hidle

theorem Inv.run_popHead (hinv : Inv consumer chain s h) (hpc : s.thread t = .popHead a)
    (hrun : MPSCIntrusiveQueue.run s.mem (.popHead a) = some (m, pc)) :
    ∃ chain', Inv consumer chain' (s.move t m pc) (record h s (.step t .run) (s.move t m pc)) := by
  have ht := hinv.pops t (by rw [hpc]; rfl)
  have hidle : (s.thread t).cell = none := by rw [hpc]; rfl
  have hkeep : ∀ {s' : State Node Tid}, h.excused = true → (h.note s').excused = true :=
    fun hexc => note_excused.mpr (Or.inl hexc)
  have hknown := hinv.known t
  rw [hpc] at hknown
  obtain ⟨htail, hne, hor⟩ := hknown
  rw [MPSCIntrusiveQueue.run, Option.some.injEq, Prod.mk.injEq] at hrun
  obtain ⟨rfl, rfl⟩ := hrun
  refine ⟨chain, ?_⟩
  split_ifs with hhead
  · rw [record_rest hidle fun c hc => by cases hc]
    refine hinv.rest (fun _ => ht) rfl hidle (hkeep (hor.resolve_right fun hchain => hhead ?_))
    have hlast := hinv.shape.last
    rw [hchain] at hlast
    exact Option.some.inj hlast
  · -- the stub is not in the chain, since the chain has one entry only
    have hchain : chain = [a] := eq_singleton_of_ends hinv.shape.nodup
      (hinv.shape.first.trans (congrArg some htail))
      (hinv.shape.last.trans (congrArg some (not_not.mp hhead).symm))
    rw [record_rest hidle fun c hc => by cases hc]
    refine hinv.quiet (fun _ => ht) ?_ ?_ rfl rfl (fun _ => id) nofun ⟨?_, rfl, htail, hne⟩
      fun u _ => (hinv.known u).mono hkeep
    · intro e he u hut hu
      cases he
      refine hut ((hinv.pops u ?_).trans ht.symm)
      exact (hinv.known u).popping hu
    · intro a b caller hu
      rw [hpc] at hu
      cases hu
    · rw [hchain]
      exact fun hmem => hne (List.mem_singleton.mp hmem).symm

theorem Inv.run_popLast (hinv : Inv consumer chain s h) (hpc : s.thread t = .popLast a)
    (hrun : MPSCIntrusiveQueue.run s.mem (.popLast a) = some (m, pc)) :
    ∃ chain', Inv consumer chain' (s.move t m pc) (record h s (.step t .run) (s.move t m pc)) := by
  have ht := hinv.pops t (by rw [hpc]; rfl)
  have hidle : (s.thread t).cell = none := by rw [hpc]; rfl
  have hknown := hinv.known t
  rw [hpc] at hknown
  obtain ⟨htail, hne, hmem⟩ := hknown
  rw [MPSCIntrusiveQueue.run] at hrun
  cases hnext : s.mem.next a with
  | none =>
      rw [hnext] at hrun
      cases hrun
      rw [record_rest hidle fun c hc => by cases hc]
      refine ⟨chain, hinv.rest (fun _ => ht) rfl hidle ?_⟩
      rcases hinv.alone_or_note htail hnext ht hidle with hchain | hnote
      · rw [hchain] at hmem
        exact absurd (List.mem_singleton.mp hmem).symm hne
      · exact hnote
  | some next =>
      rw [hnext] at hrun
      cases hrun
      exact hinv.take htail hne hnext (by rw [hpc]; rfl) hidle

theorem Inv.run (hinv : Inv consumer chain s h) (hrun : run s.mem (s.thread t) = some (m, pc)) :
    ∃ chain', Inv consumer chain' (s.move t m pc) (record h s (.step t .run) (s.move t m pc)) := by
  have hkeep : ∀ {h' : History Node} {s' : State Node Tid}, h'.excused = true →
      (h'.note s').excused = true := fun hexc => note_excused.mpr (Or.inl hexc)
  cases hpc : s.thread t with
  | idle =>
      rw [hpc] at hrun
      cases hrun
  | pushInit entry caller =>
      rw [hpc] at hrun
      cases hrun
      simp only [record, History.grow, hpc, Config.move_thread, Function.update_self]
      exact ⟨chain, hinv.clear hpc rfl rfl rfl hkeep⟩
  | pushExchange entry caller => exact hinv.run_pushExchange hpc (hpc ▸ hrun)
  | pushLink prev entry caller =>
      rw [hpc] at hrun
      cases hrun
      refine ⟨chain, ?_⟩
      cases caller with
      | none =>
          simp only [record, History.grow, hpc, Config.move_thread, Function.update_self, afterPush]
          exact hinv.link hpc rfl rfl rfl hkeep
      | some tail =>
          simp only [record, History.grow, hpc, Config.move_thread, Function.update_self, afterPush]
          exact hinv.link hpc rfl rfl rfl hkeep
  | popNext => exact hinv.run_popNext hpc (hpc ▸ hrun)
  | popSecond tail => exact hinv.run_popSecond hpc (hpc ▸ hrun)
  | popHead tail => exact hinv.run_popHead hpc (hpc ▸ hrun)
  | popLast tail => exact hinv.run_popLast hpc (hpc ▸ hrun)
  | popped result =>
      rw [hpc] at hrun
      cases hrun
      have hidle : (s.thread t).cell = none := by rw [hpc]; rfl
      rw [record_rest hidle fun c hc => by cases hc]
      exact ⟨chain, hinv.rest nofun rfl hidle trivial⟩

theorem Inv.step {l : Label Node} (hinv : Inv consumer chain s h)
    (hstep : step (t = consumer) l s.mem (s.thread t) = some (m, pc))
    (hok : reuses (s, h) (.step t l) (s', h')) :
    ∃ chain', Inv consumer chain' (s.move t m pc) (record h s (.step t l) (s.move t m pc)) := by
  cases l with
  | run => exact hinv.run hstep
  | push node =>
      cases hpc : s.thread t with
      | idle =>
          rw [hpc] at hstep
          cases hstep
          obtain ⟨hmem, hcells⟩ := hinv.outside node hok
          refine ⟨chain, hinv.quiet (fun hpop => by cases hpop) ?_ ?_ rfl rfl (fun n hn => ?_) (fun n hn => ?_)
            ⟨hmem, fun heq => by cases heq⟩ fun u _ => (hinv.known u).mono fun hexc => note_excused.mpr (Or.inl hexc)⟩
          · intro e he u _
            cases he
            exact hcells u
          · intro a b caller hu
            rw [hpc] at hu
            cases hu
          · simp only [record, History.note, History.grow, Function.update_apply] at hn
            split_ifs at hn
            exact hn
          · cases hn
            exact Function.update_self ..
      | _ =>
          rw [hpc] at hstep
          cases hstep
  | pop =>
      cases hpc : s.thread t with
      | idle =>
          rw [hpc] at hstep
          simp only [MPSCIntrusiveQueue.step] at hstep
          split_ifs at hstep with hconsumer
          cases hstep
          have ht := of_decide_eq_true hconsumer
          -- no other thread is in `pop`, and so nobody misses the old excuse
          refine ⟨chain, hinv.quiet (fun _ => ht) (fun _ he => by cases he) ?_ rfl rfl (fun _ => id)
            (fun _ hn => by cases hn) trivial
            fun u hut => ?_⟩
          · intro a b caller hu
            rw [hpc] at hu
            cases hu
          · have hpop : (s.thread u).popping = false := by
              cases hpop : (s.thread u).popping with
              | false => rfl
              | true => exact absurd ((hinv.pops u hpop).trans ht.symm) hut
            have hloc := hinv.known u
            generalize s.thread u = pc at hpop hloc
            cases pc with
            | popHead tail => cases hpop
            | popped result => cases hpop
            | _ => exact hloc
      | _ =>
          rw [hpc] at hstep
          cases hstep

theorem Inv.init : Inv consumer [.stub] (program Node consumer).machine.init .init where
  shape := ⟨rfl, rfl, List.nodup_singleton _, fun _ _ h => h.elim, rfl⟩
  pops _ h := nomatch h
  known _ := trivial
  unique _ _ _ h := nomatch h
  outside _ _ := ⟨fun h => (nomatch List.mem_singleton.mp h), nofun⟩
  order := rfl

theorem inv_of_reachable {w : State Node Tid × History Node}
    (h : (observed Node consumer).Reachable reuses w) : ∃ chain, Inv consumer chain w.1 w.2 := by
  refine h.induct (I := fun w => ∃ chain, Inv consumer chain w.1 w.2) ⟨_, Inv.init⟩ ?_
  intro w a w' _ ⟨chain, ih⟩ hnext hok
  obtain ⟨t, l, m, pc, rfl, hstep, rfl⟩ := Program.observed_step_of_next _ (fun _ => rfl)
    (fun _ => rfl) (fun _ => rfl) hnext
  exact ih.step hstep hok

/-- A pop that is about to return an entry returns no stub, and no store to the entry is pending. -/
theorem Inv.popped (hinv : Inv consumer chain s h) {l : Label Node} {c : Cell Node}
    (hstep : MPSCIntrusiveQueue.step (t = consumer) l s.mem (s.thread t) = some (m, .popped (some c))) :
    (∃ node, c = .entry node) ∧ ∀ u, (s.thread u).storesTo ≠ some c := by
  have hentry : ∀ {c : Cell Node}, c ≠ .stub → ∃ node, c = .entry node := by
    intro c hc
    cases c with
    | stub => exact absurd rfl hc
    | entry node => exact ⟨node, rfl⟩
  have hknown := hinv.known t
  cases l with
  | push node => cases hpc : s.thread t <;> rw [hpc] at hstep <;> cases hstep
  | pop =>
      cases hpc : s.thread t with
      | idle =>
          rw [hpc] at hstep
          simp only [MPSCIntrusiveQueue.step] at hstep
          split_ifs at hstep
          cases hstep
      | _ =>
          rw [hpc] at hstep
          cases hstep
  | run =>
      simp only [MPSCIntrusiveQueue.step] at hstep
      cases hpc : s.thread t with
      | pushLink prev entry caller =>
          rw [hpc] at hstep
          cases caller <;> cases hstep
      | popNext =>
          rw [hpc, MPSCIntrusiveQueue.run] at hstep
          cases hnext : s.mem.next s.mem.tail with
          | none =>
              rw [hnext] at hstep
              simp only [Option.some.injEq, Prod.mk.injEq] at hstep
              split_ifs at hstep <;> cases hstep.2
          | some next =>
              rw [hnext] at hstep
              simp only [Option.some.injEq, Prod.mk.injEq] at hstep
              split_ifs at hstep with hstub <;> cases hstep.2
              exact ⟨hentry hstub, hinv.no_store rfl hnext⟩
      | popSecond tail =>
          rw [hpc] at hstep hknown
          simp only [MPSCIntrusiveQueue.run] at hstep
          cases hnext : s.mem.next tail with
          | none =>
              rw [hnext] at hstep
              cases hstep
          | some next =>
              rw [hnext] at hstep
              cases hstep
              exact ⟨hentry hknown.2, hinv.no_store hknown.1 hnext⟩
      | popHead tail =>
          rw [hpc] at hstep
          simp only [MPSCIntrusiveQueue.run, Option.some.injEq, Prod.mk.injEq] at hstep
          split_ifs at hstep <;> cases hstep.2
      | popLast tail =>
          rw [hpc] at hstep hknown
          simp only [MPSCIntrusiveQueue.run] at hstep
          cases hnext : s.mem.next tail with
          | none =>
              rw [hnext] at hstep
              cases hstep
          | some next =>
              rw [hnext] at hstep
              cases hstep
              exact ⟨hentry hknown.2.1, hinv.no_store hknown.1 hnext⟩
      | _ =>
          rw [hpc] at hstep
          cases hstep

/-- Thread `a` pushes a node, thread `b` is between its exchange and its link, and `c` pops. -/
def gapRun : List (Act Runner (Label ℕ)) :=
  [.step .a (.push 1), .step .a .run, .step .a .run, .step .a .run,
    .step .b (.push 2), .step .b .run, .step .b .run,
    .step .c .pop, .step .c .run, .step .c .run, .step .c .run]

end Psync.MPSCIntrusiveQueue
