import Psync.TicketModel
import Psync.RunGuard
import Psync.WordRing

/-! The ticket lock excludes and is fair. Tickets are numbers of the history, and the two words are their
remainders: the tickets from the one that is served to the next one to be drawn belong to the threads
that hold the lock or wait for it, and there are too few of them for two to agree in the word. -/

namespace Psync.TicketLock

open Concurrency MachineWord

set_option linter.unusedSectionVars false

variable {Tid : Type*} [DecidableEq Tid] [Fintype Tid]

/-- What a thread in `try_lock` knows. It has read a number that was served since, when fewer than
`2 ^ 31` tickets had been drawn after it; and before its CAS, that none had been. -/
def Knows (h : History Tid) (t : Tid) : Pc → Prop
  | .tryServing => h.began t ≤ h.drawn.length
  | .tryNext serving => h.began t ≤ h.drawn.length ∧
      ∃ n, serving = BitVec.ofNat 32 n ∧ n ≤ h.served ∧ h.began t ≤ n + 2 ^ 31
  | .tryCas serving => ∃ n, serving = BitVec.ofNat 32 n ∧ n ≤ h.served ∧ h.began t ≤ n
  | _ => True

/-- The positions at which a thread holds the lock for certain. -/
def Pc.owns : Pc → Bool
  | .unlock | .tried true => true
  | _ => false

structure Inv (s : State Tid) (h : History Tid) : Prop where
  nowServing : s.mem.nowServing = BitVec.ofNat 32 h.served
  nextTicket : s.mem.nextTicket = BitVec.ofNat 32 h.drawn.length
  total : h.served + outstanding s = h.drawn.length
  order : h.granted <+: h.drawn
  granted : h.granted.length = h.served + count Thread.held s.thread
  holder : ∀ t, (s.thread t).held = true → h.drawn[h.served]? = some t
  waits : ∀ t myTicket, (s.thread t).pc = .spin myTicket → myTicket = BitVec.ofNat 32 (h.ticket t) ∧
    h.granted.length ≤ h.ticket t ∧ h.drawn[h.ticket t]? = some t
  owns : ∀ t, (s.thread t).pc.owns = true → (s.thread t).held = true
  knows : ∀ t, Knows h t (s.thread t).pc

variable {s : State Tid} {h h' : History Tid} {t : Tid} {m : Mem} {th : Thread}

@[simp] theorem Thread.at_held {pc : Pc} : (th.at pc).held = th.held := rfl

theorem Inv.unique (hinv : Inv s h) {u : Tid} (ht : (s.thread t).held = true)
    (hu : (s.thread u).held = true) : t = u :=
  Option.some.inj ((hinv.holder t ht).symm.trans (hinv.holder u hu))

/-- The number of tickets drawn and not served. -/
theorem Inv.window (hinv : Inv s h) (hfew : outstanding s ≤ 2 ^ 31) :
    h.served ≤ h.drawn.length ∧ h.drawn.length ≤ h.served + 2 ^ 31 := by
  have := hinv.total
  omega

theorem outstanding_move (s : State Tid) (t : Tid) (m : Mem) (th : Thread) :
    outstanding (s.move t m th) + ((s.thread t).held.toNat + (s.thread t).waiting.toNat) =
      outstanding s + (th.held.toNat + th.waiting.toNat) := by
  have hheld := count_update (p := Thread.held) (f := s.thread) t th
  have hwaiting := count_update (p := Thread.waiting) (f := s.thread) t th
  simp only [outstanding, Config.move_thread]
  omega

/-- What a thread knows stays true while others draw and serve. -/
theorem Knows.mono {pc : Pc} (hknows : Knows h t pc) (hdrawn : h.drawn.length ≤ h'.drawn.length)
    (hserved : h.served ≤ h'.served) (hbegan : h'.began t = h.began t) : Knows h' t pc := by
  cases pc with
  | tryServing =>
      rw [Knows, hbegan]
      exact hknows.trans hdrawn
  | tryNext serving =>
      obtain ⟨hle, n, hn, hn', hlt⟩ := hknows
      rw [Knows, hbegan]
      exact ⟨hle.trans hdrawn, n, hn, hn'.trans hserved, hlt⟩
  | tryCas serving =>
      obtain ⟨n, hn, hn', hlt⟩ := hknows
      rw [Knows, hbegan]
      exact ⟨n, hn, hn'.trans hserved, hlt⟩
  | _ => trivial

theorem Knows.began {pc : Pc} {b : Tid → ℕ} (hknows : Knows h t pc) (hb : b t = h.began t) :
    Knows { h with began := b } t pc :=
  hknows.mono le_rfl le_rfl hb

/-- A step that neither draws nor grants nor serves. -/
theorem Inv.quiet {b : ℕ} (hinv : Inv s h) (hheld : th.held = (s.thread t).held)
    (hold : (s.thread t).waiting = false) (hnew : th.waiting = false)
    (howns : th.pc.owns = true → th.held = true)
    (hknows : Knows { h with began := Function.update h.began t b } t th.pc) :
    Inv (s.move t s.mem th) { h with began := Function.update h.began t b } where
  nowServing := hinv.nowServing
  nextTicket := hinv.nextTicket
  total := by
    have hmove := outstanding_move s t s.mem th
    rw [hheld, hold, hnew] at hmove
    have := hinv.total
    simp only
    omega
  order := hinv.order
  granted := by rw [Config.move_thread, count_update_same hheld, hinv.granted]
  holder u hu := hinv.holder u (by rwa [Config.move_thread, apply_update_same (g := Thread.held) hheld] at hu)
  waits u myTicket hu := by
    rw [Config.move_thread, Function.update_apply] at hu
    split_ifs at hu
    · rw [Thread.waiting, hu] at hnew
      cases hnew
    · exact hinv.waits u myTicket hu
  owns u hu := by
    rw [Config.move_thread, Function.update_apply] at hu ⊢
    split_ifs at hu ⊢
    · exact howns hu
    · exact hinv.owns u hu
  knows u := by
    rw [Config.move_thread, Function.update_apply]
    split_ifs with hut
    · rw [hut]
      exact hknows
    · exact (hinv.knows u).began (Function.update_of_ne hut ..)

theorem getElem?_append {l : List Tid} {i : ℕ} {u : Tid} (hi : l[i]? = some u) (t : Tid) :
    (l ++ [t])[i]? = some u := by
  rw [List.getElem?_append_left (List.getElem?_eq_some_iff.mp hi).1]
  exact hi

/-- The `fetch_add` of `lock` draws the next ticket. -/
theorem Inv.draw (hinv : Inv s h) (hpc : (s.thread t).pc = .draw) :
    Inv (s.move t { s.mem with nextTicket := s.mem.nextTicket + 1 }
        ((s.thread t).at (.spin s.mem.nextTicket)))
      { h with drawn := h.drawn ++ [t], ticket := Function.update h.ticket t h.drawn.length } where
  nowServing := hinv.nowServing
  nextTicket := by
    rw [List.length_append, Config.move_mem]
    simp only [hinv.nextTicket, List.length_singleton]
    exact (ofNat_succ _).symm
  total := by
    have hmove := outstanding_move s t { s.mem with nextTicket := s.mem.nextTicket + 1 }
      ((s.thread t).at (.spin s.mem.nextTicket))
    have hold : (s.thread t).waiting = false := by rw [Thread.waiting, hpc]
    rw [hold] at hmove
    simp only [Thread.at, Thread.waiting, Bool.toNat_true, Bool.toNat_false] at hmove
    have := hinv.total
    simp only [List.length_append, List.length_singleton, Thread.at]
    omega
  order := hinv.order.trans (List.prefix_append _ _)
  granted := by
    rw [Config.move_thread, count_update_same Thread.at_held]
    exact hinv.granted
  holder u hu := by
    rw [Config.move_thread, apply_update_same (g := Thread.held) Thread.at_held] at hu
    exact getElem?_append (hinv.holder u hu) t
  waits u myTicket hu := by
    rw [Config.move_thread, Function.update_apply] at hu
    split_ifs at hu with hut
    · cases hu
      simp only [hut, Function.update_self]
      exact ⟨hinv.nextTicket, hinv.order.length_le, List.getElem?_concat_length ..⟩
    · obtain ⟨hticket, hle, hget⟩ := hinv.waits u myTicket hu
      simp only [Function.update_of_ne hut]
      exact ⟨hticket, hle, getElem?_append hget t⟩
  owns u hu := by
    rw [Config.move_thread, Function.update_apply] at hu ⊢
    split_ifs at hu ⊢
    · cases hu
    · exact hinv.owns u hu
  knows u := by
    rw [Config.move_thread, Function.update_apply]
    split_ifs
    · trivial
    · exact (hinv.knows u).mono (List.prefix_append _ _).length_le le_rfl rfl

theorem concat_prefix {l l' : List Tid} (h : l <+: l') (ht : l'[l.length]? = some t) :
    l ++ [t] <+: l' := by
  obtain ⟨rest, rfl⟩ := h
  cases rest with
  | nil =>
      rw [List.append_nil, List.getElem?_length] at ht
      cases ht
  | cons u rest =>
      rw [List.getElem?_append_right le_rfl, Nat.sub_self] at ht
      cases ht
      exact ⟨rest, by rw [List.append_assoc]; rfl⟩

/-- A waiting thread that finds its ticket served is the next one to be granted the lock. -/
theorem Inv.served (hinv : Inv s h) (hfew : outstanding s ≤ 2 ^ 31) {myTicket : U32}
    (hpc : (s.thread t).pc = .spin myTicket) (hsame : s.mem.nowServing = myTicket) :
    h.ticket t = h.served ∧ h.granted.length = h.served := by
  obtain ⟨hticket, hle, hget⟩ := hinv.waits t myTicket hpc
  have hlt := (List.getElem?_eq_some_iff.mp hget).1
  have hgranted := hinv.granted
  obtain ⟨-, hwindow⟩ := hinv.window hfew
  have heq := ofNat_inj (r := h.served) le_rfl (by omega) (by omega) (by omega)
    (hinv.nowServing.symm.trans (hsame.trans hticket))
  omega

theorem Inv.grant (hinv : Inv s h) (hfew : outstanding s ≤ 2 ^ 31) {myTicket : U32}
    (hpc : (s.thread t).pc = .spin myTicket) (hsame : s.mem.nowServing = myTicket) :
    Inv (s.move t s.mem ⟨true, .idle⟩) { h with granted := h.granted ++ [t] } := by
  obtain ⟨hticket, hnone⟩ := hinv.served hfew hpc hsame
  obtain ⟨-, -, hget⟩ := hinv.waits t myTicket hpc
  have hfree : count Thread.held s.thread = 0 := by
    have := hinv.granted
    omega
  have hheld : (s.thread t).held = false := count_eq_zero.mp hfree t
  have hcount := count_update (p := Thread.held) (f := s.thread) t ⟨true, .idle⟩
  rw [hheld] at hcount
  refine ⟨hinv.nowServing, hinv.nextTicket, ?_, concat_prefix hinv.order (by rw [hnone, ← hticket, hget]),
    ?_, fun u hu => ?_, fun u tk hu => ?_, fun u hu => ?_, fun u => ?_⟩
  · have hmove := outstanding_move s t s.mem ⟨true, .idle⟩
    have hold : (s.thread t).waiting = true := by rw [Thread.waiting, hpc]
    rw [hheld, hold] at hmove
    simp only [Thread.waiting, Bool.toNat_true, Bool.toNat_false] at hmove
    have := hinv.total
    simp only
    omega
  · simp only [List.length_append, List.length_singleton, Config.move_thread,
      Bool.toNat_true, Bool.toNat_false] at hcount ⊢
    omega
  · rw [Config.move_thread, Function.update_apply] at hu
    split_ifs at hu with hut
    · rw [hut, ← hticket, hget]
    · rw [count_eq_zero.mp hfree u] at hu
      cases hu
  · rw [Config.move_thread, Function.update_apply] at hu
    split_ifs at hu with hut
    obtain ⟨htk, hle, hget'⟩ := hinv.waits u tk hu
    refine ⟨htk, ?_, hget'⟩
    have hne : h.ticket u ≠ h.ticket t := by
      intro heq
      rw [heq, hget] at hget'
      exact hut (Option.some.inj hget').symm
    simp only [List.length_append, List.length_singleton]
    omega
  · rw [Config.move_thread, Function.update_apply] at hu ⊢
    split_ifs at hu ⊢
    · cases hu
    · exact hinv.owns u hu
  · rw [Config.move_thread, Function.update_apply]
    split_ifs
    · trivial
    · exact (hinv.knows u).mono le_rfl le_rfl rfl

/-- While fewer than `2 ^ 31` tickets are drawn during a `try_lock`, its CAS succeeds only if every
ticket has been served. -/
theorem Inv.taken (hinv : Inv s h) (hdrawn : h.drawn.length < h.began t + 2 ^ 31) {serving : U32}
    (hpc : (s.thread t).pc = .tryCas serving) (hsame : s.mem.nextTicket = serving) :
    h.served = h.drawn.length ∧ outstanding s = 0 := by
  have hknows := hinv.knows t
  rw [hpc] at hknows
  obtain ⟨n, hn, hserved, hbegan⟩ := hknows
  have htotal := hinv.total
  have heq := ofNat_inj (r := n) (by omega) (by omega) le_rfl (by omega)
    (hinv.nextTicket.symm.trans (hsame.trans hn))
  omega

theorem Inv.tryLock (hinv : Inv s h) (hdrawn : h.drawn.length < h.began t + 2 ^ 31) {serving : U32}
    (hpc : (s.thread t).pc = .tryCas serving) (hsame : s.mem.nextTicket = serving) :
    Inv (s.move t { s.mem with nextTicket := serving + 1 } ⟨true, .tried true⟩)
      { h with drawn := h.drawn ++ [t], granted := h.granted ++ [t] } := by
  obtain ⟨hserved, hnone⟩ := hinv.taken hdrawn hpc hsame
  have hnobody : count Thread.held s.thread = 0 ∧ count Thread.waiting s.thread = 0 := by
    rw [outstanding] at hnone
    omega
  have hfree := count_eq_zero.mp hnobody.1
  have hqueue := count_eq_zero.mp hnobody.2
  have hall : h.granted = h.drawn := hinv.order.eq_of_length (by rw [hinv.granted, hserved, hnobody.1]; rfl)
  have hcount := count_update (p := Thread.held) (f := s.thread) t ⟨true, .tried true⟩
  have hmove := outstanding_move s t { s.mem with nextTicket := serving + 1 } ⟨true, .tried true⟩
  rw [hfree t, hqueue t] at hmove
  rw [hfree t] at hcount
  have hgranted := hinv.granted
  refine ⟨hinv.nowServing, ?_, ?_, by rw [hall], ?_, fun u hu => ?_, fun u tk hu => ?_, fun u hu => ?_,
    fun u => ?_⟩
  · rw [List.length_append, Config.move_mem, ← hsame]
    simp only [hinv.nextTicket, List.length_singleton]
    exact (ofNat_succ _).symm
  · simp only [Thread.waiting, List.length_append, List.length_singleton, Bool.toNat_true,
      Bool.toNat_false] at hmove ⊢
    omega
  · simp only [List.length_append, List.length_singleton, Config.move_thread, Bool.toNat_true,
      Bool.toNat_false] at hcount ⊢
    omega
  · rw [Config.move_thread, Function.update_apply] at hu
    split_ifs at hu with hut
    · rw [hut, hserved]
      exact List.getElem?_concat_length ..
    · rw [hfree u] at hu
      cases hu
  · rw [Config.move_thread, Function.update_apply] at hu
    split_ifs at hu
    have hwaiting := hqueue u
    rw [Thread.waiting, hu] at hwaiting
    cases hwaiting
  · rw [Config.move_thread, Function.update_apply] at hu ⊢
    split_ifs at hu ⊢
    · rfl
    · exact hinv.owns u hu
  · rw [Config.move_thread, Function.update_apply]
    split_ifs
    · trivial
    · exact (hinv.knows u).mono (List.prefix_append _ _).length_le le_rfl rfl

/-- The holder serves the next ticket. -/
theorem Inv.unlock (hinv : Inv s h) (hpc : (s.thread t).pc = .unlock) :
    Inv (s.move t { s.mem with nowServing := s.mem.nowServing + 1 } ⟨false, .idle⟩)
      { h with served := h.served + 1 } := by
  have hheld := hinv.owns t (by rw [hpc]; rfl)
  have hcount := count_update (p := Thread.held) (f := s.thread) t ⟨false, .idle⟩
  have hmove := outstanding_move s t { s.mem with nowServing := s.mem.nowServing + 1 } ⟨false, .idle⟩
  have hwaiting : (s.thread t).waiting = false := by rw [Thread.waiting, hpc]
  rw [hheld, hwaiting] at hmove
  rw [hheld] at hcount
  have hgranted := hinv.granted
  have htotal := hinv.total
  refine ⟨?_, hinv.nextTicket, ?_, hinv.order, ?_, fun u hu => ?_, fun u tk hu => ?_, fun u hu => ?_,
    fun u => ?_⟩
  · rw [Config.move_mem]
    simp only [hinv.nowServing]
    exact (ofNat_succ _).symm
  · simp only [Thread.waiting, Bool.toNat_true, Bool.toNat_false] at hmove ⊢
    omega
  · simp only [Config.move_thread, Bool.toNat_true, Bool.toNat_false] at hcount ⊢
    omega
  · rw [Config.move_thread, Function.update_apply] at hu
    split_ifs at hu with hut
    exact absurd (hinv.unique hu hheld) hut
  · rw [Config.move_thread, Function.update_apply] at hu
    split_ifs at hu
    exact hinv.waits u tk hu
  · rw [Config.move_thread, Function.update_apply] at hu ⊢
    split_ifs at hu ⊢
    · cases hu
    · exact hinv.owns u hu
  · rw [Config.move_thread, Function.update_apply]
    split_ifs
    · trivial
    · exact (hinv.knows u).mono le_rfl (Nat.le_succ _) rfl

/-- A step that changes only where the thread is. -/
theorem Inv.same (hinv : Inv s h) (hheld : th.held = (s.thread t).held)
    (hold : (s.thread t).waiting = false) (hnew : th.waiting = false)
    (howns : th.pc.owns = true → th.held = true) (hknows : Knows h t th.pc) :
    Inv (s.move t s.mem th) h := by
  have hquiet := hinv.quiet (b := h.began t) hheld hold hnew howns
    (by rwa [Function.update_eq_self])
  rwa [Function.update_eq_self] at hquiet

theorem outstanding_eq : queued s + count (fun th => th.held && th.waiting) s.thread = outstanding s := by
  rw [queued, outstanding, count_eq_tally, count_eq_tally, count_eq_tally, count_eq_tally, ← tally_add,
    ← tally_add]
  refine tally_congr fun t => ?_
  cases (s.thread t).held <;> cases (s.thread t).waiting <;> rfl

theorem Inv.outstanding_le (hinv : Inv s h) : outstanding s ≤ queued s + 1 := by
  have hone : count (fun th : Thread => th.held && th.waiting) s.thread ≤ 1 :=
    count_le_one fun t u ht hu => hinv.unique (Bool.and_eq_true_iff.mp ht).1 (Bool.and_eq_true_iff.mp hu).1
  have := outstanding_eq (s := s)
  omega

theorem Inv.init : Inv (program Tid).machine.init .init where
  nowServing := rfl
  nextTicket := rfl
  total := by
    rw [outstanding, count_eq_zero.mpr fun _ => rfl, count_eq_zero.mpr fun _ => rfl]
    rfl
  order := List.prefix_rfl
  granted := by
    rw [count_eq_zero.mpr fun _ => rfl]
    rfl
  holder t ht := by cases ht
  waits t tk ht := by cases ht
  owns t ht := by cases ht
  knows t := trivial

/-- One atomic step of the code. -/
theorem Inv.run (hinv : Inv s h) (hbounded : Bounded (s, h)) (hrun : run s.mem (s.thread t) = some (m, th)) :
    Inv (s.move t m th) (h.step t .run s.mem (s.thread t)) := by
  have hle : outstanding s ≤ 2 ^ 31 := hinv.outstanding_le.trans (Nat.succ_le_of_lt hbounded.1)
  have hdrawn : (s.thread t).trying = true → h.drawn.length < h.began t + 2 ^ 31 := hbounded.2 t
  have hknows := hinv.knows t
  unfold TicketLock.run at hrun
  unfold History.step
  cases hpc : (s.thread t).pc with
  | idle =>
      rw [hpc] at hrun
      cases hrun
  | draw =>
      rw [hpc] at hrun
      cases hrun
      exact hinv.draw hpc
  | spin myTicket =>
      rw [hpc] at hrun
      cases hrun
      simp only
      split_ifs with hsame
      · exact hinv.grant hle hpc hsame
      · rwa [show s.move t s.mem (s.thread t) = s from
          Config.ext rfl (Function.update_eq_self ..) rfl]
  | tryServing =>
      rw [hpc] at hrun hknows
      cases hrun
      have hwindow := (hinv.window hle).2
      refine hinv.same rfl (by rw [Thread.waiting, hpc]) rfl (fun hu => by cases hu)
        ⟨hknows, h.served, hinv.nowServing, le_rfl, ?_⟩
      exact hknows.trans hwindow
  | tryNext serving =>
      have htrying : (s.thread t).trying = true := by rw [Thread.trying, hpc]
      have hlt := hdrawn htrying
      rw [hpc] at hrun hknows
      cases hrun
      obtain ⟨hbegan, n, hn, hserved, hbegan'⟩ := hknows
      have htotal := hinv.total
      have hold : (s.thread t).waiting = false := by rw [Thread.waiting, hpc]
      split_ifs with hsame
      · refine hinv.same rfl hold rfl (fun hu => by cases hu) ⟨n, hn, hserved, ?_⟩
        have heq := ofNat_inj (r := n) le_rfl (by omega) (by omega) (by omega)
          (hn.symm.trans (hsame.trans hinv.nextTicket))
        omega
      · exact hinv.same rfl hold rfl (fun hu => by cases hu) trivial
  | tryCas serving =>
      have htrying : (s.thread t).trying = true := by rw [Thread.trying, hpc]
      have hlt := hdrawn htrying
      rw [hpc, Option.some.injEq] at hrun
      simp only
      split_ifs at hrun ⊢ with hsame <;> cases hrun
      · exact hinv.tryLock hlt hpc hsame
      · exact hinv.same rfl (by rw [Thread.waiting, hpc]) rfl (fun hu => by cases hu) trivial
  | tried result =>
      rw [hpc] at hrun
      cases hrun
      exact hinv.same rfl (by rw [Thread.waiting, hpc]) rfl (fun hu => by cases hu) trivial
  | unlock =>
      rw [hpc] at hrun
      cases hrun
      exact hinv.unlock hpc

theorem Inv.step (hinv : Inv s h) (hbounded : Bounded (s, h)) {l : Label}
    (hstep : step l s.mem (s.thread t) = some (m, th)) :
    Inv (s.move t m th) (h.step t l s.mem (s.thread t)) := by
  cases l with
  | run => exact hinv.run hbounded hstep
  | lock =>
      simp only [TicketLock.step, Option.ite_none_right_eq_some, Option.some.injEq, Prod.mk.injEq] at hstep
      obtain ⟨hidle, rfl, rfl⟩ := hstep
      exact hinv.same rfl (by rw [Thread.waiting, hidle]) rfl (fun hu => by cases hu) trivial
  | tryLock =>
      simp only [TicketLock.step, Option.ite_none_right_eq_some, Option.some.injEq, Prod.mk.injEq] at hstep
      obtain ⟨hidle, rfl, rfl⟩ := hstep
      refine hinv.quiet rfl (by rw [Thread.waiting, hidle]) rfl (fun hu => by cases hu) ?_
      exact (Function.update_self ..).le
  | unlock =>
      simp only [TicketLock.step, Option.ite_none_right_eq_some, Option.some.injEq, Prod.mk.injEq] at hstep
      obtain ⟨⟨hidle, hheld⟩, rfl, rfl⟩ := hstep
      exact hinv.same rfl (by rw [Thread.waiting, hidle]) rfl (fun _ => hheld) trivial

variable {x : State Tid × History Tid}

theorem inv_of_reachable (h : (observed Tid).Reachable few x) : Inv x.1 x.2 ∧ Bounded x := by
  refine h.induct (I := fun x => Inv x.1 x.2 ∧ Bounded x) ⟨Inv.init, ?_, fun t ht => by cases ht⟩ ?_
  · rw [queued, count_eq_zero.mpr fun _ => rfl]
    exact Nat.two_pow_pos 31
  · intro x a x' _ hinv hnext hfew
    obtain ⟨t, l, m, th, rfl, hstep, rfl⟩ := (program Tid).observed_step_of_next (fun _ => rfl)
      (fun _ => rfl) (fun _ => rfl) hnext
    exact ⟨hinv.1.step hinv.2 hstep, hfew⟩

/-- The number of tickets drawn and not served can be read off the two words. -/
theorem Inv.difference (hinv : Inv s h) (hle : outstanding s ≤ 2 ^ 31) :
    (s.mem.nextTicket - s.mem.nowServing).toNat = outstanding s := by
  rw [hinv.nextTicket, hinv.nowServing, ← hinv.total, BitVec.ofNat_add, BitVec.add_comm,
    BitVec.add_sub_cancel, BitVec.toNat_ofNat]
  exact Nat.mod_eq_of_lt (by omega)

/-- What the ticket lock guarantees in a state `x` of a run. -/
structure Law (x : State Tid × History Tid) : Prop where
  exclusive : ∀ t u, (x.1.thread t).held = true → (x.1.thread u).held = true → t = u
  tickets : (x.1.mem.nextTicket - x.1.mem.nowServing).toNat = outstanding x.1
  threads : (∀ t, (x.1.thread t).held = true → (x.1.thread t).waiting = false) →
    outstanding x.1 = queued x.1
  fifo : x.2.granted <+: x.2.drawn
  grants : x.2.granted.length = x.2.served + count Thread.held x.1.thread
  /-- The CAS of `try_lock` succeeds only if it draws the ticket that is being served, when nobody holds
  the lock or waits for it. -/
  tryLock : ∀ t serving, (x.1.thread t).pc = .tryCas serving → x.1.mem.nextTicket = serving →
    x.1.mem.nowServing = serving ∧ x.2.granted = x.2.drawn ∧
      ∀ u, (x.1.thread u).held = false ∧ (x.1.thread u).waiting = false
  /-- A thread to which `try_lock` has answered `true` holds the lock. -/
  tried : ∀ t, (x.1.thread t).pc = .tried true → (x.1.thread t).held = true

/-- Mutual exclusion and fairness of the ticket lock, also when the counters wrap around. -/
theorem ticket_lock_fair (h : (observed Tid).Reachable few x) : Law x := by
  obtain ⟨hinv, hbounded⟩ := inv_of_reachable h
  have hle : outstanding x.1 ≤ 2 ^ 31 := hinv.outstanding_le.trans (Nat.succ_le_of_lt hbounded.1)
  refine ⟨fun t u => hinv.unique, hinv.difference hle, fun hnone => ?_, hinv.order, hinv.granted,
    fun t serving hpc hsame => ?_, fun t hpc => hinv.owns t (by rw [hpc]; rfl)⟩
  · have hzero : count (fun th : Thread => th.held && th.waiting) x.1.thread = 0 := by
      refine count_eq_zero.mpr fun t => ?_
      cases hheld : (x.1.thread t).held with
      | false => rfl
      | true => simpa using hnone t hheld
    have := outstanding_eq (s := x.1)
    omega
  · obtain ⟨hserved, hnone⟩ := hinv.taken (hbounded.2 t (by rw [Thread.trying, hpc])) hpc hsame
    rw [outstanding, Nat.add_eq_zero_iff] at hnone
    refine ⟨?_, hinv.order.eq_of_length ?_,
      fun u => ⟨count_eq_zero.mp hnone.1 u, count_eq_zero.mp hnone.2 u⟩⟩
    · rw [hinv.nowServing, hserved, ← hinv.nextTicket, hsame]
    · rw [hinv.granted, hserved, hnone.1, Nat.add_zero]

/-- Thread `a` takes the lock by `try_lock`, `b` and `c` draw tickets, and after `a` unlocks `b` holds the
lock while `c` waits. -/
theorem ticket_lock_fair_queue : ∃ x : State Runner × History Runner,
    Law x ∧ x.2.granted = [.a, .b] ∧ x.2.drawn = [.a, .b, .c] ∧ (x.1.thread .b).held = true := by
  refine ⟨_, ticket_lock_fair (.of_run
    [.step .a .tryLock, .step .a .run, .step .a .run, .step .a .run, .step .a .run, .step .b .lock,
      .step .b .run, .step .c .lock, .step .c .run, .step .a .unlock, .step .a .run, .step .c .run, .step .b .run]
    (by decide)), ?_⟩
  decide

end Psync.TicketLock
