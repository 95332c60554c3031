import Psync.SeqlockModel
import Psync.RunGuard
import Psync.WordRing

/-! Accepted attempts are snapshots. The sequence counts the `fetch_add` of the writers, so that it is
odd exactly during a write. An attempt that finds its number again, before the count has wrapped
around, has seen no `fetch_add`, and words are stored only between two of them. -/

namespace Psync.SeqLock

open Concurrency MachineWord

set_option linter.unusedSectionVars false

variable {Tid ι V : Type*} [Fintype Tid] [DecidableEq Tid] [DecidableEq ι]

/-- The number and the words of an attempt. -/
def Pc.attempt : Pc ι V → Option (U32 × List (ι × V))
  | .reading _ seq log | .readRetry _ seq log | .retried seq log _ => some (seq, log)
  | _ => none

def InProgress (s : Config Tid (Mem ι V) (Pc ι V) Empty) : Prop :=
  ∃ t, (s.thread t).midWrite = true

/-- What an attempt of thread `t` knows: as long as no write has begun since, its words are those in
memory. -/
structure Fresh (s : Config Tid (Mem ι V) (Pc ι V) Empty) (h : History Tid) (t : Tid) (seq : U32)
    (log : List (ι × V)) : Prop where
  seq_eq : seq = BitVec.ofNat 32 (2 * h.began t)
  began_le : h.began t ≤ h.completed
  words : ¬ InProgress s → h.began t = h.completed → ∀ i v, (i, v) ∈ log → s.mem.words i = v

structure Inv (s : Config Tid (Mem ι V) (Pc ι V) Empty) (h : History Tid) : Prop where
  exclusive : ∀ t u, (s.thread t).writer = true → (s.thread u).writer = true → t = u
  even : ¬ InProgress s → s.mem.sequence = BitVec.ofNat 32 (2 * h.completed)
  odd : InProgress s → s.mem.sequence = BitVec.ofNat 32 (2 * h.completed + 1)
  fresh : ∀ t seq log, (s.thread t).attempt = some (seq, log) → Fresh s h t seq log

variable {s : Config Tid (Mem ι V) (Pc ι V) Empty} {h h' : History Tid} {t : Tid} {m : Mem ι V}
  {pc : Pc ι V}

theorem not_midWrite (hwriter : pc.writer = false) : pc.midWrite = false := by
  cases pc <;> first | rfl | cases hwriter

theorem inProgress_move_same (hmid : pc.midWrite = (s.thread t).midWrite) :
    InProgress (s.move t m pc) ↔ InProgress s := by
  refine exists_congr fun u => ?_
  rw [Config.move_thread, apply_update_same (g := Pc.midWrite) hmid]

theorem inProgress_move (hmid : pc.midWrite = true) : InProgress (s.move t m pc) :=
  ⟨t, by rw [Config.move_thread, Function.update_self, hmid]⟩

theorem Inv.alone (hinv : Inv s h) (hwriter : (s.thread t).writer = true) {u : Tid} (hne : u ≠ t) :
    (s.thread u).writer = false := by
  cases hu : (s.thread u).writer with
  | false => rfl
  | true => exact absurd (hinv.exclusive u t hu hwriter) hne

/-- Only the writer that moves can be in the middle of a write. -/
theorem Inv.not_inProgress (hinv : Inv s h) (hwriter : (s.thread t).writer = true)
    (hmid : pc.midWrite = false) : ¬ InProgress (s.move t m pc) := by
  rintro ⟨u, hu⟩
  rw [Config.move_thread, Function.update_apply] at hu
  split_ifs at hu with hut
  · rw [hmid] at hu
    cases hu
  · rw [not_midWrite (hinv.alone hwriter hut)] at hu
    cases hu

theorem Inv.exclusive_move (hinv : Inv s h)
    (halone : pc.writer = true → ∀ u, u ≠ t → (s.thread u).writer = false) (u v : Tid)
    (hu : ((s.move t m pc).thread u).writer = true) (hv : ((s.move t m pc).thread v).writer = true) :
    u = v := by
  rw [Config.move_thread, Function.update_apply] at hu hv
  split_ifs at hu hv with hut hvt hvt
  · rw [hut, hvt]
  · rw [halone hu v hvt] at hv
    cases hv
  · rw [halone hv u hut] at hu
    cases hu
  · exact hinv.exclusive u v hu hv

/-- A step that writes nothing and begins or ends no write. -/
theorem Inv.quiet (hinv : Inv s h) (hmid : pc.midWrite = (s.thread t).midWrite)
    (halone : pc.writer = true → ∀ u, u ≠ t → (s.thread u).writer = false)
    (hcompleted : h'.completed = h.completed) (hbegan : ∀ u, u ≠ t → h'.began u = h.began u)
    (hfresh : ∀ seq log, pc.attempt = some (seq, log) → Fresh s h' t seq log) :
    Inv (s.move t s.mem pc) h' := by
  have hprogress : InProgress (s.move t s.mem pc) ↔ InProgress s := inProgress_move_same hmid
  refine ⟨hinv.exclusive_move halone, ?_, ?_, fun u seq log hu => ?_⟩
  · rw [hprogress, hcompleted]
    exact hinv.even
  · rw [hprogress, hcompleted]
    exact hinv.odd
  · rw [Config.move_thread, Function.update_apply] at hu
    split_ifs at hu with hut
    · subst hut
      obtain ⟨hseq, hle, hwords⟩ := hfresh seq log hu
      refine ⟨hseq, hle, ?_⟩
      rwa [hprogress]
    · obtain ⟨hseq, hle, hwords⟩ := hinv.fresh u seq log hu
      refine ⟨by rwa [hbegan u hut], by rwa [hbegan u hut, hcompleted], ?_⟩
      rwa [hprogress, hbegan u hut, hcompleted]

/-- A step of the writer on the sequence or on a word. No attempt of another thread can find its
number again afterwards. -/
theorem Inv.write (hinv : Inv s h) (hwriter : (s.thread t).writer = true)
    (hpc : pc.attempt = none) (hbegan : h'.began = h.began)
    (hcompleted : h.completed ≤ h'.completed)
    (hchange : InProgress (s.move t m pc) ∨ h.completed < h'.completed)
    (heven : ¬ InProgress (s.move t m pc) → m.sequence = BitVec.ofNat 32 (2 * h'.completed))
    (hodd : InProgress (s.move t m pc) → m.sequence = BitVec.ofNat 32 (2 * h'.completed + 1)) :
    Inv (s.move t m pc) h' := by
  refine ⟨hinv.exclusive_move fun _ u hne => hinv.alone hwriter hne, heven, hodd,
    fun u seq log hu => ?_⟩
  rw [Config.move_thread, Function.update_apply] at hu
  split_ifs at hu with hut
  · rw [hpc] at hu
    cases hu
  · obtain ⟨hseq, hle, -⟩ := hinv.fresh u seq log hu
    refine ⟨by rwa [hbegan], by rw [hbegan]; omega, fun hnot hlast => ?_⟩
    rw [hbegan] at hlast
    rcases hchange with hprogress | hlt
    · exact absurd hprogress hnot
    · omega

/-! ### The steps -/

theorem even_ofNat_and_one {n : ℕ} : BitVec.ofNat 32 (2 * n + 1) &&& 1 ≠ 0 := by
  intro hzero
  have hbit := congrArg BitVec.toNat hzero
  rw [show (1 : U32) = BitVec.ofNat 32 (2 ^ 1 - 1) from rfl, toNat_and_low _ (by decide),
    BitVec.toNat_ofNat] at hbit
  simp only [BitVec.ofNat_eq_ofNat, BitVec.toNat_ofNat] at hbit
  omega

theorem Inv.run (hinv : Inv s h) (hrun : run s.mem (s.thread t) = some (m, pc)) :
    Inv (s.move t m pc) (record h s (.step t .run) (s.move t m pc)) := by
  cases hpc : s.thread t with
  | idle | writing | reading reader seq log =>
      rw [hpc] at hrun
      cases hrun
  | writeBegin =>
      rw [hpc] at hrun
      obtain ⟨rfl, rfl⟩ := Prod.mk.inj (Option.some.inj hrun)
      have hwriter : (s.thread t).writer = true := by rw [hpc]; rfl
      have hnone : ¬ InProgress s := by
        have hmoved : ¬ InProgress (s.move t s.mem (s.thread t)) :=
          hinv.not_inProgress hwriter (by rw [hpc]; rfl)
        rwa [inProgress_move_same rfl] at hmoved
      simp only [record, hpc]
      refine hinv.write hwriter rfl rfl le_rfl (Or.inl (inProgress_move rfl)) ?_ fun _ => ?_
      · exact fun hnot => absurd (inProgress_move rfl) hnot
      · rw [hinv.even hnone]
        exact (ofNat_succ _).symm
  | writeEnd =>
      rw [hpc] at hrun
      obtain ⟨rfl, rfl⟩ := Prod.mk.inj (Option.some.inj hrun)
      have hwriter : (s.thread t).writer = true := by rw [hpc]; rfl
      have hprogress : InProgress s := ⟨t, by rw [hpc]; rfl⟩
      simp only [record, hpc]
      refine hinv.write hwriter rfl rfl (Nat.le_succ _) (Or.inr (Nat.lt_succ_self _)) (fun _ => ?_) ?_
      · rw [hinv.odd hprogress]
        exact (ofNat_succ _).symm
      · exact fun hp => absurd hp (hinv.not_inProgress hwriter rfl)
  | readBegin reader =>
      rw [hpc] at hrun
      obtain ⟨rfl, rfl⟩ := Prod.mk.inj (Option.some.inj hrun)
      by_cases heven : s.mem.sequence &&& 1 = 0
      · have hnone : ¬ InProgress s := by
          intro hp
          rw [hinv.odd hp] at heven
          exact even_ofNat_and_one heven
        simp only [record, hpc, if_pos heven, Config.move_thread, Function.update_self]
        refine hinv.quiet (by rw [hpc]; rfl) nofun rfl
          (fun u hne => Function.update_of_ne hne ..) fun seq log hatt => ?_
        cases hatt
        refine ⟨?_, ?_, fun _ _ i v hmem => absurd hmem List.not_mem_nil⟩
        · simp only [Function.update_self]
          exact hinv.even hnone
        · simp only [Function.update_self]
          exact le_rfl
      · simp only [record, hpc, if_neg heven, Config.move_thread, Function.update_self]
        exact hinv.quiet (by rw [hpc]) nofun rfl (fun _ _ => rfl) nofun
  | readRetry reader seq log =>
      rw [hpc] at hrun
      obtain ⟨rfl, rfl⟩ := Prod.mk.inj (Option.some.inj hrun)
      simp only [record, hpc]
      have hkeep : Fresh s h t seq log := hinv.fresh t seq log (by rw [hpc]; rfl)
      cases reader with
      | guard =>
          refine hinv.quiet (by rw [hpc]; rfl) nofun rfl (fun _ _ => rfl) fun seq' log' hatt => ?_
          cases hatt
          exact hkeep
      | transaction =>
          cases s.mem.sequence != seq <;>
            exact hinv.quiet (by rw [hpc]; rfl) nofun rfl (fun _ _ => rfl) nofun
  | returned log =>
      rw [hpc] at hrun
      cases hrun
      simp only [record, hpc]
      exact hinv.quiet (by rw [hpc]; rfl) nofun rfl (fun _ _ => rfl) nofun
  | retried seq log result =>
      rw [hpc] at hrun
      cases hrun
      simp only [record, hpc]
      have hkeep : Fresh s h t seq log := hinv.fresh t seq log (by rw [hpc]; rfl)
      refine hinv.quiet (by rw [hpc]; rfl) nofun rfl (fun _ _ => rfl) fun seq' log' hatt => ?_
      cases hatt
      exact hkeep

/-- The steps between the calls, and the loads and stores of the clients. -/
theorem Inv.step {l : Label ι V} (hinv : Inv s h) (hstep : step l s.mem (s.thread t) = some (m, pc))
    (hok : serialized s (.step t l) (s.move t m pc)) :
    Inv (s.move t m pc) (record h s (.step t l) (s.move t m pc)) := by
  have hkeep : ∀ reader seq log, s.thread t = .reading reader seq log → Fresh s h t seq log :=
    fun reader seq log hpc => hinv.fresh t seq log (by rw [hpc]; rfl)
  cases l with
  | run => exact hinv.run hstep
  | writeBegin =>
      cases hpc : s.thread t with
      | idle =>
          rw [hpc] at hstep
          cases hstep
          exact hinv.quiet (by rw [hpc]; rfl) (fun _ u _ => hok u) rfl (fun _ _ => rfl) nofun
      | _ =>
          rw [hpc] at hstep
          cases hstep
  | store i v =>
      cases hpc : s.thread t with
      | writing =>
          rw [hpc] at hstep
          obtain ⟨rfl, rfl⟩ := Prod.mk.inj (Option.some.inj hstep)
          have hprogress : InProgress s := ⟨t, by rw [hpc]; rfl⟩
          exact hinv.write (by rw [hpc]; rfl) rfl rfl le_rfl (Or.inl (inProgress_move rfl))
            (fun hnot => absurd (inProgress_move rfl) hnot) fun _ => hinv.odd hprogress
      | _ =>
          rw [hpc] at hstep
          cases hstep
  | writeEnd =>
      cases hpc : s.thread t with
      | writing =>
          rw [hpc] at hstep
          cases hstep
          have hwriter : (s.thread t).writer = true := by rw [hpc]; rfl
          exact hinv.quiet (by rw [hpc]; rfl) (fun _ u hne => hinv.alone hwriter hne) rfl
            (fun _ _ => rfl) nofun
      | _ =>
          rw [hpc] at hstep
          cases hstep
  | readTransaction | readGuard =>
      cases hpc : s.thread t with
      | idle =>
          rw [hpc] at hstep
          cases hstep
          exact hinv.quiet (by rw [hpc]; rfl) nofun rfl (fun _ _ => rfl) nofun
      | _ =>
          rw [hpc] at hstep
          cases hstep
  | load i =>
      cases hpc : s.thread t with
      | reading reader seq log =>
          rw [hpc] at hstep
          cases hstep
          refine hinv.quiet (by rw [hpc]; rfl) nofun rfl (fun _ _ => rfl) fun seq' log' hatt => ?_
          cases hatt
          obtain ⟨hseq, hle, hwords⟩ := hkeep reader seq log hpc
          refine ⟨hseq, hle, fun hnot hlast j v hmem => ?_⟩
          rcases List.mem_append.mp hmem with hmem | hmem
          · exact hwords hnot hlast j v hmem
          · cases List.mem_singleton.mp hmem
            rfl
      | _ =>
          rw [hpc] at hstep
          cases hstep
  | readRetry =>
      cases hpc : s.thread t with
      | reading reader seq log =>
          rw [hpc] at hstep
          cases hstep
          refine hinv.quiet (by rw [hpc]; rfl) nofun rfl (fun _ _ => rfl) fun seq' log' hatt => ?_
          cases hatt
          exact hkeep reader seq log hpc
      | _ =>
          rw [hpc] at hstep
          cases hstep
  | restart | leave =>
      cases hpc : s.thread t with
      | reading reader seq log =>
          rw [hpc] at hstep
          cases reader <;> cases hstep
          exact hinv.quiet (by rw [hpc]; rfl) nofun rfl (fun _ _ => rfl) nofun
      | _ =>
          rw [hpc] at hstep
          cases hstep

variable {data : ι → V}

theorem Inv.init : Inv (program Tid data).machine.init (⟨0, fun _ => 0⟩ : History Tid) where
  exclusive _ _ h := nomatch h
  even _ := rfl
  odd := fun ⟨_, h⟩ => nomatch h
  fresh _ _ _ h := nomatch h

theorem inv_of_reachable {w : Config Tid (Mem ι V) (Pc ι V) Empty × History Tid}
    (h : (machine data).Reachable (fun s a s' => serialized s.1 a s'.1) w) : Inv w.1 w.2 := by
  refine h.induct (I := fun w => Inv w.1 w.2) Inv.init ?_
  intro w a w' _ ih hnext hok
  obtain ⟨t, l, m, pc, rfl, hstep, rfl⟩ := Program.observed_step_of_next _ (fun _ => rfl)
    (fun _ => rfl) (fun _ => rfl) hnext
  exact ih.step hstep hok

/-- An attempt that finds its number again knows that no write is in progress. -/
theorem Inv.snapshot (hinv : Inv s h) {log : List (ι × V)}
    (hatt : (s.thread t).attempt = some (s.mem.sequence, log)) (hfew : h.completed - h.began t < 2 ^ 31) :
    ¬ InProgress s ∧ ∀ i v, (i, v) ∈ log → s.mem.words i = v := by
  obtain ⟨hseq, hle, hwords⟩ := hinv.fresh t _ log hatt
  have hbegan : ∀ n, s.mem.sequence = BitVec.ofNat 32 n → 2 * h.began t ≤ n → n ≤ 2 * h.completed + 1 →
      n = 2 * h.began t := by
    intro n hn hle' hlt
    exact ofNat_inj (r := 2 * h.began t) hle' (by omega) le_rfl (by omega) (hn.symm.trans hseq)
  have hnot : ¬ InProgress s := by
    intro hprogress
    have := hbegan _ (hinv.odd hprogress) (by omega) le_rfl
    omega
  have hlast := hbegan _ (hinv.even hnot) (by omega) (by omega)
  exact ⟨hnot, hwords hnot (by omega)⟩

/-- An attempt that is accepted before `2 ^ 31` writes have completed within it is a snapshot: when
`read_transaction` returns or `retry` answers `false`, the words it has loaded are those in memory at
that load, and no write is in progress then. -/
theorem seqlock_consistent {w w' : Config Tid (Mem ι V) (Pc ι V) Empty × History Tid}
    (h : (machine data).Reachable (fun s a s' => serialized s.1 a s'.1) w) {t : Tid} {l : Label ι V}
    (hnext : (machine data).next w (.step t l) = some w') {log : List (ι × V)}
    (haccept : (w'.1.thread t).accepted = some log) (hfew : w.2.completed - w.2.began t < 2 ^ 31) :
    (∀ u, (w.1.thread u).midWrite = false) ∧ ∀ i v, (i, v) ∈ log → w.1.mem.words i = v := by
  have hinv := inv_of_reachable h
  obtain ⟨_, _, m, pc, ha, hstep, rfl⟩ := Program.observed_step_of_next _ (fun _ => rfl)
    (fun _ => rfl) (fun _ => rfl) hnext
  cases ha
  rw [Config.move_thread, Function.update_self] at haccept
  obtain ⟨reader, hpc⟩ := readRetry_of_accepted hstep haccept
  obtain ⟨hnot, hwords⟩ := hinv.snapshot (t := t) (by rw [hpc]; rfl) hfew
  refine ⟨fun u => ?_, hwords⟩
  cases hu : (w.1.thread u).midWrite with
  | false => rfl
  | true => exact absurd ⟨u, hu⟩ hnot

/-- Thread `b` begins to read, thread `a` writes both words, and the attempt of `b` is repeated. -/
def retriedRun : List (Act Runner (Label Bool ℕ)) :=
  [.step .b .readTransaction, .step .b .run, .step .b (.load true),
    .step .a .writeBegin, .step .a .run, .step .a (.store true 1), .step .b (.load false),
    .step .a (.store false 1), .step .a .writeEnd, .step .a .run,
    .step .b .readRetry, .step .b .run, .step .b .run, .step .b (.load false), .step .b (.load true),
    .step .b .readRetry]

theorem seqlock_consistent_retried :
    ∃ w w' : Config Runner (Mem Bool ℕ) (Pc Bool ℕ) Empty × History Runner,
      w'.1.thread .b = .returned [(false, 1), (true, 1)] ∧ w.2.completed = 1 ∧ w.1.mem.words true = 1 :=
  let M : Machine (Config Runner (Mem Bool ℕ) (Pc Bool ℕ) Empty × History Runner)
    (Act Runner (Label Bool ℕ)) := machine fun _ => 0
  let w := (M.run (fun s a s' => serialized s.1 a s'.1) M.init retriedRun).get (by decide)
  let w' := (M.next w (.step .b .run)).get (by decide)
  have hnext : M.next w (.step .b .run) = some w' := (Option.some_get _).symm
  have haccept : (w'.1.thread .b).accepted = some [(false, 1), (true, 1)] := by decide
  ⟨w, w', by decide, by decide,
    (seqlock_consistent (.of_run _ _) hnext haccept (by decide)).2 true 1 (by decide)⟩

end Psync.SeqLock
