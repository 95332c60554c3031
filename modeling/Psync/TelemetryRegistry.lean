import Psync.Platform
import Psync.RunGuard
import Mathlib.Data.Finset.Card
import Mathlib.Data.List.Nodup

/-! The registry of telemetry locks: `register_lock` looks for an entry without a collector and then writes
the name and the collector of the lock under construction. A lock is known by the address of its collector,
which can be used again once the lock is destroyed; the destructor leaves the registry alone. -/

namespace Psync.TelemetryRegistry

open Concurrency

def maxLocks : ℕ := 64

/-- `LockEntry`; `none` is a null pointer. -/
structure LockEntry (N C : Type*) where
  name : Option N
  collector : Option C
  deriving DecidableEq

/-- `entries_`, the locks that are constructed and not destroyed, and those under construction. -/
structure Mem (N C : Type*) where
  entries : ℕ → LockEntry N C
  live : Finset C
  building : Finset C

/-- The next atomic step of a thread that constructs the lock with the collector `c`. -/
inductive Pc (N C : Type*)
  /-- Outside every constructor and destructor. -/
  | idle
  /-- `register_lock`: the loop, with the load of the collector of entry `i`. -/
  | scan (name : N) (c : C) (i : ℕ)
  /-- `register_lock`: the store of the name. -/
  | writeName (name : N) (c : C) (i : ℕ)
  /-- `register_lock`: the store of the collector. -/
  | writeCollector (name : N) (c : C) (i : ℕ)
  deriving DecidableEq

inductive Label (N C : Type*)
  | construct (name : N) (c : C)
  | destroy (c : C)
  | run

variable {Tid N C : Type*}

namespace Mem

variable (m : Mem N C)

def setName (i : ℕ) (name : N) : Mem N C :=
  { m with entries := Function.update m.entries i { m.entries i with name := some name } }

def setCollector (i : ℕ) (c : C) : Mem N C :=
  { m with entries := Function.update m.entries i { m.entries i with collector := some c } }

/-- The collectors that `print_report` follows. -/
def reported : List C := (List.range maxLocks).filterMap fun i => (m.entries i).collector

@[simp] theorem setName_collector (i j : ℕ) (name : N) :
    ((m.setName i name).entries j).collector = (m.entries j).collector := by
  simp only [setName, Function.update_apply]
  split_ifs with hj
  · rw [hj]
  · rfl

theorem setCollector_collector (i j : ℕ) (c : C) : ((m.setCollector i c).entries j).collector =
    if j = i then some c else (m.entries j).collector := by
  simp only [setCollector, Function.update_apply]
  split_ifs <;> rfl

/-- The constructor of the lock with the collector `c` returns. -/
def finish [DecidableEq C] (c : C) : Mem N C := { m with live := insert c m.live, building := m.building.erase c }

end Mem

/-- One atomic step of a constructor. -/
def run [DecidableEq C] (m : Mem N C) : Pc N C → Option (Mem N C × Pc N C)
  | .idle => none
  | .scan name c i => some (
      if i < maxLocks then
        (m, if (m.entries i).collector.isNone then .writeName name c i else .scan name c (i + 1))
      else (m.finish c, .idle))
  | .writeName name c i => some (m.setName i name, .writeCollector name c i)
  | .writeCollector _ c i => some ((m.setCollector i c).finish c, .idle)

/-- At most `maxLocks` locks are constructed at a time, at addresses that are free. -/
def step [DecidableEq C] (l : Label N C) (m : Mem N C) (pc : Pc N C) : Option (Mem N C × Pc N C) :=
  match l, pc with
  | .construct name c, .idle =>
      if c ∉ m.live ∧ c ∉ m.building ∧ m.live.card + m.building.card < maxLocks then
        some ({ m with building := insert c m.building }, .scan name c 0) else none
  | .destroy c, .idle => if c ∈ m.live then some ({ m with live := m.live.erase c }, .idle) else none
  | .run, pc => run m pc
  | _, _ => none

def program (Tid N C : Type*) [DecidableEq C] : Program Tid (Mem N C) (Pc N C) Empty (Label N C) where
  mem := ⟨fun _ => ⟨none, none⟩, ∅, ∅⟩
  start := .idle
  step _ := step

abbrev State (Tid N C : Type*) := Config Tid (Mem N C) (Pc N C) Empty

/-- No lock is destroyed, and a collector is written into an entry that still has none. -/
def undisturbed : StepCond (State Tid N C) (Act Tid (Label N C)) := fun s a _ =>
  match a with
  | .step _ (.destroy _) => False
  | .step t .run => match s.thread t with
    | .writeCollector _ _ i => (s.mem.entries i).collector = none
    | _ => True
  | _ => True

/-! ### The entries -/

/-- The lock that a thread constructs. -/
def Pc.constructing : Pc N C → Option C
  | .idle => none
  | .scan _ c _ | .writeName _ c _ | .writeCollector _ c _ => some c

/-- What a thread knows of the entries. -/
def Place (m : Mem N C) : Pc N C → Prop
  | .idle => True
  | .scan _ _ i => ∀ j < i, ∃ c, (m.entries j).collector = some c
  | .writeName _ _ i | .writeCollector _ _ i => i < maxLocks

structure Inv (m : Mem N C) (f : Tid → Pc N C) : Prop where
  listed : ∀ c, c ∈ m.live ↔ ∃ i < maxLocks, (m.entries i).collector = some c
  once : ∀ c, ∀ i < maxLocks, ∀ j < maxLocks,
    (m.entries i).collector = some c → (m.entries j).collector = some c → i = j
  building : ∀ t c, (f t).constructing = some c → c ∈ m.building
  distinct : ∀ t u c, (f t).constructing = some c → (f u).constructing = some c → t = u
  disjoint : ∀ c ∈ m.building, c ∉ m.live
  card : m.live.card + m.building.card ≤ maxLocks
  place : ∀ t, Place m (f t)

variable {m m' : Mem N C} {f : Tid → Pc N C} {t : Tid} {name : N} {c : C} {i : ℕ} {pc pc' : Pc N C}

/-- Collectors are only added. -/
theorem Place.mono (h : Place m pc)
    (hkept : ∀ j c, (m.entries j).collector = some c → ∃ d, (m'.entries j).collector = some d) :
    Place m' pc := by
  cases pc with
  | idle => trivial
  | scan name c i =>
      intro j hj
      obtain ⟨d, hd⟩ := h j hj
      exact hkept j d hd
  | writeName name c i | writeCollector name c i => exact h

/-! ### Steps -/

/-- While a lock is under construction, there is an entry without a collector. -/
theorem Inv.exists_free [DecidableEq C] (h : Inv m f) (hc : (f t).constructing = some c) :
    ∃ i < maxLocks, (m.entries i).collector = none := by
  by_contra hfull
  have hsome : ∀ i ∈ Finset.range maxLocks, ∃ d, (m.entries i).collector = some d := by
    intro i hi
    refine Option.ne_none_iff_exists'.mp fun hnone => hfull ⟨i, Finset.mem_range.mp hi, hnone⟩
  have hinj : Set.InjOn (fun i => (m.entries i).collector) (Finset.range maxLocks) := by
    intro i hi j hj heq
    obtain ⟨d, hd⟩ := hsome i hi
    have hd' : (m.entries j).collector = some d := Eq.trans heq.symm hd
    exact h.once d i (Finset.mem_range.mp hi) j (Finset.mem_range.mp hj) hd hd'
  have hsub : (Finset.range maxLocks).image (fun i => (m.entries i).collector) ⊆
      m.live.image some := by
    intro x hx
    obtain ⟨i, hi, rfl⟩ := Finset.mem_image.mp hx
    obtain ⟨d, hd⟩ := hsome i hi
    rw [hd]
    exact Finset.mem_image_of_mem _ ((h.listed d).mpr ⟨i, Finset.mem_range.mp hi, hd⟩)
  have hle := Finset.card_le_card hsub
  rw [Finset.card_image_of_injOn hinj, Finset.card_range] at hle
  have himage := Finset.card_image_le (s := m.live) (f := (some : C → Option C))
  have hpos := Finset.card_pos.mpr ⟨c, h.building t c hc⟩
  have hcard := h.card
  omega

variable [DecidableEq Tid]

/-- A step of a constructor that leaves the collectors as they are. -/
theorem Inv.keep (h : Inv m f) (hentries : ∀ j, (m'.entries j).collector = (m.entries j).collector)
    (hlive : m'.live = m.live) (hbuilding : m'.building = m.building)
    (hconstructing : pc'.constructing = (f t).constructing) (hplace : Place m' pc') :
    Inv m' (Function.update f t pc') := by
  have hsame := apply_update_same hconstructing
  refine ⟨fun c => ?_, fun c i hi j hj => ?_, fun u c hu => ?_, fun u v c hu hv => ?_, ?_, ?_, fun u => ?_⟩
  · simp only [hlive, hentries]
    exact h.listed c
  · rw [hentries, hentries]
    exact h.once c i hi j hj
  · rw [hsame] at hu
    rw [hbuilding]
    exact h.building u c hu
  · rw [hsame] at hu hv
    exact h.distinct u v c hu hv
  · rw [hlive, hbuilding]
    exact h.disjoint
  · rw [hlive, hbuilding]
    exact h.card
  · by_cases heq : u = t
    · subst heq
      rwa [Function.update_self]
    · rw [Function.update_of_ne heq]
      exact (h.place u).mono fun j c hc => ⟨c, by rwa [hentries]⟩

variable [DecidableEq C]

theorem Inv.construct (h : Inv m f) (hidle : f t = .idle) (hlive : c ∉ m.live) (hbuilding : c ∉ m.building)
    (hroom : m.live.card + m.building.card < maxLocks) :
    Inv { m with building := insert c m.building } (Function.update f t (.scan name c 0)) := by
  have hother : ∀ u d, u ≠ t → (Function.update f t (.scan name c 0) u).constructing = some d →
      (f u).constructing = some d := by
    intro u d hu hd
    rwa [Function.update_of_ne hu] at hd
  have hself : ∀ d, (Function.update f t (.scan name c 0) t).constructing = some d → d = c := by
    intro d hd
    rw [Function.update_self] at hd
    exact (Option.some.inj hd).symm
  have hfresh : ∀ u, (f u).constructing ≠ some c := fun u hu => hbuilding (h.building u c hu)
  refine ⟨h.listed, h.once, fun u d hd => ?_, fun u v d hu hv => ?_, fun d hd => ?_, ?_, fun u => ?_⟩
  · by_cases heq : u = t
    · subst heq
      rw [hself d hd]
      exact Finset.mem_insert_self _ _
    · exact Finset.mem_insert_of_mem (h.building u d (hother u d heq hd))
  · by_cases hut : u = t <;> by_cases hvt : v = t
    · rw [hut, hvt]
    · subst hut
      rw [hself d hu] at hv
      exact absurd (hother v c hvt hv) (hfresh v)
    · subst hvt
      rw [hself d hv] at hu
      exact absurd (hother u c hut hu) (hfresh u)
    · exact h.distinct u v d (hother u d hut hu) (hother v d hvt hv)
  · rcases Finset.mem_insert.mp hd with rfl | hd
    · exact hlive
    · exact h.disjoint d hd
  · change m.live.card + (insert c m.building).card ≤ maxLocks
    rw [Finset.card_insert_of_notMem hbuilding]
    omega
  · by_cases heq : u = t
    · subst heq
      rw [Function.update_self]
      intro j hj
      exact absurd hj (Nat.not_lt_zero j)
    · rw [Function.update_of_ne heq]
      exact h.place u

theorem Inv.register (h : Inv m f) (hpc : f t = .writeCollector name c i)
    (hnull : (m.entries i).collector = none) :
    Inv ((m.setCollector i c).finish c) (Function.update f t .idle) := by
  have hi : i < maxLocks := by
    have hplace := h.place t
    rwa [hpc] at hplace
  have hc : (f t).constructing = some c := by rw [hpc]; rfl
  have hbuilding := h.building t c hc
  have hlive := h.disjoint c hbuilding
  have hentries : ∀ j, (((m.setCollector i c).finish c).entries j).collector =
      if j = i then some c else (m.entries j).collector := fun j => m.setCollector_collector i j c
  have hunlisted : ∀ j < maxLocks, (m.entries j).collector ≠ some c :=
    fun j hj hjc => hlive ((h.listed c).mpr ⟨j, hj, hjc⟩)
  have hother : ∀ u d, (Function.update f t .idle u).constructing = some d →
      u ≠ t ∧ (f u).constructing = some d := by
    intro u d hd
    by_cases heq : u = t
    · subst heq
      rw [Function.update_self] at hd
      cases hd
    · rw [Function.update_of_ne heq] at hd
      exact ⟨heq, hd⟩
  refine ⟨fun d => ?_, fun d j hj k hk hjd hkd => ?_, fun u d hd => ?_, fun u v d hu hv => ?_,
    fun d hd => ?_, ?_, fun u => ?_⟩
  · change d ∈ insert c m.live ↔ _
    rw [Finset.mem_insert, h.listed d]
    constructor
    · rintro (rfl | ⟨j, hj, hjd⟩)
      · exact ⟨i, hi, by rw [hentries, if_pos rfl]⟩
      · refine ⟨j, hj, ?_⟩
        rw [hentries, if_neg]
        · exact hjd
        · rintro rfl
          rw [hnull] at hjd
          cases hjd
    · rintro ⟨j, hj, hjd⟩
      rw [hentries] at hjd
      split_ifs at hjd with hji
      · exact Or.inl (Option.some.inj hjd).symm
      · exact Or.inr ⟨j, hj, hjd⟩
  · rw [hentries] at hjd hkd
    split_ifs at hjd hkd with hji hki hki
    · rw [hji, hki]
    · exact absurd (hkd.trans hjd.symm) (hunlisted k hk)
    · exact absurd (hjd.trans hkd.symm) (hunlisted j hj)
    · exact h.once d j hj k hk hjd hkd
  · obtain ⟨hne, hd⟩ := hother u d hd
    refine Finset.mem_erase.mpr ⟨?_, h.building u d hd⟩
    rintro rfl
    exact hne (h.distinct u t d hd hc)
  · exact h.distinct u v d (hother u d hu).2 (hother v d hv).2
  · obtain ⟨hne, hd⟩ := Finset.mem_erase.mp hd
    change d ∉ insert c m.live
    rw [Finset.mem_insert, not_or]
    exact ⟨hne, h.disjoint d hd⟩
  · have hcard := h.card
    have hpos := Finset.card_pos.mpr ⟨c, hbuilding⟩
    change (insert c m.live).card + (m.building.erase c).card ≤ maxLocks
    rw [Finset.card_insert_of_notMem hlive, Finset.card_erase_of_mem hbuilding]
    omega
  · by_cases heq : u = t
    · subst heq
      rw [Function.update_self]
      trivial
    · rw [Function.update_of_ne heq]
      refine (h.place u).mono fun j d hd => ?_
      rw [hentries]
      split_ifs
      · exact ⟨c, rfl⟩
      · exact ⟨d, hd⟩

theorem Inv.run (h : Inv m f)
    (hnull : ∀ name c i, f t = .writeCollector name c i → (m.entries i).collector = none)
    (hrun : run m (f t) = some (m', pc')) : Inv m' (Function.update f t pc') := by
  have hplace := h.place t
  generalize hpc : f t = pc at hrun hplace
  cases pc with
  | idle => cases hrun
  | scan name c i =>
      have hc : (f t).constructing = some c := by rw [hpc]; rfl
      rw [TelemetryRegistry.run, Option.some.injEq] at hrun
      split_ifs at hrun with hi hfree
      · cases hrun
        exact h.keep (fun _ => rfl) rfl rfl hc.symm hi
      · cases hrun
        refine h.keep (fun _ => rfl) rfl rfl hc.symm fun j hj => ?_
        rcases Nat.lt_succ_iff_lt_or_eq.mp hj with hlt | rfl
        · exact hplace j hlt
        · exact Option.ne_none_iff_exists'.mp fun hnone => hfree (by rw [hnone]; rfl)
      · -- a loop that ends without an entry has found every entry taken
        obtain ⟨j, hj, hfree⟩ := h.exists_free hc
        obtain ⟨d, hd⟩ := hplace j (by omega)
        rw [hfree] at hd
        cases hd
  | writeName name c i =>
      cases hrun
      exact h.keep (fun j => m.setName_collector i j name) rfl rfl (by rw [hpc]; rfl) hplace
  | writeCollector name c i =>
      cases hrun
      exact h.register hpc (hnull name c i hpc)

/-! ### Runs -/

variable [Fintype Tid] {s : State Tid N C}

theorem inv_of_reachable (hreach : (program Tid N C).machine.Reachable undisturbed s) :
    Inv s.mem s.thread := by
  refine hreach.induct (I := fun s => Inv s.mem s.thread) ?_ fun {s a s'} _ ih hnext hok => ?_
  · refine ⟨fun c => iff_of_false (Finset.notMem_empty c) ?_, nofun, nofun, nofun, nofun, Nat.zero_le _,
      fun _ => trivial⟩
    rintro ⟨i, -, hi⟩
    cases hi
  · obtain ⟨t, l, m, pc, rfl, hstep, rfl⟩ := Program.step_of_next _ (fun _ => rfl) (fun _ => rfl)
      (fun _ => rfl) hnext
    change Inv m (Function.update s.thread t pc)
    cases l with
    | construct name c =>
        change TelemetryRegistry.step (.construct name c) s.mem (s.thread t) = _ at hstep
        generalize hpc : s.thread t = pc at hstep
        cases pc with
        | idle =>
            rw [TelemetryRegistry.step, Option.ite_none_right_eq_some] at hstep
            obtain ⟨⟨hlive, hbuilding, hroom⟩, hstep⟩ := hstep
            cases hstep
            exact ih.construct hpc hlive hbuilding hroom
        | _ => cases hstep
    | destroy c => exact hok.elim
    | run =>
        refine ih.run (fun name c i hpc => ?_) hstep
        rw [undisturbed, hpc] at hok
        exact hok

/-- What `print_report` follows. -/
structure Listed (m : Mem N C) : Prop where
  nodup : m.reported.Nodup
  mem_iff : ∀ c, c ∈ m.reported ↔ c ∈ m.live

/-- The registry lists the live locks, each once. -/
theorem registry_lists_live (hreach : (program Tid N C).machine.Reachable undisturbed s) :
    Listed s.mem := by
  have hinv := inv_of_reachable hreach
  refine ⟨?_, fun c => ?_⟩
  · refine List.pairwise_filterMap.mpr (List.nodup_range.pairwise_of_forall_ne fun i hi j hj hne => ?_)
    rintro c hc d hd rfl
    exact hne (hinv.once c i (List.mem_range.mp hi) j (List.mem_range.mp hj) hc hd)
  · rw [hinv.listed c, Mem.reported, List.mem_filterMap]
    exact exists_congr fun i => and_congr_left fun _ => List.mem_range

/-! ### Examples -/

instance (s : State Tid N C) (a : Act Tid (Label N C)) (s' : State Tid N C) :
    Decidable (undisturbed s a s') :=
  match a with
  | .step _ (.destroy _) => .isFalse not_false
  | .step t .run => match h : s.thread t with
    | .writeCollector _ _ i =>
        decidable_of_iff ((s.mem.entries i).collector = none) (by rw [undisturbed, h])
    | .idle | .scan .. | .writeName .. => .isTrue (by rw [undisturbed, h]; trivial)
  | .step _ (.construct ..) | .sleep _ | .ret _ | .wake .. | .requeue .. => .isTrue trivial

/-- Thread `a` constructs the lock at address 1. -/
def constructRun : List (Act Runner (Label ℕ ℕ)) :=
  .step .a (.construct 10 1) :: List.replicate 3 (.step .a .run)

theorem registry_lists_two : ∃ s : State Runner ℕ ℕ, s.mem.reported = [1, 2] ∧ Listed s.mem := by
  let M := (program Runner ℕ ℕ).machine
  let labels := constructRun ++ .step .b (.construct 20 2) :: List.replicate 4 (.step .b .run)
  exact ⟨(M.run undisturbed M.init labels).get (by decide +kernel), by decide +kernel,
    registry_lists_live (Machine.Reachable.of_run (M := M) labels _)⟩

/-- Threads `a` and `b` find the same entry. -/
def racingRun : List (Act Runner (Label ℕ ℕ)) :=
  [.step .a (.construct 10 1), .step .b (.construct 20 2), .step .a .run, .step .b .run, .step .a .run,
    .step .a .run, .step .b .run, .step .b .run]

/-- The registry still lists a lock that has been destroyed, and one of two locks constructed at the same
time is lost. -/
theorem registry_lists_dead : ∃ s s' : State Runner ℕ ℕ,
    (program Runner ℕ ℕ).machine.Reachable anyStep s ∧ (∀ t, s.thread t = .idle) ∧
    s.mem.live = ∅ ∧ s.mem.reported = [1] ∧ ¬ Listed s.mem ∧
    (program Runner ℕ ℕ).machine.Reachable anyStep s' ∧ (∀ t, s'.thread t = .idle) ∧
    s'.mem.live = {1, 2} ∧ s'.mem.reported = [2] ∧ ¬ Listed s'.mem := by
  let M := (program Runner ℕ ℕ).machine
  let labels := constructRun ++ [.step .a (.destroy 1)]
  have hdead : ∀ m : Mem ℕ ℕ, m.live = ∅ → m.reported = [1] → ¬ Listed m := by
    intro m hlive hreported h
    have hmem := h.mem_iff 1
    rw [hlive, hreported] at hmem
    exact absurd (hmem.mp (List.mem_singleton_self 1)) (Finset.notMem_empty 1)
  have hlost : ∀ m : Mem ℕ ℕ, m.live = {1, 2} → m.reported = [2] → ¬ Listed m := by
    intro m hlive hreported h
    have hmem := h.mem_iff 1
    rw [hlive, hreported] at hmem
    exact absurd (hmem.mpr (by decide)) (by decide)
  exact ⟨(M.run anyStep M.init labels).get (by decide +kernel),
    (M.run anyStep M.init racingRun).get (by decide +kernel),
    Machine.Reachable.of_run (M := M) labels _, by decide +kernel, by decide +kernel, by decide +kernel,
    hdead _ (by decide +kernel) (by decide +kernel),
    Machine.Reachable.of_run (M := M) racingRun _, by decide +kernel, by decide +kernel, by decide +kernel,
    hlost _ (by decide +kernel) (by decide +kernel)⟩

end Psync.TelemetryRegistry
