import Psync.IntrusiveModel
import Psync.RunGuard

/-! The chain loses nothing and hands nodes back safely. It may be broken at any place by a producer
that has exchanged `head_` and not yet linked its entry, but the consumer passes a link only when it
has been made, and so no store to an entry is pending when the entry leaves the chain. -/

namespace Psync.MPSCIntrusiveQueue

open Concurrency

set_option linter.unusedSectionVars false

variable {Node Tid : Type*} [DecidableEq Node] [DecidableEq Tid] [Fintype Tid]

/-! ### The invariant -/

/-- The entry that the thread pushes. -/
def Pc.cell : Pc Node → Option (Cell Node)
  | .pushInit entry _ | .pushExchange entry _ | .pushLink _ entry _ => some entry
  | _ => none

/-- The thread is in `pop`. -/
def Pc.popping : Pc Node → Bool
  | .idle => false
  | .pushInit _ caller | .pushExchange _ caller | .pushLink _ _ caller => caller.isSome
  | _ => true

/-- Producers push their entries, and `pop` pushes the stub while it stands at an entry. -/
def Caller (m : Mem Node) (entry : Cell Node) : Option (Cell Node) → Prop
  | none => entry ≠ .stub
  | some tail => entry = .stub ∧ m.tail = tail ∧ tail ≠ .stub

/-- What a thread knows. -/
def Local (m : Mem Node) (chain : List (Cell Node)) (h : History Node) : Pc Node → Prop
  | .pushInit entry caller => entry ∉ chain ∧ Caller m entry caller
  | .pushExchange entry caller => entry ∉ chain ∧ m.next entry = none ∧ Caller m entry caller
  | .pushLink prev entry caller =>
      m.next prev = none ∧ Consecutive chain prev entry ∧ Caller m entry caller
  | .popSecond tail => m.tail = tail ∧ tail ≠ .stub
  | .popHead tail => m.tail = tail ∧ tail ≠ .stub ∧ (h.excused = true ∨ chain = [tail])
  | .popLast tail => m.tail = tail ∧ tail ≠ .stub ∧ .stub ∈ chain
  | .popped none => h.excused = true
  | _ => True

structure Inv (consumer : Tid) (chain : List (Cell Node)) (s : State Node Tid) (h : History Node) :
    Prop where
  shape : Chain s chain
  pops : ∀ t, (s.thread t).popping = true → t = consumer
  known : ∀ t, Local s.mem chain h (s.thread t)
  /-- Only one thread pushes an entry. -/
  unique : ∀ t u e, (s.thread t).cell = some e → (s.thread u).cell = some e → t = u
  outside : ∀ node, h.inside node = false →
    .entry node ∉ chain ∧ ∀ t, (s.thread t).cell ≠ some (.entry node)
  order : h.exchanged = h.popped ++ chain.filterMap Cell.node

variable {consumer t : Tid} {chain chain' : List (Cell Node)} {s s' : State Node Tid}
  {h h' : History Node} {m : Mem Node} {pc : Pc Node} {a b e : Cell Node}

/-! ### History -/

theorem note_excused : (h.note s).excused = true ↔ h.excused = true ∨
    h.exchanged.length = h.popped.length ∨ ∃ t, (s.thread t).linking = true := by
  simp only [History.note, Bool.or_eq_true, decide_eq_true_eq, or_assoc]

/-- The queue holds no entry, if the chain has only the stub. -/
theorem Inv.excused_of_stub (horder : h.exchanged = h.popped ++ chain.filterMap Cell.node)
    (hchain : chain = [.stub]) : (h.note s).excused = true := by
  refine note_excused.mpr (Or.inr (Or.inl ?_))
  rw [horder, hchain]
  simp [Cell.node]

theorem linking_of_pushLink {caller : Option (Cell Node)} (hpc : pc = .pushLink a b caller)
    (hpop : pc.popping = false) : pc.linking = true := by
  subst hpc
  cases caller with
  | none => rfl
  | some tail => cases hpop

/-- Where the chain is broken, the last push to link is a producer's, unless the consumer pushes. -/
theorem Inv.excused_of_gap (hinv : Inv consumer chain s h) (hgap : Consecutive chain a b)
    (hnone : s.mem.next a = none) (hidle : (s.thread consumer).cell = none) :
    ∃ u, u ≠ consumer ∧ (s.thread u).linking = true := by
  rcases hinv.shape.linked a b hgap with hnext | ⟨-, u, caller, hpc⟩
  · rw [hnone] at hnext
    cases hnext
  · have hne : u ≠ consumer := by
      rintro rfl
      rw [hpc] at hidle
      cases hidle
    refine ⟨u, hne, linking_of_pushLink hpc ?_⟩
    cases hpop : (s.thread u).popping with
    | false => rfl
    | true => exact absurd (hinv.pops u hpop) hne

/-! ### Steps that leave the chain -/

theorem Local.mono (hloc : Local m chain h pc) (hexc : h.excused = true → h'.excused = true) :
    Local m chain h' pc := by
  cases pc with
  | popHead tail =>
      obtain ⟨htail, hne, hor⟩ := hloc
      exact ⟨htail, hne, hor.imp_left hexc⟩
  | popped result =>
      cases result with
      | none => exact hexc hloc
      | some c => trivial
  | _ => exact hloc

/-- Only `pop` pushes the stub. -/
theorem Local.popping (hloc : Local m chain h pc) (hcell : pc.cell = some .stub) :
    pc.popping = true := by
  have hcaller : ∀ {caller : Option (Cell Node)}, Caller m .stub caller → caller.isSome := by
    intro caller hcaller
    cases caller with
    | none => exact absurd rfl hcaller
    | some tail => rfl
  cases pc with
  | pushInit entry caller =>
      cases hcell
      exact hcaller hloc.2
  | pushExchange entry caller =>
      cases hcell
      exact hcaller hloc.2.2
  | pushLink prev entry caller =>
      cases hcell
      exact hcaller hloc.2.2
  | _ => cases hcell

/-- The pops of a moving thread. -/
theorem pops_move (hpops : ∀ t, (s.thread t).popping = true → t = consumer)
    (hpc : pc.popping = true → t = consumer) (u : Tid)
    (hu : ((s.move t m pc).thread u).popping = true) : u = consumer := by
  rw [Config.move_thread, Function.update_apply] at hu
  split_ifs at hu with hut
  · exact hut.trans (hpc hu)
  · exact hpops u hu

theorem unique_move (hunique : ∀ t u e, (s.thread t).cell = some e → (s.thread u).cell = some e → t = u)
    (hpc : ∀ e, pc.cell = some e → ∀ u, u ≠ t → (s.thread u).cell ≠ some e) (u v : Tid) (e : Cell Node)
    (hu : ((s.move t m pc).thread u).cell = some e)
    (hv : ((s.move t m pc).thread v).cell = some e) : u = v := by
  rw [Config.move_thread, Function.update_apply] at hu hv
  split_ifs at hu hv with hut hvt hvt
  · exact hut.trans hvt.symm
  · exact absurd hv (hpc e hu v hvt)
  · exact absurd hu (hpc e hv u hut)
  · exact hunique u v e hu hv

/-- An entry that its thread goes on pushing. -/
theorem Inv.cell_of_same (hinv : Inv consumer chain s h) (hcell : pc.cell = (s.thread t).cell)
    (e : Cell Node) (he : pc.cell = some e) (u : Tid) (hne : u ≠ t) : (s.thread u).cell ≠ some e :=
  fun hu => hne (hinv.unique u t e hu (hcell ▸ he))

theorem Inv.known_move (hpc : Local m chain' h' pc)
    (hothers : ∀ u, u ≠ t → Local m chain' h' (s.thread u)) (u : Tid) :
    Local m chain' h' ((s.move t m pc).thread u) := by
  rw [Config.move_thread, Function.update_apply]
  split_ifs with hut
  · exact hpc
  · exact hothers u hut

theorem outside_move (houtside : ∀ node, h'.inside node = false →
      .entry node ∉ chain' ∧ ∀ u, u ≠ t → (s.thread u).cell ≠ some (.entry node))
    (hpc : ∀ node, pc.cell = some (.entry node) → h'.inside node = true) (node : Node)
    (hnode : h'.inside node = false) :
    .entry node ∉ chain' ∧ ∀ u, ((s.move t m pc).thread u).cell ≠ some (.entry node) := by
  obtain ⟨hmem, hcell⟩ := houtside node hnode
  refine ⟨hmem, fun u hu => ?_⟩
  rw [Config.move_thread, Function.update_apply] at hu
  split_ifs at hu with hut
  · rw [hpc node hu] at hnode
    cases hnode
  · exact hcell u hut hu

/-- A step of a thread that has nothing to link, and writes nothing. -/
theorem Inv.quiet (hinv : Inv consumer chain s h) (hpop : pc.popping = true → t = consumer)
    (hcell : ∀ e, pc.cell = some e → ∀ u, u ≠ t → (s.thread u).cell ≠ some e)
    (hlink : ∀ a b caller, s.thread t ≠ .pushLink a b caller)
    (hexchanged : h'.exchanged = h.exchanged) (hpopped : h'.popped = h.popped)
    (hinside : ∀ node, h'.inside node = false → h.inside node = false)
    (hpushed : ∀ node, pc.cell = some (.entry node) → h'.inside node = true)
    (hknown : Local s.mem chain h' pc)
    (hothers : ∀ u, u ≠ t → Local s.mem chain h' (s.thread u)) :
    Inv consumer chain (s.move t s.mem pc) h' where
  shape := by
    refine ⟨hinv.shape.first, hinv.shape.last, hinv.shape.nodup, fun a b hab => ?_, hinv.shape.ends⟩
    refine (hinv.shape.linked a b hab).imp_right fun ⟨hnone, u, caller, hu⟩ => ⟨hnone, u, caller, ?_⟩
    have hut : u ≠ t := by
      rintro rfl
      exact hlink a b caller hu
    rwa [Config.move_thread, Function.update_of_ne hut]
  pops := pops_move hinv.pops hpop
  known := Inv.known_move hknown hothers
  unique := unique_move hinv.unique hcell
  outside := outside_move (fun node hnode => (hinv.outside node (hinside node hnode)).imp_right
    fun hcell u _ => hcell u) hpushed
  order := by rw [hexchanged, hpopped, hinv.order]

/-! ### The steps of a push -/

@[simp] theorem setNext_self (e : Cell Node) (next : Option (Cell Node)) :
    (m.setNext e next).next e = next := Function.update_self ..

theorem setNext_of_ne (next : Option (Cell Node)) (hne : a ≠ e) :
    (m.setNext e next).next a = m.next a := Function.update_of_ne hne ..

theorem setNext_none (e : Cell Node) (ha : m.next a = none) : (m.setNext e none).next a = none := by
  by_cases hae : a = e
  · rw [hae, setNext_self]
  · rw [setNext_of_ne _ hae, ha]

theorem Caller.setNext {next : Option (Cell Node)} {caller : Option (Cell Node)}
    (hcaller : Caller m b caller) : Caller (m.setNext e next) b caller := by
  cases caller <;> exact hcaller

theorem Local.clear (hloc : Local m chain h pc) : Local (m.setNext e none) chain h pc := by
  cases pc with
  | pushInit entry caller => exact ⟨hloc.1, hloc.2.setNext⟩
  | pushExchange entry caller => exact ⟨hloc.1, setNext_none e hloc.2.1, hloc.2.2.setNext⟩
  | pushLink prev entry caller => exact ⟨setNext_none e hloc.1, hloc.2.1, hloc.2.2.setNext⟩
  | popped result => cases result <;> exact hloc
  | _ => exact hloc

theorem Inv.clear {caller : Option (Cell Node)} (hinv : Inv consumer chain s h)
    (hpc : s.thread t = .pushInit e caller) (hexchanged : h'.exchanged = h.exchanged)
    (hpopped : h'.popped = h.popped) (hinside : h'.inside = h.inside)
    (hexc : h.excused = true → h'.excused = true) :
    Inv consumer chain (s.move t (s.mem.setNext e none) (.pushExchange e caller)) h' := by
  have hknown := hinv.known t
  rw [hpc] at hknown
  obtain ⟨hout, hcaller⟩ := hknown
  have hnext : ∀ a, a ∈ chain → (s.mem.setNext e none).next a = s.mem.next a := by
    rintro a ha
    refine setNext_of_ne _ ?_
    rintro rfl
    exact hout ha
  have hcell : (Pc.pushExchange e caller).cell = (s.thread t).cell := by rw [hpc]; rfl
  refine ⟨⟨hinv.shape.first, hinv.shape.last, hinv.shape.nodup, fun a b hab => ?_, ?_⟩,
    pops_move hinv.pops ?_, Inv.known_move ⟨hout, setNext_self e none, hcaller.setNext⟩ ?_,
    unique_move hinv.unique (hinv.cell_of_same hcell), ?_, ?_⟩
  · rw [Config.move_mem, hnext a hab.mem_left]
    refine (hinv.shape.linked a b hab).imp_right fun ⟨hnone, u, c, hu⟩ => ⟨hnone, u, c, ?_⟩
    have hut : u ≠ t := by
      rintro rfl
      rw [hpc] at hu
      cases hu
    rwa [Config.move_thread, Function.update_of_ne hut]
  · exact (hnext _ (List.mem_of_getLast? hinv.shape.last)).trans hinv.shape.ends
  · exact fun hpop => hinv.pops t (by rw [hpc]; exact hpop)
  · exact fun u _ => ((hinv.known u).mono hexc).clear
  · refine outside_move (fun node hnode => (hinv.outside node (hinside ▸ hnode)).imp_right
      fun hcell u _ => hcell u) fun node hnode => ?_
    cases hin : h'.inside node with
    | true => rfl
    | false => exact absurd (hcell ▸ hnode) ((hinv.outside node (hinside ▸ hin)).2 t)
  · rw [hexchanged, hpopped, hinv.order]

/-- What the other threads know when an entry comes to the end of the chain. -/
theorem Local.exchange (hloc : Local m chain h pc) (hcell : pc.cell ≠ some e)
    (hexc : h.excused = true → h'.excused = true)
    (hhead : ∀ tail, pc = .popHead tail → h'.excused = true) :
    Local { m with head := e } (chain ++ [e]) h' pc := by
  have hout : ∀ {x : Cell Node}, pc.cell = some x → x ∉ chain → x ∉ chain ++ [e] := by
    intro x hx hmem hx'
    rcases List.mem_append.mp hx' with hx' | hx'
    · exact hmem hx'
    · rw [List.mem_singleton.mp hx'] at hx
      exact hcell hx
  have hkeep : ∀ {x : Cell Node} {caller : Option (Cell Node)}, Caller m x caller →
      Caller { m with head := e } x caller := by
    intro x caller hx
    cases caller <;> exact hx
  cases pc with
  | pushInit entry caller => exact ⟨hout rfl hloc.1, hkeep hloc.2⟩
  | pushExchange entry caller => exact ⟨hout rfl hloc.1, hloc.2.1, hkeep hloc.2.2⟩
  | pushLink prev entry caller => exact ⟨hloc.1, hloc.2.1.append _, hkeep hloc.2.2⟩
  | popHead tail => exact ⟨hloc.1, hloc.2.1, Or.inl (hhead tail rfl)⟩
  | popLast tail => exact ⟨hloc.1, hloc.2.1, List.mem_append_left _ hloc.2.2⟩
  | popped result =>
      cases result with
      | none => exact hexc hloc
      | some c => trivial
  | _ => exact hloc

theorem Inv.exchange {caller : Option (Cell Node)} (hinv : Inv consumer chain s h)
    (hpc : s.thread t = .pushExchange e caller)
    (hexchanged : h'.exchanged = h.exchanged ++ [e].filterMap Cell.node)
    (hpopped : h'.popped = h.popped) (hinside : h'.inside = h.inside)
    (hexc : h.excused = true → h'.excused = true)
    (hnote : (Pc.pushLink s.mem.head e caller).linking = true → h'.excused = true) :
    Inv consumer (chain ++ [e])
      (s.move t { s.mem with head := e } (.pushLink s.mem.head e caller)) h' := by
  have hknown := hinv.known t
  rw [hpc] at hknown
  obtain ⟨hout, hnone, hcaller⟩ := hknown
  have hcell : (Pc.pushLink s.mem.head e caller).cell = (s.thread t).cell := by rw [hpc]; rfl
  have hself : (s.move t { s.mem with head := e } (.pushLink s.mem.head e caller)).thread t =
      .pushLink s.mem.head e caller := by
    rw [Config.move_thread, Function.update_self]
  refine ⟨⟨?_, ?_, ?_, fun a b hab => ?_, hnone⟩, pops_move hinv.pops ?_,
    Inv.known_move ⟨hinv.shape.ends, .concat hinv.shape.last, ?_⟩ fun u hut => ?_,
    unique_move hinv.unique (hinv.cell_of_same hcell), ?_, ?_⟩
  · rw [List.head?_append, hinv.shape.first]
    rfl
  · exact List.getLast?_concat
  · rw [List.nodup_append]
    refine ⟨hinv.shape.nodup, List.nodup_singleton _, fun x hx y hy => ?_⟩
    rw [List.mem_singleton.mp hy]
    rintro rfl
    exact hout hx
  · rcases hab.of_concat with hab | ⟨hlast, rfl⟩
    · refine (hinv.shape.linked a b hab).imp_right fun ⟨hnone, u, c, hu⟩ => ⟨hnone, u, c, ?_⟩
      have hut : u ≠ t := by
        rintro rfl
        rw [hpc] at hu
        cases hu
      rwa [Config.move_thread, Function.update_of_ne hut]
    · obtain rfl : s.mem.head = a := Option.some.inj (hinv.shape.last.symm.trans hlast)
      exact Or.inr ⟨hinv.shape.ends, t, caller, hself⟩
  · exact fun hpop => hinv.pops t (by rw [hpc]; exact hpop)
  · cases caller <;> exact hcaller
  · refine (hinv.known u).exchange (hinv.cell_of_same hcell e rfl u hut) hexc fun tail hu => hnote ?_
    -- the consumer is at `popHead`, and so the push is a producer's
    refine linking_of_pushLink rfl ?_
    cases hpop : (Pc.pushLink s.mem.head e caller).popping with
    | false => rfl
    | true =>
        have ht := hinv.pops t (by rw [hpc]; exact hpop)
        have hu' := hinv.pops u (by rw [hu]; rfl)
        exact absurd (hu'.trans ht.symm) hut
  · refine outside_move (fun node hnode => ?_) fun node hnode => ?_
    · obtain ⟨hmem, hcells⟩ := hinv.outside node (hinside ▸ hnode)
      refine ⟨fun hx => ?_, fun u _ => hcells u⟩
      rcases List.mem_append.mp hx with hx | hx
      · exact hmem hx
      · refine hcells t ?_
        rw [hpc, List.mem_singleton.mp hx]
        rfl
    · cases hin : h'.inside node with
      | true => rfl
      | false => exact absurd (hcell ▸ hnode) ((hinv.outside node (hinside ▸ hin)).2 t)
  · rw [hexchanged, hpopped, hinv.order, List.filterMap_append, List.append_assoc]

/-- What the other threads know when a link is made. -/
theorem Local.link (hloc : Local m chain h pc) (hchain : chain.Nodup) (hab : Consecutive chain a b)
    (hcell : pc.cell ≠ some b) (hexc : h.excused = true → h'.excused = true) :
    Local (m.setNext a (some b)) chain h' pc := by
  cases pc with
  | pushInit entry caller => exact ⟨hloc.1, hloc.2.setNext⟩
  | pushExchange entry caller =>
      obtain ⟨hout, hnone, hcaller⟩ := hloc
      refine ⟨hout, ?_, hcaller.setNext⟩
      rwa [setNext_of_ne]
      rintro rfl
      exact hout hab.mem_left
  | pushLink prev entry caller =>
      obtain ⟨hnone, hgap, hcaller⟩ := hloc
      refine ⟨?_, hgap, hcaller.setNext⟩
      rwa [setNext_of_ne]
      rintro rfl
      exact hcell (congrArg some (Consecutive.right_unique hchain hgap hab))
  | popHead tail => exact ⟨hloc.1, hloc.2.1, hloc.2.2.imp_left hexc⟩
  | popped result =>
      cases result with
      | none => exact hexc hloc
      | some c => trivial
  | _ => exact hloc

theorem Inv.link {caller : Option (Cell Node)} (hinv : Inv consumer chain s h)
    (hpc : s.thread t = .pushLink a b caller) (hexchanged : h'.exchanged = h.exchanged)
    (hpopped : h'.popped = h.popped) (hinside : h'.inside = h.inside)
    (hexc : h.excused = true → h'.excused = true) :
    Inv consumer chain (s.move t (s.mem.setNext a (some b)) (afterPush caller)) h' := by
  have hknown := hinv.known t
  rw [hpc] at hknown
  obtain ⟨hnone, hab, hcaller⟩ := hknown
  have hidle : (afterPush caller).cell = none := by cases caller <;> rfl
  have hnext : ∀ x, x ≠ a → (s.mem.setNext a (some b)).next x = s.mem.next x :=
    fun x hx => setNext_of_ne _ hx
  refine ⟨⟨hinv.shape.first, hinv.shape.last, hinv.shape.nodup, fun x y hxy => ?_, ?_⟩,
    pops_move hinv.pops ?_, Inv.known_move ?_ fun u hut => ?_, unique_move hinv.unique ?_, ?_, ?_⟩
  · rw [Config.move_mem]
    by_cases hxa : x = a
    · subst hxa
      rw [setNext_self, hxy.right_unique hinv.shape.nodup hab]
      exact Or.inl rfl
    · rw [hnext x hxa]
      refine (hinv.shape.linked x y hxy).imp_right fun ⟨hgap, u, c, hu⟩ => ⟨hgap, u, c, ?_⟩
      have hut : u ≠ t := by
        rintro rfl
        rw [hpc] at hu
        cases hu
        exact hxa rfl
      rwa [Config.move_thread, Function.update_of_ne hut]
  · exact (hnext _ (hab.ne_last hinv.shape.nodup hinv.shape.last).symm).trans hinv.shape.ends
  · intro hpop
    refine hinv.pops t ?_
    rw [hpc]
    cases caller with
    | none => cases hpop
    | some tail => rfl
  · cases caller with
    | none => trivial
    | some tail =>
        obtain ⟨rfl, htail, hne⟩ := hcaller
        exact ⟨htail, hne, hab.mem_right⟩
  · refine (hinv.known u).link hinv.shape.nodup hab (fun hu => hut ?_) hexc
    exact hinv.unique u t b hu (by rw [hpc]; rfl)
  · intro e he
    rw [hidle] at he
    cases he
  · refine outside_move (fun node hnode => (hinv.outside node (hinside ▸ hnode)).imp_right
      fun hcell u _ => hcell u) fun node hnode => ?_
    rw [hidle] at hnode
    cases hnode
  · rw [hexchanged, hpopped, hinv.order]

/-! ### The steps of the consumer -/

/-- The chain behind a first entry that is linked. -/
theorem Inv.second (hinv : Inv consumer chain s h) (hfirst : s.mem.tail = a)
    (hnext : s.mem.next a = some b) : ∃ rest, chain = a :: b :: rest := by
  obtain ⟨rest, rfl⟩ := List.head?_eq_some_iff.mp (hfirst ▸ hinv.shape.first)
  cases rest with
  | nil =>
      have hlast := hinv.shape.last
      rw [List.getLast?_singleton, Option.some.injEq] at hlast
      rw [hlast, hinv.shape.ends] at hnext
      cases hnext
  | cons y rest =>
      rcases hinv.shape.linked a y (Or.inl ⟨rfl, rfl⟩) with hlink | ⟨hgap, -⟩
      · rw [hnext] at hlink
        exact ⟨rest, by rw [Option.some.inj hlink]⟩
      · rw [hnext] at hgap
        cases hgap

/-- No store to a first entry that is linked is pending. -/
theorem Inv.no_store (hinv : Inv consumer chain s h) (hfirst : s.mem.tail = a)
    (hnext : s.mem.next a = some b) (u : Tid) : (s.thread u).storesTo ≠ some a := by
  obtain ⟨rest, rfl⟩ := hinv.second hfirst hnext
  intro hstore
  have hknown := hinv.known u
  generalize s.thread u = pc at hstore hknown
  cases pc with
  | pushInit entry caller =>
      cases hstore
      exact hknown.1 List.mem_cons_self
  | pushLink prev entry caller =>
      cases hstore
      have hgap := hknown.1
      rw [hnext] at hgap
      cases hgap
  | _ => cases hstore

/-- What the producers know when the first entry leaves the chain. -/
theorem Local.advance (hloc : Local m (a :: chain) h pc) (hpop : pc.popping = false)
    (hnext : m.next a = some b) : Local { m with tail := e } chain h' pc := by
  have hout : ∀ {x : Cell Node}, x ∉ a :: chain → x ∉ chain :=
    fun hmem hx => hmem (List.mem_cons_of_mem a hx)
  cases pc with
  | idle => trivial
  | pushInit entry caller =>
      cases caller with
      | some tail => cases hpop
      | none => exact ⟨hout hloc.1, hloc.2⟩
  | pushExchange entry caller =>
      cases caller with
      | some tail => cases hpop
      | none => exact ⟨hout hloc.1, hloc.2.1, hloc.2.2⟩
  | pushLink prev entry caller =>
      cases caller with
      | some tail => cases hpop
      | none =>
          obtain ⟨hnone, hgap, hcaller⟩ := hloc
          refine ⟨hnone, hgap.of_cons ?_, hcaller⟩
          rintro rfl
          rw [hnext] at hnone
          cases hnone
  | _ => cases hpop

theorem Inv.advance (hinv : Inv consumer chain s h) (hfirst : s.mem.tail = a)
    (hnext : s.mem.next a = some b) (ht : (s.thread t).popping = true)
    (hidle : (s.thread t).cell = none) (hpc : pc.cell = none)
    (hexchanged : h'.exchanged = h.exchanged)
    (hpopped : h'.popped = h.popped ++ [a].filterMap Cell.node)
    (hinside : ∀ node, h'.inside node = false → h.inside node = false ∨ a = .entry node)
    (hknown : b ≠ .stub ∨ a ≠ .stub → ∀ rest, chain = a :: rest → Local { s.mem with tail := b } rest h' pc) :
    ∃ rest, Inv consumer rest (s.move t { s.mem with tail := b } pc) h' := by
  obtain ⟨rest, rfl⟩ := hinv.second hfirst hnext
  have htc := hinv.pops t ht
  obtain ⟨hnot, hnodup⟩ := List.nodup_cons.mp hinv.shape.nodup
  have hstub : b ≠ .stub ∨ a ≠ .stub := by
    by_contra hboth
    push Not at hboth
    rw [hboth.1, hboth.2] at hnot
    exact hnot List.mem_cons_self
  refine ⟨b :: rest, ⟨rfl, ?_, hnodup, fun x y hxy => ?_, hinv.shape.ends⟩,
    pops_move hinv.pops (fun _ => htc), Inv.known_move (hknown hstub _ rfl) fun u hut => ?_,
    unique_move hinv.unique ?_, ?_, ?_⟩
  · exact (List.getLast?_cons_cons ..).symm.trans hinv.shape.last
  · refine (hinv.shape.linked x y (hxy.cons a)).imp_right fun ⟨hgap, u, c, hu⟩ => ⟨hgap, u, c, ?_⟩
    have hut : u ≠ t := by
      rintro rfl
      rw [hu] at hidle
      cases hidle
    rwa [Config.move_thread, Function.update_of_ne hut]
  · refine (hinv.known u).advance ?_ hnext
    cases hpop : (s.thread u).popping with
    | false => rfl
    | true => exact absurd ((hinv.pops u hpop).trans htc.symm) hut
  · intro e he
    rw [hpc] at he
    cases he
  · refine outside_move (fun node hnode => ?_) fun node hnode => ?_
    · rcases hinside node hnode with hin | rfl
      · obtain ⟨hmem, hcells⟩ := hinv.outside node hin
        exact ⟨fun hx => hmem (List.mem_cons_of_mem _ hx), fun u _ => hcells u⟩
      · refine ⟨hnot, fun u hut hu => ?_⟩
        have hloc := hinv.known u
        generalize s.thread u = pc at hloc hu
        cases pc with
        | pushInit entry caller =>
            cases hu
            exact hloc.1 List.mem_cons_self
        | pushExchange entry caller =>
            cases hu
            exact hloc.1 List.mem_cons_self
        | pushLink prev entry caller =>
            cases hu
            exact hloc.2.1.ne_first hinv.shape.nodup rfl rfl
        | _ => cases hu
    · rw [hpc] at hnode
      cases hnode
  · rw [hexchanged, hpopped, hinv.order, List.append_assoc, ← List.filterMap_append]
    rfl

end Psync.MPSCIntrusiveQueue
