import Psync.EpochHeap
import Psync.RunLinked

/-! The list of retired nodes in memory: from `retired_head_` the links lead through objects that hold
the nodes. Each access to the list keeps it a list, whatever the position of the node it is about. -/

namespace Psync.EpochHeap

open Concurrency
open EpochManager (Slot ThreadState Guard RetiredNode History)

variable {Tid Loc Node Addr : Type*} {m m' : Mem Loc Node Addr} {a : Addr} {node : RetiredNode Node}
  {p : Option Addr} {la lb l l' : List (Addr × RetiredNode Node)}

namespace Mem

def next (m : Mem Loc Node Addr) (a : Addr) : Option Addr := (m.cells a).bind Cell.next

/-- What the object at `a` holds, apart from its link. -/
def content (m : Mem Loc Node Addr) (a : Addr) : Option (RetiredNode Node) :=
  (m.cells a).map Cell.toRetiredNode

theorem content_eq_some : m.content a = some node ↔ ∃ q, m.cells a = some ⟨node, q⟩ := by
  unfold Mem.content
  rw [Option.map_eq_some_iff]
  constructor
  · rintro ⟨⟨n, q⟩, hcell, rfl⟩
    exact ⟨q, hcell⟩
  · rintro ⟨q, hcell⟩
    exact ⟨_, hcell, rfl⟩

theorem next_eq (h : m.cells a = some ⟨node, p⟩) : m.next a = p := by
  unfold Mem.next
  rw [h]
  rfl

variable [DecidableEq Addr]

theorem setCell_of_ne {b : Addr} (hne : b ≠ a) (cell : Option (Cell Node Addr)) :
    (m.setCell a cell).cells b = m.cells b :=
  Function.update_of_ne hne ..

theorem setCell_self (cell : Option (Cell Node Addr)) : (m.setCell a cell).cells a = cell :=
  Function.update_self ..

/-- A new link leaves what the objects hold. -/
theorem setCell_content (h : m.cells a = some ⟨node, p⟩) (q : Option Addr) :
    (m.setCell a (some ⟨node, q⟩)).content = m.content := by
  funext b
  unfold Mem.content
  by_cases hb : b = a
  · rw [hb, setCell_self, h]
    rfl
  · rw [setCell_of_ne hb]

theorem setCell_next (cell : Option (Cell Node Addr)) :
    (m.setCell a cell).next = Function.update m.next a (cell.bind Cell.next) :=
  Function.comp_update (fun c : Option (Cell Node Addr) => c.bind Cell.next) m.cells a cell

theorem setNext_eq (h : m.cells a = some ⟨node, p⟩) (q : Option Addr) :
    m.setNext a q = some (m.setCell a (some ⟨node, q⟩)) := by
  unfold setNext
  rw [h]
  rfl

end Mem

/-- The list that starts at `retired_head_`: the addresses of the objects with what they hold. -/
structure Chain (m : Mem Loc Node Addr) (l : List (Addr × RetiredNode Node)) : Prop where
  links : Segment m.next m.retiredHead (l.map Prod.fst) none
  nodes : ∀ x ∈ l, m.content x.1 = some x.2

namespace Chain

theorem init : Chain (.init : Mem Loc Node Addr) [] := ⟨rfl, nofun⟩

theorem nodup (h : Chain m l) : (l.map Prod.fst).Nodup := h.links.nodup

theorem head (h : Chain m l) : m.retiredHead = (l.map Prod.fst).head? := h.links.head

/-- An object of the list is allocated. -/
theorem cell (h : Chain m (la ++ (a, node) :: lb)) :
    m.cells a = some ⟨node, (lb.map Prod.fst).head?⟩ := by
  obtain ⟨q, hcell⟩ := Mem.content_eq_some.mp (h.nodes (a, node) (List.mem_append_right la List.mem_cons_self))
  have hlinks := h.links
  rw [List.map_append, List.map_cons] at hlinks
  rw [hcell, ← Mem.next_eq hcell, hlinks.next_eq]

/-- The memory determines the list. -/
theorem unique (h : Chain m l) (h' : Chain m l') : l = l' := by
  have haddr := h.links.unique h'.links
  have hpairs : ∀ {l : List (Addr × RetiredNode Node)}, Chain m l →
      l.map (fun x => (x.1, some x.2)) = (l.map Prod.fst).map fun a => (a, m.content a) := by
    intro l h
    rw [List.map_map]
    refine List.map_congr_left fun x hx => ?_
    exact Prod.ext rfl (h.nodes x hx).symm
  have hinjective : Function.Injective fun x : Addr × RetiredNode Node => (x.1, some x.2) := by
    rintro ⟨a, n⟩ ⟨b, n'⟩ heq
    cases heq
    rfl
  refine List.map_injective_iff.mpr hinjective ?_
  rw [hpairs h, hpairs h', haddr]

/-- Objects outside the list do not matter. -/
theorem congr (h : Chain m l) (hhead : m'.retiredHead = m.retiredHead)
    (hcells : ∀ x ∈ l, m'.cells x.1 = m.cells x.1) : Chain m' l where
  links := by
    rw [hhead]
    refine h.links.congr fun a ha => ?_
    obtain ⟨x, hx, rfl⟩ := List.mem_map.mp ha
    unfold Mem.next
    rw [hcells x hx]
  nodes x hx := by
    have := h.nodes x hx
    unfold Mem.content at this ⊢
    rwa [hcells x hx]

/-- A new first object. -/
theorem push (h : Chain m l) (hcell : m.cells a = some ⟨node, m.retiredHead⟩) :
    Chain (m.setHead (some a)) ((a, node) :: l) where
  links := by
    refine ⟨rfl, ?_⟩
    change Segment m.next (m.next a) _ _
    rw [Mem.next_eq hcell]
    exact h.links
  nodes x hx := by
    rcases List.mem_cons.mp hx with rfl | hx
    · exact Mem.content_eq_some.mpr ⟨_, hcell⟩
    · exact h.nodes x hx

variable [DecidableEq Addr]

theorem setCell (h : Chain m l) (ha : a ∉ l.map Prod.fst) (cell : Option (Cell Node Addr)) :
    Chain (m.setCell a cell) l := by
  refine h.congr rfl fun x hx => Mem.setCell_of_ne ?_ cell
  rintro rfl
  exact ha (List.mem_map_of_mem hx)

/-- The object before the one at `a`, or `retired_head_`, is linked past it. -/
theorem unlink (h : Chain m (la ++ (a, node) :: lb)) :
    ∃ m', m.setLink (la.map Prod.fst).getLast? (lb.map Prod.fst).head? = some m' ∧
      Chain m' (la ++ lb) ∧ m'.view = m.view ∧ ∀ b, b ∉ la.map Prod.fst → m'.cells b = m.cells b := by
  have hnext : m.next a = (lb.map Prod.fst).head? := Mem.next_eq h.cell
  have hlinks := h.links
  rw [List.map_append, List.map_cons] at hlinks
  have hnodes : ∀ x ∈ la ++ lb, m.content x.1 = some x.2 := fun x hx =>
    h.nodes x (List.perm_middle.symm.subset (List.mem_cons_of_mem _ hx))
  rcases List.eq_nil_or_concat' la with rfl | ⟨la, x, rfl⟩
  · refine ⟨m.setHead (lb.map Prod.fst).head?, rfl, ⟨?_, hnodes⟩, rfl, fun _ _ => rfl⟩
    obtain ⟨-, hrest⟩ := hlinks
    rw [hnext] at hrest
    exact hrest
  · -- the object before is the last one of the segment that ends at `a`
    obtain ⟨q, hcell⟩ := Mem.content_eq_some.mp
      (h.nodes x (List.mem_append_left _ (List.mem_append_right la List.mem_cons_self)))
    obtain ⟨r, hfront, rfl, hrest⟩ := Segment.append.mp hlinks
    have hnodup := h.nodup
    rw [List.map_append, List.map_append, List.map_cons, List.map_cons, List.map_nil] at hnodup
    have hdisjoint := List.nodup_append.mp hnodup
    have hx : x.1 ∉ la.map Prod.fst := by
      intro hmem
      exact (List.nodup_append.mp hdisjoint.1).2.2 _ hmem _ List.mem_cons_self rfl
    have hxb : x.1 ∉ lb.map Prod.fst := by
      intro hmem
      exact hdisjoint.2.2 _ (List.mem_append_right _ List.mem_cons_self) _ (List.mem_cons_of_mem a hmem) rfl
    refine ⟨m.setCell x.1 (some ⟨x.2, (lb.map Prod.fst).head?⟩), ?_, ⟨?_, fun y hy => ?_⟩, rfl, fun b hb => ?_⟩
    · rw [List.map_append, List.map_cons, List.map_nil, List.getLast?_concat]
      exact Mem.setNext_eq hcell _
    · rw [Mem.setCell_next, List.map_append, Segment.append]
      rw [hnext] at hrest
      refine ⟨_, ?_, hrest.update_of_notMem hxb _⟩
      rw [List.map_append, List.map_cons, List.map_nil] at hfront ⊢
      exact hfront.redirect hx _
    · rw [Mem.setCell_content hcell]
      exact hnodes y hy
    · refine Mem.setCell_of_ne ?_ _
      rintro rfl
      exact hb (List.mem_map_of_mem (List.mem_append_right la List.mem_cons_self))

end Chain

/-! ### The destructor -/

section Destructor

variable [DecidableEq Addr]

/-- The loop runs the deleters of the objects it comes to, frees these objects and no other. -/
theorem reclaimAll_loop (hlinks : Segment m.next p (l.map Prod.fst) none)
    (hnodes : ∀ x ∈ l, m.content x.1 = some x.2) :
    ∃ m', Solo reclaimAll DestroyPc.deleted m (.loop p) (l.map fun x => x.2.ptr) m' () ∧
      m'.retiredHead = none ∧ ∀ b, m'.cells b = if b ∈ l.map Prod.fst then none else m.cells b := by
  induction l generalizing m p with
  | nil =>
      obtain rfl : p = none := hlinks
      exact ⟨_, .quiet rfl rfl (.done rfl rfl), rfl, fun b => (if_neg List.not_mem_nil).symm⟩
  | cons x l ih =>
      have hnodup := hlinks.nodup
      obtain ⟨rfl, hrest⟩ := hlinks
      obtain ⟨hx, -⟩ := List.nodup_cons.mp hnodup
      obtain ⟨q, hcell⟩ := Mem.content_eq_some.mp (hnodes x List.mem_cons_self)
      rw [Mem.next_eq hcell] at hrest
      have hne : ∀ y ∈ l, y.1 ≠ x.1 := by
        rintro y hy heq
        exact hx (heq ▸ List.mem_map_of_mem hy)
      have hlinks' : Segment (m.setCell x.1 none).next q (l.map Prod.fst) none := by
        rw [Mem.setCell_next]
        exact hrest.update_of_notMem hx _
      have hnodes' : ∀ y ∈ l, (m.setCell x.1 none).content y.1 = some y.2 := by
        intro y hy
        unfold Mem.content
        rw [Mem.setCell_of_ne (hne y hy)]
        exact hnodes y (List.mem_cons_of_mem x hy)
      obtain ⟨m', hsolo, hhead, hcells⟩ := ih hlinks' hnodes'
      have hdelete : Solo reclaimAll DestroyPc.deleted m (.delete x.2.ptr x.1 q)
          ((x :: l).map fun x => x.2.ptr) m' () := .at rfl hsolo
      have hloop : reclaimAll m (.loop (some x.1)) = some (.at m (.delete x.2.ptr x.1 q)) := by
        simp only [reclaimAll, hcell, Option.map_some]
      refine ⟨m', .quiet hloop rfl hdelete, hhead, fun b => ?_⟩
      rw [hcells b]
      by_cases hb : b = x.1
      · subst hb
        rw [if_neg hx, List.map_cons, if_pos List.mem_cons_self]
        exact Mem.setCell_self none
      · simp only [List.map_cons, List.mem_cons, hb, false_or]
        rw [Mem.setCell_of_ne hb]

/-- `reclaim_all` runs the deleter of every node in the list, in its order, and leaves no object. -/
theorem Chain.destroy (h : Chain m l) (hmu : m.reclaimMu = false) :
    ∃ m', Solo reclaimAll DestroyPc.deleted m .lock (l.map fun x => x.2.ptr) m' () ∧
      m'.retiredHead = none ∧ ∀ x ∈ l, m'.cells x.1 = none := by
  obtain ⟨m', hsolo, hhead, hcells⟩ := reclaimAll_loop (m := m.setMu true) h.links h.nodes
  have hlock : reclaimAll m .lock = some (.at (m.setMu true) .loadHead) :=
    if_neg (by rw [hmu]; exact Bool.false_ne_true)
  have hload : reclaimAll (m.setMu true) .loadHead =
      some (.at (m.setMu true) (.loop m.retiredHead)) := rfl
  refine ⟨m', .quiet hlock rfl (.quiet hload rfl hsolo), hhead, fun x hx => ?_⟩
  rw [hcells, if_pos (List.mem_map_of_mem hx)]

end Destructor

end Psync.EpochHeap
