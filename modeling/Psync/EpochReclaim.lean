import Psync.EpochState

/-! Epoch reclamation is safe. A reader that obtains a node does so before the node is retired, so that
the epoch of the node is at least its own, and a `try_reclaim` that has already scanned its slot began
at an epoch that is no later. Every other `try_reclaim` finds the slot announced. -/

namespace Psync.EpochManager

open Concurrency

set_option linter.unusedSectionVars false

variable {Tid Loc Node : Type*} [DecidableEq Tid] [DecidableEq Loc] {t : Tid} {m m' : Mem Loc Node}
  {f : Tid → Local Node} {h : History Tid Node} {l l' : Local Node} {g : Guard} {i : Slot}
  {label : Label Loc Node} {node : RetiredNode Node}

/-! ### Retired nodes -/

/-- The nodes that the thread has at hand, in `retire` or in `try_reclaim`. -/
def Pc.nodes : Pc Node → List (RetiredNode Node)
  | .retireLock node | .retireHead node => [node]
  | .retireStore node next => node :: next
  | .sweep _ kept rest => kept ++ rest
  | .delete _ kept node rest => node :: (kept ++ rest)
  | _ => []

/-- The node is in the list, or a thread has it at hand. -/
def Recorded (m : Mem Loc Node) (f : Tid → Local Node) (node : RetiredNode Node) : Prop :=
  node ∈ m.retired ∨ ∃ t, node ∈ (f t).pc.nodes

theorem scanNext_nodes (current minEpoch : U64) (i : Slot) :
    (scanNext current minEpoch i : Pc Node).nodes = [] := by
  unfold scanNext
  split_ifs <;> rfl

/-- A step records a node only at the load of `retire`, with the global epoch. -/
theorem nodes_of_run (hrun : run m l = some (m', l'))
    (hnode : node ∈ m'.retired ∨ node ∈ l'.pc.nodes) : node ∈ m.retired ∨ node ∈ l.pc.nodes ∨
      ∃ ptr, l.pc = .retireLoad ptr ∧ node = ⟨ptr, m.globalEpoch⟩ := by
  have hstep := runStep_of_run hrun
  generalize l.pc = pc at hstep
  have hscan : ∀ {current minEpoch i}, node ∈ (scanNext current minEpoch i : Pc Node).nodes → False := by
    intro current minEpoch i h
    rw [scanNext_nodes] at h
    cases h
  cases hstep with
  | @retireLoad ptr =>
      rcases hnode with hnode | hnode
      · exact Or.inl hnode
      · exact Or.inr (Or.inr ⟨ptr, rfl, List.mem_singleton.mp hnode⟩)
  | retireLock | reclaimLock => exact hnode.imp_right Or.inl
  | retireHead =>
      rcases hnode with hnode | hnode
      · exact Or.inl hnode
      · rcases List.mem_cons.mp hnode with rfl | hnode
        · exact Or.inr (Or.inl List.mem_cons_self)
        · exact Or.inl hnode
  | retireStore => exact Or.inr (Or.inl (hnode.resolve_right List.not_mem_nil))
  | scanUnused hfree => exact Or.inl (hnode.resolve_right hscan)
  | scanEpoch => exact Or.inl (hnode.resolve_right hscan)
  | reclaimHead => exact Or.inl (hnode.elim id id)
  | @unlink minEpoch kept rest node' hlt =>
      refine Or.inr (Or.inl ?_)
      rcases hnode with hnode | hnode
      · exact (List.perm_middle.symm.subset) (List.mem_cons_of_mem node' hnode)
      · exact (List.perm_middle.symm.subset) hnode
  | keep =>
      refine hnode.imp_right fun hnode => Or.inl ?_
      rwa [Local.go, Pc.nodes, List.append_assoc] at hnode
  | delete => exact hnode.imp_right fun hnode => Or.inl (List.mem_cons_of_mem _ hnode)
  | _ => exact Or.inl (hnode.resolve_right List.not_mem_nil)

theorem recorded_of_run (hrun : run m (f t) = some (m', l'))
    (hnode : Recorded m' (Function.update f t l') node) : Recorded m f node ∨
      ∃ ptr, (f t).pc = .retireLoad ptr ∧ node = ⟨ptr, m.globalEpoch⟩ := by
  have hown : ∀ h : node ∈ m'.retired ∨ node ∈ l'.pc.nodes, Recorded m f node ∨
      ∃ ptr, (f t).pc = .retireLoad ptr ∧ node = ⟨ptr, m.globalEpoch⟩ := by
    intro h
    rcases nodes_of_run hrun h with h | h | h
    · exact Or.inl (Or.inl h)
    · exact Or.inl (Or.inr ⟨t, h⟩)
    · exact Or.inr h
  rcases hnode with hnode | ⟨u, hnode⟩
  · exact hown (Or.inl hnode)
  · rw [Function.update_apply] at hnode
    split_ifs at hnode
    · exact hown (Or.inr hnode)
    · exact Or.inl (Or.inr ⟨u, hnode⟩)

/-- The deleter runs on a node of an earlier epoch than `min_epoch`. -/
def Sweeping : Pc Node → Prop
  | .delete minEpoch _ node _ => node.epoch < minEpoch
  | _ => True

/-- A step of the code writes to no shared location and begins no `retire`. -/
theorem run_frame (hrun : run m l = some (m', l')) :
    m'.shared = m.shared ∧ (∀ ptr, l'.pc ≠ .retireLoad ptr) ∧ Sweeping l'.pc := by
  have hstep := runStep_of_run hrun
  generalize l.pc = pc at hstep
  have hscan : ∀ current minEpoch i, (∀ ptr, (scanNext current minEpoch i : Pc Node) ≠ .retireLoad ptr) ∧
      Sweeping (scanNext current minEpoch i : Pc Node) := by
    intro current minEpoch i
    unfold scanNext
    split_ifs <;> exact ⟨nofun, trivial⟩
  cases hstep with
  | scanUnused | scanEpoch => exact ⟨rfl, hscan _ _ _⟩
  | unlink hlt => exact ⟨rfl, nofun, hlt⟩
  | _ => exact ⟨rfl, nofun, trivial⟩

/-! ### The history -/

namespace History

variable (h) (pc : Pc Node)

theorem retired_run :
    (h.step t (.run : Label Loc Node) m pc).retired = h.retired := by
  cases pc <;> rfl

theorem freed_run {x : Node} (hx : x ∈ (h.step t (.run : Label Loc Node) m pc).freed) :
    x ∈ h.freed ∨ ∃ minEpoch kept node rest,
      pc = .delete minEpoch kept node rest ∧ x = node.ptr := by
  cases pc with
  | delete minEpoch kept node rest =>
      rcases List.mem_cons.mp hx with hx | hx
      · exact Or.inr ⟨minEpoch, kept, node, rest, rfl, hx⟩
      · exact Or.inl hx
  | _ => exact Or.inl hx

/-- The store of `enter` makes a fresh start. -/
theorem obtained_run {u : Tid} {x : Node}
    (hx : x ∈ (h.step t (.run : Label Loc Node) m pc).obtained u) :
    x ∈ h.obtained u ∧ (u = t → ∀ i e, pc ≠ .enterStore i e) := by
  cases pc with
  | enterStore i e =>
      have hx : x ∈ Function.update h.obtained t [] u := hx
      rw [Function.update_apply] at hx
      split_ifs at hx with hut
      · cases hx
      · exact ⟨hx, fun heq => absurd heq hut⟩
  | _ => exact ⟨hx, fun _ => nofun⟩

end History

/-! ### The invariant -/

/-- The node was retired no earlier than the guard was built, and every `try_reclaim` that has scanned
the slot of the guard will keep the node. -/
structure Shields (f : Tid → Local Node) (g : Guard) (node : RetiredNode Node) : Prop where
  epoch : g.epoch ≤ node.epoch
  scans : ∀ u, Lowered ⟨g.slot, node.epoch⟩ (f u).pc

structure Inv (m : Mem Loc Node) (f : Tid → Local Node) (h : History Tid Node) : Prop where
  slots : Slots m f
  counts : Counts m h
  bound : h.advances + 2 < 2 ^ 64
  known : ∀ t, Known m.globalEpoch (f t)
  sweeping : ∀ t, Sweeping (f t).pc
  linked : ∀ loc x, m.shared loc = some x → x ∉ h.retired
  retiring : ∀ t ptr, (f t).pc = .retireLoad ptr → ptr ∈ h.retired
  recorded : ∀ node, Recorded m f node → node.ptr ∈ h.retired
  freed : ∀ x ∈ h.freed, x ∈ h.retired
  /-- What a reader has obtained under a guard is not freed, and no one is about to free it. -/
  safe : ∀ t g x, g ∈ (f t).held → x ∈ h.obtained t →
    x ∉ h.freed ∧ ∀ node, Recorded m f node → node.ptr = x → Shields f g node

theorem Inv.init : Inv (.init : Mem Loc Node) (fun _ : Tid => ⟨none, [], .idle⟩) .init where
  slots := ⟨fun _ => ⟨Nat.zero_le 1, nofun, nofun⟩, nofun, nofun, nofun⟩
  counts := rfl
  bound := (by decide : 0 + 2 < 2 ^ 64)
  known _ := ⟨nofun, nofun⟩
  sweeping _ := trivial
  linked := nofun
  retiring := nofun
  recorded _ hnode := by
    rcases hnode with hnode | ⟨u, hnode⟩ <;> cases hnode
  freed := nofun
  safe _ _ _ hg := nomatch hg

/-- A node retired now is out of the reach of every scan under way. -/
theorem Inv.shields_new (h' : Inv m f h) (hg : g ∈ (f t).held) (ptr : Node) :
    Shields f g ⟨ptr, m.globalEpoch⟩ where
  epoch := (h'.known t).held g hg
  scans u e he := (h'.known u).computed e (epoch_of_scanned he)

theorem Inv.run (h' : Inv m f h) (hregisters : Registers m (f t).pc)
    (hbound : (h.step t (.run : Label Loc Node) m (f t).pc).advances + 2 < 2 ^ 64)
    (hrun : EpochManager.run m (f t) = some (m', l')) :
    Inv m' (Function.update f t l') (h.step t (.run : Label Loc Node) m (f t).pc) := by
  have hcounts := h'.counts.run hrun (t := t)
  have hglobal := h'.counts.le hcounts (h.advances_le t .run m (f t).pc) (by omega)
  obtain ⟨hshared, hretire, hsweeping⟩ := run_frame hrun
  refine ⟨h'.slots.run hregisters hrun, hcounts, hbound, fun u => ?_, fun u => ?_, fun loc x hx => ?_,
    fun u ptr hu => ?_, fun node hnode => ?_, fun x hx => ?_, fun u g x hg hx => ?_⟩
  · rw [Function.update_apply]
    split_ifs
    · exact ((h'.known t).run hregisters hrun).mono hglobal
    · exact (h'.known u).mono hglobal
  · rw [Function.update_apply]
    split_ifs
    · exact hsweeping
    · exact h'.sweeping u
  · rw [hshared] at hx
    rw [h.retired_run]
    exact h'.linked loc x hx
  · rw [h.retired_run]
    rw [Function.update_apply] at hu
    split_ifs at hu
    · exact absurd hu (hretire ptr)
    · exact h'.retiring u ptr hu
  · rw [h.retired_run]
    rcases recorded_of_run hrun hnode with hnode | ⟨ptr, hpc, rfl⟩
    · exact h'.recorded node hnode
    · exact h'.retiring t ptr hpc
  · rw [h.retired_run]
    rcases h.freed_run _ hx with hx | ⟨minEpoch, kept, node, rest, hpc, rfl⟩
    · exact h'.freed x hx
    · exact h'.recorded node (Or.inr ⟨t, by rw [hpc]; exact List.mem_cons_self⟩)
  · obtain ⟨hx, hfresh⟩ := h.obtained_run _ hx
    have hg : g ∈ (f u).held := by
      rw [Function.update_apply] at hg
      split_ifs at hg with hut
      · subst hut
        exact ((slotStep_of_run hregisters hrun).held hg).resolve_right (hfresh rfl _ _)
      · exact hg
    obtain ⟨hfreed, hshields⟩ := h'.safe u g x hg hx
    refine ⟨fun hx' => ?_, fun node hnode hptr => ?_⟩
    · rcases h.freed_run _ hx' with hx' | ⟨minEpoch, kept, node, rest, hpc, heq⟩
      · exact hfreed hx'
      · have hsweep := h'.sweeping t
        have hshield := hshields node (Or.inr ⟨t, by rw [hpc]; exact List.mem_cons_self⟩) heq.symm
        have hle := hshield.scans t minEpoch (by rw [hpc]; rfl)
        rw [hpc] at hsweep
        exact absurd hsweep (BitVec.not_lt.mpr hle)
    · have hold : Shields f g node := by
        rcases recorded_of_run hrun hnode with hnode | ⟨ptr, -, rfl⟩
        · exact hshields node hnode hptr
        · exact h'.shields_new hg ptr
      have hannounced : Announced m ⟨g.slot, node.epoch⟩ := h'.slots.announced hg
        (h'.counts.ne_inactive h'.bound ((h'.known u).held g hg)) hold.epoch
      refine ⟨hold.epoch, fun v => ?_⟩
      rw [Function.update_apply]
      split_ifs
      · exact (hold.scans t).run hannounced hrun
      · exact hold.scans v

/-- A call that begins leaves the epoch and the retired nodes. -/
theorem CallStep.leaves (hcall : CallStep m l label m' l') :
    m'.globalEpoch = m.globalEpoch ∧ m'.retired = m.retired ∧
      (∀ node ∈ l'.pc.nodes, node ∈ l.pc.nodes) ∧ (Sweeping l.pc → Sweeping l'.pc) := by
  cases hcall with
  | read | write => exact ⟨rfl, rfl, fun _ => id, id⟩
  | _ => exact ⟨rfl, rfl, nofun, fun _ => trivial⟩

/-- A thread obtains only what a shared location refers to. -/
theorem History.obtained_call {u : Tid} {x : Node} (hcall : CallStep m l label m' l')
    (hx : x ∈ (h.step t label m l.pc).obtained u) :
    x ∈ h.obtained u ∨ ∃ loc, label = .read loc ∧ m.shared loc = some x := by
  cases hcall with
  | read loc hguards =>
      have hx : x ∈ Function.update h.obtained t ((m.shared loc).toList ++ h.obtained t) u := hx
      rw [Function.update_apply] at hx
      split_ifs at hx with hut
      · rcases List.mem_append.mp hx with hx | hx
        · exact Or.inr ⟨loc, rfl, Option.mem_toList.mp hx⟩
        · exact Or.inl (hut ▸ hx)
      · exact Or.inl hx
  | _ => exact Or.inl hx

theorem History.retired_call (hcall : CallStep m l label m' l') :
    (∀ x ∈ h.retired, x ∈ (h.step t label m l.pc).retired) ∧
      (h.step t label m l.pc).freed = h.freed := by
  cases hcall with
  | retire ptr => exact ⟨fun _ => List.mem_cons_of_mem ptr, rfl⟩
  | _ => exact ⟨fun _ => id, rfl⟩

/-- No shared location refers to a node whose `retire` has begun. -/
theorem Inv.linked_call (h' : Inv m f h) (hpermitted : Permitted m h l label)
    (hcall : CallStep m l label m' l') {loc : Loc} {x : Node} (hx : m'.shared loc = some x) :
    x ∉ (h.step t label m l.pc).retired := by
  cases hcall with
  | retire ptr =>
      intro hmem
      rcases List.mem_cons.mp hmem with rfl | hmem
      · exact hpermitted loc hx
      · exact h'.linked loc x hx hmem
  | write loc' ptr =>
      have hx : Function.update m.shared loc' ptr loc = some x := hx
      rw [Function.update_apply] at hx
      split_ifs at hx
      · exact hpermitted x hx
      · exact h'.linked loc x hx
  | _ => exact h'.linked loc x hx

theorem Inv.call (h' : Inv m f h) (hpermitted : Permitted m h (f t) label)
    (hcall : CallStep m (f t) label m' l') :
    Inv m' (Function.update f t l') (h.step t label m (f t).pc) := by
  obtain ⟨hglobal, hretired, hnodes, hsweeping⟩ := hcall.leaves
  obtain ⟨hmono, hfreed⟩ := h.retired_call hcall (t := t)
  have hrecorded : ∀ {node}, Recorded m' (Function.update f t l') node → Recorded m f node := by
    rintro node (hnode | ⟨u, hnode⟩)
    · exact Or.inl (hretired ▸ hnode)
    · rw [Function.update_apply] at hnode
      split_ifs at hnode
      · exact Or.inr ⟨t, hnodes node hnode⟩
      · exact Or.inr ⟨u, hnode⟩
  have hadvances : (h.step t label m (f t).pc).advances = h.advances := by
    cases hcall <;> rfl
  refine ⟨h'.slots.call hcall ?_, h'.counts.call hcall, by rw [hadvances]; exact h'.bound,
    fun u => ?_, fun u => ?_, fun loc x hx => h'.linked_call hpermitted hcall hx,
    fun u ptr hu => ?_, fun node hnode => hmono _ (h'.recorded node (hrecorded hnode)),
    fun x hx => hmono x (h'.freed x (hfreed ▸ hx)), fun u g x hg hx => ?_⟩
  · rintro rfl
    exact hpermitted
  · rw [hglobal, Function.update_apply]
    split_ifs
    · exact (h'.known t).call hcall
    · exact h'.known u
  · rw [Function.update_apply]
    split_ifs
    · exact hsweeping (h'.sweeping t)
    · exact h'.sweeping u
  · rw [Function.update_apply] at hu
    split_ifs at hu
    · cases hcall with
      | retire ptr' =>
          cases hu
          exact List.mem_cons_self
      | read | write => exact hmono ptr (h'.retiring t ptr hu)
      | _ => cases hu
    · exact hmono ptr (h'.retiring u ptr hu)
  · have hg : g ∈ (f u).held := by
      rw [Function.update_apply] at hg
      split_ifs at hg with hut
      · exact hut ▸ hcall.held.2 g hg
      · exact hg
    rw [hfreed]
    rcases h.obtained_call hcall hx with hx | ⟨loc, rfl, hlink⟩
    · obtain ⟨hfree, hshields⟩ := h'.safe u g x hg hx
      refine ⟨hfree, fun node hnode hptr => ?_⟩
      have hold := hshields node (hrecorded hnode) hptr
      refine ⟨hold.epoch, fun v => ?_⟩
      rw [Function.update_apply]
      split_ifs
      · rcases hcall.frame.2.2 with hpc | hpc
        · rw [hpc]
          exact hold.scans t
        · intro e he
          rw [hpc] at he
          cases he
      · exact hold.scans v
    · -- a linked node is not retired, so nothing has a record of it
      have hnone := h'.linked loc x hlink
      refine ⟨fun hx => hnone (h'.freed x hx), fun node hnode hptr => ?_⟩
      exact absurd (hptr ▸ h'.recorded node (hrecorded hnode)) hnone

/-! ### Runs -/

variable [Fintype Tid] {s : State Tid Loc Node × History Tid Node}

theorem inv_of_reachable (hreach : (observed Tid Loc Node).Reachable contract s) :
    Inv s.1.mem s.1.thread s.2 := by
  refine hreach.induct (I := fun s => Inv s.1.mem s.1.thread s.2) .init ?_
  intro s a s' _ ih hnext hok
  obtain ⟨t, label, m, l, rfl, hstep, rfl⟩ := Program.observed_step_of_next _ (fun _ => rfl)
    (fun _ => rfl) (fun _ => rfl) hnext
  obtain ⟨hpermitted, hbound⟩ := hok
  rcases step_cases hstep with ⟨rfl, hrun⟩ | ⟨hidle, hcall⟩
  · exact ih.run hpermitted hbound hrun
  · exact ih.call hpermitted hcall

/-- No deleter runs on a node that a reader has obtained since its last `enter`, before the store of
its `exit`. -/
theorem reclamation_is_safe (hreach : (observed Tid Loc Node).Reachable contract s) {t : Tid}
    (hreader : (s.1.thread t).held ≠ []) {x : Node} (hx : x ∈ s.2.obtained t) : x ∉ s.2.freed := by
  obtain ⟨g, hg⟩ := List.exists_mem_of_ne_nil _ hreader
  exact ((inv_of_reachable hreach).safe t g x hg hx).1

/-- Thread `b` obtains node 7 under a guard; thread `a` unlinks and retires it, and runs `try_reclaim`. -/
def reclaimRun : List (Act Runner (Label Unit ℕ)) :=
  [.step .a (.write () (some 7)), .step .b .registerThread, .step .b .run, .step .b .enter, .step .b .run,
    .step .b .run, .step .b (.read ()), .step .a (.write () none), .step .a (.retire 7)] ++
    List.replicate 5 (.step .a .run) ++ .step .a .tryReclaim :: List.replicate 135 (.step .a .run)

theorem reclamation_is_safe_advanced : ∃ s : State Runner Unit ℕ × History Runner ℕ,
    s.2.retired = [7] ∧ s.2.advances = 1 ∧ 7 ∉ s.2.freed :=
  let M := observed Runner Unit ℕ
  ⟨(M.run contract M.init reclaimRun).get (by decide +kernel), by decide +kernel, by decide +kernel,
    reclamation_is_safe (t := .b) (.of_run _ _) (by decide +kernel) (by decide +kernel)⟩

end Psync.EpochManager
