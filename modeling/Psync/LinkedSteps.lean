import Psync.LinkedHands

/-! Every step of `park`, `unpark_one` and `unpark_all`, and every wake of the kernel, keeps the
invariant. -/

namespace Psync.LinkedLot

open Concurrency
open ParkingLot (UnparkResult hashAddress)

set_option linter.unusedSectionVars false

variable {Tid Node : Type*} [Fintype Tid] [DecidableEq Tid] [DecidableEq Node] {owner : Node → Tid}
  {queue queue' : U64 → List Node} {s : Process Tid Node} {w : History Tid Node} {t : Tid}
  {lot' : Lot Node} {th' : Pc Node} {n m : Node}

/-! ### The steps of the three functions -/

theorem Inv.quiet {e : Option (Node × Event Tid)} (h : Inv owner queue s w) (he : e = none) :
    ∃ queue', Inv owner queue' s (w.push e) := ⟨queue, by rwa [he]⟩

theorem Inv.park {address : U64} {pc : ParkPc} {valid : Bool} (h : Inv owner queue s w)
    (ht : s.thread t = .park address n pc)
    (hstep : (LinkedLot.park address n valid s.mem pc).map (enter (.park address n)) = some (lot', th')) :
    ∃ queue', Inv owner queue' (s.move t lot' th')
      (w.push (Pc.event (w.call t (.park address n pc)) valid s.mem (.park address n pc))) := by
  have howner := h.owned t address n pc ht
  obtain ⟨taken, hmem, hknows⟩ := h.knows t
  rw [ht] at hknows
  obtain ⟨rfl, hknows⟩ := hknows
  have hnone : ∀ m, ¬ w.Taken t m := fun m hm => nomatch (hmem m).mpr hm
  -- before the link the node is the thread's own
  have hown : (Pc.park address n pc).linked = none → ∀ {m}, w.keeper owner m ≠ .inl t → m ≠ n := by
    rintro hlinked m hm rfl
    exact hm (by rw [h.keeper_of_not_linked (by rw [howner, ht, hlinked]; exact nofun), howner])
  have hother : (Pc.park address n pc).linked = none → ∀ {m}, (s.thread (owner m)).linked = some m → m ≠ n := by
    rintro hlinked m hm rfl
    rw [howner, ht, hlinked] at hm
    cases hm
  cases pc with
  | lockBucket =>
      by_cases hfree : (s.mem.bucket address).lockState = 0
      · rw [LinkedLot.park, LinkedLot.lockBucket, if_pos hfree] at hstep
        cases hstep
        refine Inv.quiet (h.lock ht (.park howner (by rfl)) hfree rfl rfl ⟨[], hmem, rfl, h.tails _ hfree⟩) ?_
        rw [Pc.event, LinkedLot.park, LinkedLot.lockBucket, if_pos hfree]
      · rw [LinkedLot.park, LinkedLot.lockBucket, if_neg hfree] at hstep
        cases hstep
        refine Inv.quiet (h.read ht (.park howner rfl) rfl ⟨[], hmem, rfl, trivial⟩) ?_
        rw [Pc.event, LinkedLot.park, LinkedLot.lockBucket, if_neg hfree]
  | validate =>
      cases valid <;> cases hstep <;>
        exact Inv.quiet (h.read ht (.park howner rfl) rfl ⟨[], hmem, rfl, hknows⟩) rfl
  | abort =>
      cases hstep
      exact Inv.quiet (h.unlock ht (.leave rfl hnone) rfl rfl hknows ⟨[], hmem, rfl⟩) rfl
  | setKey =>
      cases hstep
      refine Inv.quiet (h.still ht (.park howner rfl) rfl (fun _ => rfl) (fun _ => rfl) (fun _ _ => rfl)
        (fun m hm => Function.update_of_ne (hown rfl hm) ..) (fun m hm => ⟨?_, ?_⟩)
        ⟨[], hmem, rfl, hknows, ?_⟩) rfl
      · rw [Lot.setKey_wakeFlag]
      · rw [Lot.setKey_key, Function.update_of_ne (hother rfl hm)]
      · rw [Lot.setKey_key, Function.update_self]
  | setFlag =>
      cases hstep
      refine Inv.quiet (h.still ht (.park howner rfl) rfl (fun _ => rfl) (fun _ => rfl) (fun _ _ => rfl)
        (fun m hm => Function.update_of_ne (hown rfl hm) ..) (fun m hm => ⟨?_, ?_⟩)
        ⟨[], hmem, rfl, hknows.1, ?_, ?_⟩) rfl
      · rw [Lot.setWakeFlag_wakeFlag, Function.update_of_ne (hother rfl hm)]
      · rw [Lot.setWakeFlag_key]
      · rw [Lot.setWakeFlag_key, hknows.2]
      · rw [Lot.setWakeFlag_wakeFlag, Function.update_self]
  | setNext =>
      cases hstep
      obtain ⟨htail, hkey, hflag⟩ := hknows
      refine Inv.quiet (h.still ht (.park howner rfl) rfl (fun _ => rfl) (fun _ => rfl) (fun _ _ => rfl)
        (fun m hm => Function.update_of_ne (hown rfl hm) ..) (fun m hm => ⟨?_, ?_⟩)
        ⟨[], hmem, rfl, htail, ?_, ?_, ?_⟩) rfl
      · rw [Lot.setNext_wakeFlag]
      · rw [Lot.setNext_key]
      · rw [Lot.setNext_key, hkey]
      · rw [Lot.setNext_wakeFlag, hflag]
      · rw [Lot.setNext_next, Function.update_self]
  | link =>
      cases hstep
      exact ⟨_, h.link ht⟩
  | setTail =>
      cases hstep
      refine Inv.quiet (h.retail ht (.park howner rfl) rfl rfl rfl ?_ ?_
        (fun b hb => s.mem.setBucket_of_ne _ _ hb) ⟨[], hmem, rfl, ?_⟩) rfl
      · rw [Lot.setTail_bucket]
      · rw [Lot.setTail_bucket]
      · rw [ParkKnows, TailOf, Lot.setTail_bucket, hknows.1]
  | unlockBucket =>
      cases hstep
      exact Inv.quiet (h.unlock ht (.park howner (by rfl)) rfl rfl hknows ⟨[], hmem, rfl, trivial⟩) rfl
  | load =>
      by_cases hflag : (s.mem.nodes n).wakeFlag = 0
      · rw [LinkedLot.park, if_pos hflag] at hstep
        cases hstep
        refine Inv.quiet (h.read ht (.park howner rfl) rfl ⟨[], hmem, rfl, trivial⟩) ?_
        rw [Pc.event, LinkedLot.park, if_pos hflag]
      · rw [LinkedLot.park, if_neg hflag] at hstep
        cases hstep
        rw [Pc.event, LinkedLot.park, if_neg hflag]
        exact ⟨_, h.returned ht hflag⟩
  | wait => cases hstep

section scans

variable {lot : Lot Node} {address b : U64} {q taken before after : List Node} {prev curr : Option Node}
  {target : Node}

theorem scan_knows (hq : TailOf lot address q) (hcurr : ∀ n, curr = some n → At q prev n) :
    UnparkKnows lot address q [] (scan prev curr) := by
  cases curr with
  | none => exact ⟨rfl, hq⟩
  | some curr => exact ⟨rfl, hq, hcurr curr rfl⟩

theorem check_knows (hstale : Stale lot q target) (hq : TailOf lot address q)
    (hcurr : ∀ n, curr = some n → n ∈ q) : UnparkKnows lot address q [target] (check target curr) := by
  cases curr with
  | none => exact ⟨rfl, hstale, hq⟩
  | some curr => exact ⟨rfl, hstale, hq, hcurr curr rfl⟩

theorem sweep_knows {l : Sweep Node} (hwake : ToWake lot l taken) (hq : TailOf lot address q)
    (hcurr : ∀ n, curr = some n → At q l.prev n) : UnparkAllKnows lot address q taken (sweep l curr) := by
  cases curr with
  | none => exact ⟨hwake, hq⟩
  | some curr => exact ⟨hwake, hq, hcurr curr rfl⟩

/-- The link of a node that has just left the list still leads into the list. -/
theorem stale_unlink (hq : lot.Queue b (before ++ n :: after)) (r : Option Node) :
    Stale (lot.setLink address before.getLast? r) (before ++ after) n := by
  have hne : before.getLast? ≠ some n := by
    intro he
    have hnodup := List.nodup_append.mp hq.nodup
    exact hnodup.2.2 n (List.mem_of_getLast? he) n List.mem_cons_self rfl
  intro m hm
  rw [lot.setLink_next address _ _ hne, Segment.next_eq hq] at hm
  exact List.mem_append_right _ (List.mem_of_mem_head? hm)

end scans

/-- A step inside `unpark_one` that writes nothing, and changes no lock. -/
theorem Inv.readOne {address : U64} {pc pc' : UnparkPc Node} (h : Inv owner queue s w)
    (ht : s.thread t = .unparkOne address pc) (hlocked : pc'.locked = pc.locked)
    (knows : ∃ taken, (∀ n, n ∈ taken ↔ w.Taken t n) ∧
      UnparkKnows s.mem address (queue (hashAddress address)) taken pc') :
    Inv owner queue (s.move t s.mem (.unparkOne address pc')) w :=
  h.read ht .unparkOne (by rw [Pc.bucket, Pc.bucket, hlocked]) knows

theorem Inv.unlinkOne {address : U64} {prev next : Option Node} {target : Node} {taken : List Node}
    {valid : Bool} (h : Inv owner queue s w) (ht : s.thread t = .unparkOne address (.unlink prev target next))
    (hknows : UnparkKnows s.mem address (queue (hashAddress address)) taken (.unlink prev target next)) :
    ∃ queue', Inv owner queue'
      (s.move t (s.mem.setLink address prev next) (.unparkOne address (.fixTail prev target)))
      (w.push (Pc.event (w.call t (.unparkOne address (.unlink prev target next))) valid s.mem
        (.unparkOne address (.unlink prev target next)))) := by
  have hlist := h.list (hashAddress address)
  obtain ⟨rfl, htail, ⟨before, after, hq, rfl⟩, hkey, rfl⟩ := hknows
  rw [hq] at hlist htail
  have hunlink : Inv owner _ (s.move t (s.mem.setLink address before.getLast? (s.mem.next target))
      (.unparkOne address (.fixTail before.getLast? target))) _ :=
    h.unlink ht .unparkOne rfl rfl rfl rfl hq hkey rfl fun taken hknows' _ => ?_
  · exact ⟨_, hunlink⟩
  · obtain ⟨rfl, -⟩ := hknows'
    refine ⟨rfl, ?_, before, after, ?_, rfl, ?_⟩
    · rw [Function.update_self]
      exact stale_unlink hlist _
    · rw [Function.update_self]
    · rw [TailOf, Lot.setLink_tail]
      exact htail

theorem Inv.unparkOne {address : U64} {pc : UnparkPc Node} {valid : Bool} (h : Inv owner queue s w)
    (ht : s.thread t = .unparkOne address pc)
    (hstep : enter (.unparkOne address) (LinkedLot.unparkOne address s.mem pc) = (lot', th')) :
    ∃ queue', Inv owner queue' (s.move t lot' th')
      (w.push (Pc.event (w.call t (.unparkOne address pc)) valid s.mem (.unparkOne address pc))) := by
  obtain ⟨taken, hmem, hknows⟩ := h.knows t
  rw [ht] at hknows
  change UnparkKnows s.mem address (queue (hashAddress address)) taken pc at hknows
  have hlist := h.list (hashAddress address)
  cases pc with
  | lockBucket =>
      obtain rfl : taken = [] := hknows
      by_cases hfree : (s.mem.bucket address).lockState = 0
      · rw [LinkedLot.unparkOne, LinkedLot.lockBucket, if_pos hfree] at hstep
        cases hstep
        exact Inv.quiet (h.lock ht .unparkOne hfree rfl rfl ⟨[], hmem, rfl, h.tails _ hfree⟩) rfl
      · rw [LinkedLot.unparkOne, LinkedLot.lockBucket, if_neg hfree] at hstep
        cases hstep
        exact Inv.quiet (h.readOne ht rfl ⟨[], hmem, rfl⟩) rfl
  | loadHead =>
      cases hstep
      obtain ⟨rfl, htail⟩ := hknows
      exact Inv.quiet (h.readOne ht (scan_locked ..) ⟨[], hmem, scan_knows htail fun n hn => .head hlist hn⟩) rfl
  | key prev curr =>
      obtain ⟨rfl, htail, hat⟩ := hknows
      by_cases hkey : (s.mem.nodes curr).key = address
      · rw [LinkedLot.unparkOne, if_pos hkey] at hstep
        cases hstep
        exact Inv.quiet (h.readOne ht rfl ⟨[], hmem, rfl, htail, hat, hkey⟩) rfl
      · rw [LinkedLot.unparkOne, if_neg hkey] at hstep
        cases hstep
        exact Inv.quiet (h.readOne ht rfl ⟨[], hmem, rfl, htail, hat.mem⟩) rfl
  | next curr =>
      cases hstep
      obtain ⟨rfl, htail, hcurr⟩ := hknows
      exact Inv.quiet (h.readOne ht (scan_locked ..)
        ⟨[], hmem, scan_knows htail fun n hn => .next hlist hcurr hn⟩) rfl
  | loadNext prev target =>
      cases hstep
      obtain ⟨rfl, htail, hat, hkey⟩ := hknows
      exact Inv.quiet (h.readOne ht rfl ⟨[], hmem, rfl, htail, hat, hkey, rfl⟩) rfl
  | unlink prev target next =>
      cases hstep
      exact h.unlinkOne ht hknows
  | fixTail prev target =>
      cases hstep
      obtain ⟨rfl, hstale, before, after, hq, rfl, htail⟩ := hknows
      have hleft : target ∉ before ++ after := by
        rw [← hq]
        exact h.taken_notMem ((hmem target).mp List.mem_cons_self)
      refine Inv.quiet (h.retail ht .unparkOne rfl rfl (Lot.fixTail_nodes ..) (Lot.fixTail_lockState ..)
        (Lot.fixTail_head ..) (fun b hb => Lot.fixTail_of_ne _ _ _ _ hb) ⟨[target], hmem, rfl, ?_, ?_⟩) rfl
      · exact hstale.congr (by rw [Lot.fixTail_nodes])
      · rw [hq] at hlist ⊢
        exact tail_fix (List.perm_middle.nodup_iff.mpr (List.nodup_cons.mpr ⟨hleft, hlist.nodup⟩)) htail
  | loadCheck target =>
      cases hstep
      obtain ⟨rfl, hstale, htail⟩ := hknows
      exact Inv.quiet (h.readOne ht (check_locked ..)
        ⟨[target], hmem, check_knows hstale htail fun n hn => (At.head hlist hn).mem⟩) rfl
  | checkKey target check =>
      obtain ⟨rfl, hstale, htail, hcheck⟩ := hknows
      by_cases hkey : (s.mem.nodes check).key = address
      · rw [LinkedLot.unparkOne, if_pos hkey] at hstep
        cases hstep
        exact Inv.quiet (h.readOne ht rfl ⟨[target], hmem, rfl, hstale, htail⟩) rfl
      · rw [LinkedLot.unparkOne, if_neg hkey] at hstep
        cases hstep
        exact Inv.quiet (h.readOne ht rfl ⟨[target], hmem, rfl, hstale, htail, hcheck⟩) rfl
  | checkNext target check =>
      cases hstep
      obtain ⟨rfl, hstale, htail, hcheck⟩ := hknows
      exact Inv.quiet (h.readOne ht (check_locked ..)
        ⟨[target], hmem, check_knows hstale htail fun n hn => hlist.next_mem hcheck hn⟩) rfl
  | callback target result =>
      cases target with
      | none =>
          cases hstep
          exact Inv.quiet (h.readOne ht rfl ⟨taken, hmem, hknows⟩) rfl
      | some target =>
          cases hstep
          exact Inv.quiet (h.readOne ht rfl ⟨taken, hmem, hknows⟩) rfl
  | setFlag target result =>
      cases hstep
      obtain ⟨rfl, hstale, htail⟩ := hknows
      refine ⟨_, h.flag ht .unparkOne ((hmem target).mp List.mem_cons_self) rfl rfl rfl
        fun taken hknows' => ?_⟩
      obtain ⟨rfl, -⟩ := hknows'
      exact ⟨[], by simp, rfl, htail⟩
  | unlockBucket target result =>
      obtain ⟨rfl, htail⟩ := hknows
      cases target with
      | none =>
          cases hstep
          exact Inv.quiet (h.unlock ht (.leave rfl fun m hm => nomatch (hmem m).mpr hm) rfl rfl htail
            ⟨[], hmem, rfl⟩) rfl
      | some target =>
          cases hstep
          exact Inv.quiet (h.unlock ht .unparkOne rfl rfl htail ⟨[], hmem, rfl⟩) rfl
  | wake target result =>
      cases hstep
      obtain rfl : taken = [] := hknows
      exact Inv.quiet (h.read ht (.leave rfl fun m hm => nomatch (hmem m).mpr hm) rfl ⟨[], hmem, rfl⟩) rfl

/-- A step inside `unpark_all` that writes nothing, and changes no lock. -/
theorem Inv.readAll {address : U64} {pc pc' : UnparkAllPc Node} (h : Inv owner queue s w)
    (ht : s.thread t = .unparkAll address pc) (hlocked : pc'.locked = pc.locked)
    (knows : ∃ taken, (∀ n, n ∈ taken ↔ w.Taken t n) ∧
      UnparkAllKnows s.mem address (queue (hashAddress address)) taken pc') :
    Inv owner queue (s.move t s.mem (.unparkAll address pc')) w :=
  h.read ht .unparkAll (by rw [Pc.bucket, Pc.bucket, hlocked]) knows

/-- A step inside `unpark_all` that writes to the link of a node the thread has taken. -/
theorem Inv.relink {address : U64} {pc pc' : UnparkAllPc Node} {lot' : Lot Node} (h : Inv owner queue s w)
    (ht : s.thread t = .unparkAll address pc) (hlocked : pc'.locked = pc.locked)
    (hbuckets : lot'.buckets = s.mem.buckets) (hkey : lot'.key = s.mem.key)
    (hflag : lot'.wakeFlag = s.mem.wakeFlag) (hnodes : ∀ m, ¬ w.Taken t m → lot'.nodes m = s.mem.nodes m)
    (knows : ∃ taken, (∀ n, n ∈ taken ↔ w.Taken t n) ∧
      UnparkAllKnows lot' address (queue (hashAddress address)) taken pc') :
    Inv owner queue (s.move t lot' (.unparkAll address pc')) w :=
  h.still ht .unparkAll (by rw [Pc.bucket, Pc.bucket, hlocked]) (fun _ => by rw [hbuckets])
    (fun _ => by rw [hbuckets]) (fun _ _ => by rw [hbuckets])
    (fun m hm => hnodes m fun htaken => hm (keeper_of_taken htaken))
    (fun _ _ => by rw [hkey, hflag]; exact ⟨rfl, rfl⟩) knows

theorem append_nodes_of_ne {lot : Lot Node} {p : Option Node} (hm : p ≠ some m) :
    (lot.append p n).nodes m = lot.nodes m := by
  cases p with
  | none => rfl
  | some tail => exact Function.update_of_ne (fun he => hm (by rw [he])) ..

section all

variable {address : U64} {l : Sweep Node} {curr : Node} {next : Option Node} {taken : List Node} {valid : Bool}
  {count : ℕ}

theorem Inv.unlinkAll (h : Inv owner queue s w) (ht : s.thread t = .unparkAll address (.unlink l curr next))
    (hknows : UnparkAllKnows s.mem address (queue (hashAddress address)) taken (.unlink l curr next)) :
    ∃ queue', Inv owner queue'
      (s.move t (s.mem.setLink address l.prev next) (.unparkAll address (.fixTail l curr next)))
      (w.push (Pc.event (w.call t (.unparkAll address (.unlink l curr next))) valid s.mem
        (.unparkAll address (.unlink l curr next)))) := by
  have hlist := h.list (hashAddress address)
  obtain ⟨hwake, htail, ⟨before, after, hq, hprev⟩, hkey, rfl⟩ := hknows
  rw [hq] at hlist htail
  have hunlink : Inv owner _ (s.move t (s.mem.setLink address before.getLast? (s.mem.next curr))
      (.unparkAll address (.fixTail l curr (s.mem.next curr)))) _ :=
    h.unlink ht .unparkAll rfl rfl rfl rfl hq hkey rfl fun taken hknows' hout => ?_
  · rw [hprev]
    exact ⟨_, hunlink⟩
  · obtain ⟨hwake, -⟩ := hknows'
    refine ⟨taken, rfl, fun hcurr => hout curr hcurr (by rw [hq]; simp), hwake.congr fun m hm =>
      Lot.setLink_next _ _ _ _ fun he => hout m hm ?_, ?_, before, after, ?_, hprev,
        Segment.next_eq hlist, ?_⟩
    · rw [hq]
      exact List.mem_append_left _ (List.mem_of_getLast? he)
    · rw [Function.update_self]
      exact stale_unlink hlist _
    · rw [Function.update_self]
    · rw [TailOf, Lot.setLink_tail]
      exact htail

theorem Inv.clearAll (h : Inv owner queue s w) (ht : s.thread t = .unparkAll address (.clear l curr next))
    (hmem : ∀ n, n ∈ taken ↔ w.Taken t n)
    (hknows : UnparkAllKnows s.mem address (queue (hashAddress address)) taken (.clear l curr next)) :
    ∃ queue', Inv owner queue' (s.move t (s.mem.setNext curr none) (.unparkAll address (.link l curr next)))
      (w.push (Pc.event (w.call t (.unparkAll address (.clear l curr next))) valid s.mem
        (.unparkAll address (.clear l curr next)))) := by
  obtain ⟨wake, rfl, hcurr, hwake, hstale, htail, hgap⟩ := hknows
  have hother : ∀ m, m ≠ curr → (s.mem.setNext curr none).nodes m = s.mem.nodes m :=
    fun m hm => Function.update_of_ne hm ..
  refine Inv.quiet (h.relink ht rfl rfl (Lot.setNext_key ..) (Lot.setNext_wakeFlag ..)
    (fun m hm => hother m ?_) ⟨curr :: wake, hmem, wake, rfl, hcurr,
      hwake.same fun m hm => hother m (ne_of_mem_of_not_mem hm hcurr), ?_, htail, hgap⟩) rfl
  · rintro rfl
    exact hm ((hmem m).mp List.mem_cons_self)
  · rw [Lot.setNext_next, Function.update_self]

theorem Inv.linkAll (h : Inv owner queue s w) (ht : s.thread t = .unparkAll address (.link l curr next))
    (hmem : ∀ n, n ∈ taken ↔ w.Taken t n)
    (hknows : UnparkAllKnows s.mem address (queue (hashAddress address)) taken (.link l curr next)) :
    ∃ queue', Inv owner queue'
      (s.move t (s.mem.append l.toWakeTail curr) (.unparkAll address (sweep (l.append curr) next)))
      (w.push (Pc.event (w.call t (.unparkAll address (.link l curr next))) valid s.mem
        (.unparkAll address (.link l curr next)))) := by
  obtain ⟨wake, rfl, hcurr, hwake, hnone, htail, before, after, hq, hprev, hnext⟩ := hknows
  refine Inv.quiet (h.relink ht (sweep_locked ..) (Lot.append_buckets ..) (Lot.append_key ..)
    (Lot.append_wakeFlag ..) (fun m hm => append_nodes_of_ne fun he => ?_) ⟨wake ++ [curr], fun n => ?_,
      sweep_knows (hwake.append hcurr hnone) ?_ fun n hn => ?_⟩) rfl
  · exact hm ((hmem m).mp (List.mem_cons_of_mem _ (hwake.mem (Or.inr he))))
  · rw [← hmem n, List.mem_append, List.mem_singleton, List.mem_cons, or_comm]
  · rw [TailOf, Lot.append_bucket]
    exact htail
  · rw [hn] at hnext
    obtain ⟨rest, rfl⟩ := List.head?_eq_some_iff.mp hnext.symm
    exact ⟨before, rest, hq, hprev⟩

theorem Inv.flagAll (h : Inv owner queue s w) (ht : s.thread t = .unparkAll address (.setFlag count curr next))
    (hmem : ∀ n, n ∈ taken ↔ w.Taken t n)
    (hknows : UnparkAllKnows s.mem address (queue (hashAddress address)) taken (.setFlag count curr next)) :
    ∃ queue', Inv owner queue'
      (s.move t (s.mem.setWakeFlag curr 1) (.unparkAll address (.wake count curr next)))
      (w.push (Pc.event (w.call t (.unparkAll address (.setFlag count curr next))) valid s.mem
        (.unparkAll address (.setFlag count curr next)))) := by
  obtain ⟨rest, rfl, hcurr, hnext, hrest⟩ := hknows
  refine ⟨_, h.flag ht .unparkAll ((hmem curr).mp List.mem_cons_self) rfl rfl rfl
    fun taken hknows' => ?_⟩
  obtain ⟨rest, rfl, hcurr, -, hrest⟩ := hknows'
  refine ⟨rest, fun m => ?_, hrest.congr fun m _ => ?_⟩
  · rw [List.mem_cons]
    constructor
    · exact fun hm => ⟨Or.inr hm, ne_of_mem_of_not_mem hm hcurr⟩
    · exact fun hm => hm.1.resolve_left hm.2
  · rw [Lot.setWakeFlag_next]

end all

theorem Inv.unparkAll {address : U64} {pc : UnparkAllPc Node} {valid : Bool} (h : Inv owner queue s w)
    (ht : s.thread t = .unparkAll address pc)
    (hstep : enter (.unparkAll address) (LinkedLot.unparkAll address s.mem pc) = (lot', th')) :
    ∃ queue', Inv owner queue' (s.move t lot' th')
      (w.push (Pc.event (w.call t (.unparkAll address pc)) valid s.mem (.unparkAll address pc))) := by
  obtain ⟨taken, hmem, hknows⟩ := h.knows t
  rw [ht] at hknows
  change UnparkAllKnows s.mem address (queue (hashAddress address)) taken pc at hknows
  have hlist := h.list (hashAddress address)
  have hdone : taken = [] → GoesOn owner w t (.unparkAll address pc) .idle := by
    rintro rfl
    exact .leave rfl fun m hm => nomatch (hmem m).mpr hm
  cases pc with
  | lockBucket =>
      obtain rfl : taken = [] := hknows
      by_cases hfree : (s.mem.bucket address).lockState = 0
      · rw [LinkedLot.unparkAll, LinkedLot.lockBucket, if_pos hfree] at hstep
        cases hstep
        exact Inv.quiet (h.lock ht .unparkAll hfree rfl rfl ⟨[], hmem, rfl, h.tails _ hfree⟩) rfl
      · rw [LinkedLot.unparkAll, LinkedLot.lockBucket, if_neg hfree] at hstep
        cases hstep
        exact Inv.quiet (h.readAll ht rfl ⟨[], hmem, rfl⟩) rfl
  | loadHead =>
      cases hstep
      obtain ⟨rfl, htail⟩ := hknows
      exact Inv.quiet (h.readAll ht (sweep_locked ..)
        ⟨[], hmem, sweep_knows ⟨rfl, rfl⟩ htail fun n hn => .head hlist hn⟩) rfl
  | next l curr =>
      cases hstep
      obtain ⟨hwake, htail, hat⟩ := hknows
      exact Inv.quiet (h.readAll ht rfl ⟨taken, hmem, hwake, htail, hat, rfl⟩) rfl
  | key l curr next =>
      obtain ⟨hwake, htail, hat, rfl⟩ := hknows
      by_cases hkey : (s.mem.nodes curr).key = address
      · rw [LinkedLot.unparkAll, if_pos hkey] at hstep
        cases hstep
        exact Inv.quiet (h.readAll ht rfl ⟨taken, hmem, hwake, htail, hat, hkey, rfl⟩) rfl
      · rw [LinkedLot.unparkAll, if_neg hkey] at hstep
        cases hstep
        exact Inv.quiet (h.readAll ht (sweep_locked ..) ⟨taken, hmem,
          sweep_knows ⟨hwake.list, hwake.last⟩ htail fun n hn => .next hlist hat.mem hn⟩) rfl
  | unlink l curr next =>
      cases hstep
      exact h.unlinkAll ht hknows
  | fixTail l curr next =>
      cases hstep
      obtain ⟨wake, rfl, hcurr, hwake, hstale, before, after, hq, hprev, hnext, htail⟩ := hknows
      have hleft : curr ∉ before ++ after := by
        rw [← hq]
        exact h.taken_notMem ((hmem curr).mp List.mem_cons_self)
      refine Inv.quiet (h.retail ht .unparkAll rfl rfl (Lot.fixTail_nodes ..) (Lot.fixTail_lockState ..)
        (Lot.fixTail_head ..) (fun b hb => Lot.fixTail_of_ne _ _ _ _ hb) ⟨curr :: wake, hmem, wake, rfl,
          hcurr, hwake.same fun _ _ => ?_, ?_, ?_, before, after, hq, hprev, hnext⟩) rfl
      · rw [Lot.fixTail_nodes]
      · exact hstale.congr (by rw [Lot.fixTail_nodes])
      · rw [hq] at hlist ⊢
        rw [hprev]
        exact tail_fix (List.perm_middle.nodup_iff.mpr (List.nodup_cons.mpr ⟨hleft, hlist.nodup⟩)) htail
  | clear l curr next =>
      cases hstep
      exact h.clearAll ht hmem hknows
  | link l curr next =>
      cases hstep
      exact h.linkAll ht hmem hknows
  | unlockBucket l =>
      obtain ⟨hwake, htail⟩ := hknows
      have hwakes := hwake.list
      rw [LinkedLot.unparkAll] at hstep
      cases hhead : l.toWakeHead with
      | none =>
          rw [hhead] at hstep hwakes
          cases hstep
          obtain rfl : taken = [] := List.head?_eq_none_iff.mp hwakes.head.symm
          exact Inv.quiet (h.unlock ht (hdone rfl) rfl rfl htail ⟨[], hmem, rfl⟩) rfl
      | some curr =>
          rw [hhead] at hstep hwakes
          cases hstep
          exact Inv.quiet (h.unlock ht .unparkAll rfl rfl htail ⟨taken, hmem, hwakes⟩) rfl
  | wakeNext count curr =>
      cases hstep
      have hnodup := Segment.nodup hknows
      obtain ⟨rest, rfl⟩ := List.head?_eq_some_iff.mp (Segment.head hknows).symm
      exact Inv.quiet (h.readAll ht rfl ⟨curr :: rest, hmem, rest, rfl, (List.nodup_cons.mp hnodup).1, rfl,
        hknows.2⟩) rfl
  | setFlag count curr next =>
      cases hstep
      exact h.flagAll ht hmem hknows
  | wake count curr next =>
      cases next with
      | none =>
          cases hstep
          obtain rfl : taken = [] := List.head?_eq_none_iff.mp (Segment.head hknows).symm
          exact Inv.quiet (h.read ht (hdone rfl) rfl ⟨[], hmem, rfl⟩) rfl
      | some next =>
          cases hstep
          exact Inv.quiet (h.readAll ht rfl ⟨taken, hmem, hknows⟩) rfl

/-! ### The kernel -/

variable (owner) in
theorem afterWait_eq (th : Pc Node) : (program owner).afterWait th = th ∨
    ∃ address node, th = .park address node .wait ∧
      (program owner).afterWait th = .park address node .load := by
  cases th with
  | idle => exact Or.inl rfl
  | unparkOne address pc => exact Or.inl rfl
  | unparkAll address pc => exact Or.inl rfl
  | park address node pc =>
      cases pc with
      | wait => exact Or.inr ⟨address, node, rfl, rfl⟩
      | _ => exact Or.inl rfl

variable (owner) in
/-- What does not tell a thread in the kernel from one at the load of its flag is kept by a wake. -/
theorem resume_thread_same {γ : Type*} {p : Pc Node → γ}
    (hp : ∀ address node, p (.park address node .load) = p (.park address node .wait))
    (s : Process Tid Node) (woken : Finset Tid) (u : Tid) :
    p (((program owner).resume s woken).thread u) = p (s.thread u) := by
  refine (program owner).resume_same (fun th => ?_) s woken u
  rcases afterWait_eq owner th with heq | ⟨address, node, rfl, heq⟩
  · rw [heq]
  · rw [heq]
    exact hp address node

theorem Inv.resume (h : Inv owner queue s w) (woken : Finset Tid) :
    Inv owner queue ((program owner).resume s woken) w := by
  have hbucket := resume_thread_same owner (p := Pc.bucket) (fun _ _ => rfl) s woken
  have hlinked := resume_thread_same owner (p := Pc.linked) (fun _ _ => rfl) s woken
  have haddress := resume_thread_same owner (p := Pc.address) (fun _ _ => rfl) s woken
  refine ⟨fun b => (h.guard b).congr Iff.rfl fun u => by rw [hbucket u], h.list, h.tails, h.queued,
    fun u address n pc hth => ?_, fun n => ?_, fun n unpark hlast => ?_, h.trace, fun u => ?_⟩
  · rw [Program.resume_thread] at hth
    split_ifs at hth
    · rcases afterWait_eq owner (s.thread u) with heq | ⟨address', node, hwait, heq⟩
      · exact h.owned u address n pc (by rw [← heq, hth])
      · cases heq.symm.trans hth
        exact h.owned u address n .wait hwait
    · exact h.owned u address n pc hth
  · rw [History.call, haddress, hlinked]
    exact h.stage n
  · rw [History.call, haddress]
    exact h.calls n unpark hlast
  · obtain ⟨taken, hmem, hknows⟩ := h.knows u
    have hsame := resume_thread_same owner (p := Knows s.mem queue taken) (fun _ _ => rfl) s woken u
    exact ⟨taken, hmem, hsame.mpr hknows⟩

/-- The kernel wakes no thread that is at a wake itself. -/
theorem resume_thread_wake {c : WakeCall (Pc Node) Node} (hwake : wake (s.thread t) = some c)
    (woken : Finset Tid) : ((program owner).resume s woken).thread t = s.thread t := by
  rw [Program.resume_thread]
  split_ifs
  · rcases afterWait_eq owner (s.thread t) with heq | ⟨address, node, hwait, -⟩
    · exact heq
    · rw [hwait] at hwake
      cases hwake
  · rfl

theorem Inv.wake (h : Inv owner queue s w) {c : WakeCall (Pc Node) Node}
    (hwake : LinkedLot.wake (s.thread t) = some c) :
    ∃ queue', Inv owner queue' (s.move t s.mem c.after) w := by
  cases hth : s.thread t with
  | idle =>
      rw [hth] at hwake
      cases hwake
  | park address node pc =>
      rw [hth] at hwake
      cases hwake
  | unparkOne address pc =>
      rw [hth] at hwake
      cases pc with
      | wake target result =>
          cases hwake
          have hstep : ∃ queue', Inv owner queue' (s.move t s.mem .idle)
              (w.push (Pc.event _ true s.mem (.unparkOne address (.wake target result)))) :=
            h.unparkOne hth rfl
          exact hstep
      | _ => cases hwake
  | unparkAll address pc =>
      rw [hth] at hwake
      cases pc with
      | wake count curr next =>
          cases hwake
          have hstep : ∃ queue', Inv owner queue'
              (s.move t (enter (.unparkAll address) (wakeAll s.mem count next)).1
                (enter (.unparkAll address) (wakeAll s.mem count next)).2)
              (w.push (Pc.event _ true s.mem (.unparkAll address (.wake count curr next)))) :=
            h.unparkAll hth rfl
          cases next with
          | none => exact hstep
          | some next => exact hstep
      | _ => cases hwake

/-! ### Runs -/

theorem run_unparkOne {valid : Bool} {lot : Lot Node} {address : U64} {pc : UnparkPc Node}
    (h : run valid lot (.unparkOne address pc) = some (lot', th')) :
    enter (.unparkOne address) (unparkOne address lot pc) = (lot', th') := by
  cases pc with
  | wake target result => cases h
  | _ => exact Option.some.inj h

theorem run_unparkAll {valid : Bool} {lot : Lot Node} {address : U64} {pc : UnparkAllPc Node}
    (h : run valid lot (.unparkAll address pc) = some (lot', th')) :
    enter (.unparkAll address) (unparkAll address lot pc) = (lot', th') := by
  cases pc with
  | wake count curr next => cases h
  | _ => exact Option.some.inj h

theorem Inv.run (h : Inv owner queue s w) {valid : Bool}
    (hstep : LinkedLot.run valid s.mem (s.thread t) = some (lot', th')) :
    ∃ queue', Inv owner queue' (s.move t lot' th')
      (w.push ((s.thread t).event (w.call t (s.thread t)) valid s.mem)) := by
  cases hth : s.thread t with
  | idle =>
      rw [hth] at hstep
      cases hstep
  | park address node pc =>
      rw [hth] at hstep
      exact h.park hth hstep
  | unparkOne address pc =>
      rw [hth] at hstep
      exact h.unparkOne hth (run_unparkOne hstep)
  | unparkAll address pc =>
      rw [hth] at hstep
      exact h.unparkAll hth (run_unparkAll hstep)

theorem Inv.next {s s' : Process Tid Node × History Tid Node} {a : Act Tid (Label Node)}
    (h : Inv owner queue s.1 s.2) (hnext : (observed owner).next s a = some s') :
    ∃ queue', Inv owner queue' s'.1 s'.2 := by
  obtain ⟨s, w⟩ := s
  obtain ⟨s', w'⟩ := s'
  obtain ⟨hnext, hrecord⟩ := Machine.observe_next hnext
  dsimp only at h hnext hrecord
  rw [hrecord]
  have htransition := (program owner).transition_of_next hnext
  clear hnext hrecord
  cases htransition with
  | sleep awake hwait holds =>
      exact ⟨queue, h.guard, h.list, h.tails, h.queued, h.owned, h.stage, h.calls, h.trace, h.knows⟩
  | ret hwait => exact ⟨queue, h.resume _⟩
  | wake awake hwake chosen =>
      rename_i t c woken
      refine Inv.wake (s := (program owner).resume s woken) (h.resume woken) ?_
      rw [resume_thread_wake hwake]
      exact hwake
  | requeue awake hrequeue => cases hrequeue
  | refused awake hrequeue => cases hrequeue
  | step awake hstep =>
      rename_i t l lot' th'
      change step owner t l s.mem (s.thread t) = some (lot', th') at hstep
      cases l with
      | park address node =>
          simp only [step, Option.ite_none_right_eq_some, Option.some.injEq, Prod.mk.injEq] at hstep
          obtain ⟨⟨hidle, howner⟩, rfl, rfl⟩ := hstep
          refine ⟨queue, h.begin hidle rfl rfl ?_ ⟨rfl, trivial⟩⟩
          rintro _ _ _ ⟨⟩
          exact howner
      | unparkOne address =>
          simp only [step, Option.ite_none_right_eq_some, Option.some.injEq, Prod.mk.injEq] at hstep
          obtain ⟨hidle, rfl, rfl⟩ := hstep
          exact ⟨queue, h.begin hidle rfl rfl nofun rfl⟩
      | unparkAll address =>
          simp only [step, Option.ite_none_right_eq_some, Option.some.injEq, Prod.mk.injEq] at hstep
          obtain ⟨hidle, rfl, rfl⟩ := hstep
          exact ⟨queue, h.begin hidle rfl rfl nofun rfl⟩
      | store node v =>
          simp only [step, Option.ite_none_right_eq_some, Option.some.injEq, Prod.mk.injEq] at hstep
          obtain ⟨⟨hidle, howner⟩, rfl, rfl⟩ := hstep
          exact ⟨queue, h.store hidle howner⟩
      | run valid => exact h.run hstep

theorem Inv.init : Inv owner (fun _ => []) (observed owner).init.1 (observed owner).init.2 where
  guard b := ⟨⟨fun h => absurd rfl h, fun ⟨_, hu⟩ => nomatch hu⟩, fun _ _ hu => nomatch hu⟩
  list b := rfl
  tails b _ := rfl
  queued n b := ⟨nofun, nofun⟩
  owned t address n pc h := nomatch h
  stage n := .fresh nofun
  calls n unpark h := nomatch h
  trace n l park l' h := by simp [observed, Machine.observe] at h
  knows t := ⟨[], fun n => ⟨nofun, fun ⟨_, h, _⟩ => nomatch h⟩, rfl⟩

/-- In every state that the threads can reach. -/
theorem inv_of_reachable {s : Process Tid Node × History Tid Node}
    (h : (observed owner).Reachable anyStep s) : ∃ queue, Inv owner queue s.1 s.2 := by
  refine h.induct (I := fun s => ∃ queue, Inv owner queue s.1 s.2) ⟨_, .init⟩ ?_
  rintro s a s' - ⟨queue, ih⟩ hnext -
  exact ih.next hnext

end Psync.LinkedLot
