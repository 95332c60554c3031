import Psync.LinkedCustody

/-! The invariant of the threads in the parking lot: every node is in the hands of one party, and every
thread knows what it needs about the nodes in its hands. `park` hands its node to the bucket, an unpark
takes it out of the bucket, and with the wake flag it goes back to its owner. -/

namespace Psync.LinkedLot

open Concurrency
open ParkingLot (UnparkResult hashAddress)

set_option linter.unusedSectionVars false

variable {Tid Node : Type*} [Fintype Tid] [DecidableEq Tid] [DecidableEq Node] {owner : Node → Tid}
  {queue queue' : U64 → List Node} {s : Process Tid Node} {w w' : History Tid Node} {t u : Tid}
  {lot' : Lot Node} {th' : Pc Node} {n m : Node}

/-- `queue` are the nodes of every bucket from head to tail. -/
structure Inv (owner : Node → Tid) (queue : U64 → List Node) (s : Process Tid Node)
    (w : History Tid Node) : Prop where
  guard : ∀ b, Guards ((s.mem.buckets b).lockState ≠ 0) (fun th => th.bucket = some b) s.thread
  list : ∀ b, s.mem.Queue b (queue b)
  tails : ∀ b, (s.mem.buckets b).lockState = 0 → (s.mem.buckets b).tail = (queue b).getLast?
  queued : ∀ n b, n ∈ queue b ↔ w.keeper owner n = .inr b
  owned : ∀ t address n pc, s.thread t = .park address n pc → owner n = t
  stage : ∀ n, Stage s.mem n (w.call (owner n) (s.thread (owner n)))
    ((s.thread (owner n)).linked = some n) (w.log n)
  calls : ∀ n unpark, w.last n = some (.removed unpark) →
    unpark = w.call unpark.tid (s.thread unpark.tid)
  trace : ∀ n, Trace (w.log n)
  knows : ∀ t, ∃ taken, (∀ n, n ∈ taken ↔ w.Taken t n) ∧ Knows s.mem queue taken (s.thread t)

/-! ### The hands a node is in -/

theorem keeper_of_linked {park : Call Tid} (h : w.last n = some (.linked park)) :
    w.keeper owner n = .inr (hashAddress park.address) := by
  rw [History.keeper, h]

theorem keeper_of_taken (h : w.Taken t n) : w.keeper owner n = .inl t := by
  obtain ⟨unpark, hlast, rfl⟩ := h
  rw [History.keeper, hlast]

theorem linked_of_keeper {b : U64} (h : w.keeper owner n = .inr b) :
    ∃ park, w.last n = some (.linked park) ∧ hashAddress park.address = b := by
  rw [History.keeper] at h
  split at h
  · rename_i park hlast
    exact ⟨park, hlast, Sum.inr.inj h⟩
  · cases h
  · cases h

theorem Stage.congr {lot lot' : Lot Node} {park park' : Call Tid} {linked linked' : Prop}
    {log : List (Event Tid)} (h : Stage lot n park linked log) (hlinked : linked' ↔ linked)
    (hsame : linked → lot'.wakeFlag n = lot.wakeFlag n ∧ lot'.key n = lot.key n ∧ park' = park) :
    Stage lot' n park' linked' log := by
  cases h with
  | fresh out => exact .fresh fun hl => out (hlinked.mp hl)
  | returned out => exact .returned fun hl => out (hlinked.mp hl)
  | linked parked flag key =>
      obtain ⟨hflag, hkey, rfl⟩ := hsame parked
      exact .linked (hlinked.mpr parked) (hflag.trans flag) (hkey.trans key)
  | removed parked flag address =>
      obtain ⟨hflag, -, rfl⟩ := hsame parked
      exact .removed (hlinked.mpr parked) (hflag.trans flag) address
  | flagged parked flag address =>
      obtain ⟨hflag, -, rfl⟩ := hsame parked
      exact .flagged (hlinked.mpr parked) (by rwa [hflag]) address

/-- Thread `t` goes from `th` to `th'` in the call it is in, or leaves the call with no node in its
hands. -/
structure GoesOn (owner : Node → Tid) (w : History Tid Node) (t : Tid) (th th' : Pc Node) : Prop where
  linked : th'.linked = th.linked
  owned : ∀ address n pc, th' = .park address n pc → owner n = t
  address : th'.address = th.address ∨ th.linked = none ∧ ∀ n, ¬ w.Taken t n

namespace GoesOn

variable {address : U64} {th : Pc Node}

theorem park {pc pc' : ParkPc} (howner : owner n = t)
    (hlinked : (Pc.park address n pc').linked = (Pc.park address n pc).linked) :
    GoesOn owner w t (.park address n pc) (.park address n pc') := by
  refine ⟨hlinked, ?_, Or.inl rfl⟩
  rintro _ _ _ ⟨⟩
  exact howner

theorem unparkOne {pc pc' : UnparkPc Node} :
    GoesOn owner w t (.unparkOne address pc) (.unparkOne address pc') := ⟨rfl, nofun, Or.inl rfl⟩

theorem unparkAll {pc pc' : UnparkAllPc Node} :
    GoesOn owner w t (.unparkAll address pc) (.unparkAll address pc') := ⟨rfl, nofun, Or.inl rfl⟩

theorem leave (hlinked : th.linked = none) (hnone : ∀ n, ¬ w.Taken t n) :
    GoesOn owner w t th .idle := ⟨hlinked.symm, nofun, Or.inr ⟨hlinked, hnone⟩⟩

end GoesOn

namespace Inv

variable (h : Inv owner queue s w)

include h

/-- A node is in the hands of one party. -/
theorem disjoint (ht : Mine owner s w t n) (hu : Mine owner s w u n) : t = u := by
  rcases ht with ht | ⟨b, ht, hbt⟩ <;> rcases hu with hu | ⟨b', hu, hbu⟩
  · exact Sum.inl.inj (ht.symm.trans hu)
  · cases ht.symm.trans hu
  · cases ht.symm.trans hu
  · obtain rfl := Sum.inr.inj (ht.symm.trans hu)
    exact (h.guard b).unique t u hbt hbu

theorem mine_of_queue {b : U64} (ht : (s.thread t).bucket = some b) (hn : n ∈ queue b) :
    Mine owner s w t n := Or.inr ⟨b, (h.queued n b).mp hn, ht⟩

/-- A node that its owner has not linked is in the hands of the owner. -/
theorem keeper_of_not_linked (hn : (s.thread (owner n)).linked ≠ some n) :
    w.keeper owner n = .inl (owner n) := by
  have hstage := h.stage n
  rw [History.keeper, History.last]
  generalize w.log n = log at hstage
  cases hstage with
  | fresh => rfl
  | returned => rfl
  | linked parked => exact absurd parked hn
  | removed parked => exact absurd parked hn
  | flagged parked => exact absurd parked hn

theorem live_of_queue {b : U64} (hn : n ∈ queue b) : Live owner s n := by
  obtain ⟨park, hlast, -⟩ := linked_of_keeper ((h.queued n b).mp hn)
  have hstage := h.stage n
  rw [History.last] at hlast
  generalize w.log n = log at hstage hlast
  cases hstage with
  | linked parked flag => exact ⟨parked, flag⟩
  | _ => cases hlast

theorem live_of_taken (hn : w.Taken t n) : Live owner s n := by
  obtain ⟨unpark, hlast, -⟩ := hn
  have hstage := h.stage n
  rw [History.last] at hlast
  generalize w.log n = log at hstage hlast
  cases hstage with
  | removed parked flag => exact ⟨parked, flag⟩
  | _ => cases hlast

/-- What another thread knows stays true when a thread changes only what is in its own hands. -/
theorem knows_other (hne : u ≠ t)
    (hbucket : ∀ b, (s.thread t).bucket ≠ some b →
      queue' b = queue b ∧ (lot'.buckets b).tail = (s.mem.buckets b).tail)
    (hnodes : ∀ m, ¬ Mine owner s w t m → lot'.nodes m = s.mem.nodes m)
    (htaken : ∀ n, w'.Taken u n ↔ w.Taken u n) :
    ∃ taken, (∀ n, n ∈ taken ↔ w'.Taken u n) ∧ Knows lot' queue' taken (s.thread u) := by
  obtain ⟨taken, hmem, hknows⟩ := h.knows u
  have hsame : ∀ {m}, Mine owner s w u m → lot'.nodes m = s.mem.nodes m :=
    fun hm => hnodes _ fun ht => hne (h.disjoint hm ht)
  refine ⟨taken, fun n => (hmem n).trans (htaken n).symm, hknows.congr (fun b hb => ?_) (fun m hm => ?_)
    fun address node pc hth hlinked => ?_⟩
  · obtain ⟨hq, htail⟩ := hbucket b fun ht => hne ((h.guard b).unique u t hb ht)
    exact ⟨hq, htail, fun m hm => hsame (h.mine_of_queue hb hm)⟩
  · exact hsame (Or.inl (keeper_of_taken ((hmem m).mp hm)))
  · have howner := h.owned u address node pc hth
    refine hsame (Or.inl ?_)
    rw [h.keeper_of_not_linked (by rw [howner, hlinked]; exact nofun), howner]

/-- A step that moves no node from hand to hand: the thread writes only to nodes in its own hands, and
to the lock and the tail of the bucket it is in. -/
theorem calm (hgo : GoesOn owner w t (s.thread t) th')
    (guard : ∀ b, Guards ((lot'.buckets b).lockState ≠ 0) (fun th => th.bucket = some b)
      (Function.update s.thread t th'))
    (heads : ∀ b, (lot'.buckets b).head = (s.mem.buckets b).head)
    (others : ∀ b, (s.thread t).bucket ≠ some b → (lot'.buckets b).tail = (s.mem.buckets b).tail)
    (tails : ∀ b, (s.thread t).bucket = some b → (lot'.buckets b).lockState = 0 →
      (lot'.buckets b).tail = (queue b).getLast?)
    (nodes : ∀ m, w.keeper owner m ≠ .inl t → lot'.nodes m = s.mem.nodes m)
    (kept : ∀ m, (s.thread (owner m)).linked = some m →
      lot'.wakeFlag m = s.mem.wakeFlag m ∧ lot'.key m = s.mem.key m)
    (knows : ∃ taken, (∀ n, n ∈ taken ↔ w.Taken t n) ∧ Knows lot' queue taken th') :
    Inv owner queue (s.move t lot' th') w where
  guard := guard
  list b := by
    have hcongr : Segment lot'.next (s.mem.buckets b).head (queue b) none :=
      Segment.congr (h.list b) fun m hm => next_congr (nodes m (by rw [(h.queued m b).mp hm]; exact nofun))
    rwa [← heads b] at hcongr
  tails b hb := by
    by_cases hin : (s.thread t).bucket = some b
    · exact tails b hin hb
    · rw [Config.move_mem, others b hin]
      refine h.tails b ?_
      by_contra hlock
      -- the holder of the lock still holds it
      obtain ⟨u, hu⟩ := (h.guard b).iff.mp hlock
      have hne : u ≠ t := by
        rintro rfl
        exact hin hu
      exact (guard b).iff.mpr ⟨u, by rwa [Function.update_of_ne hne]⟩ hb
  queued := h.queued
  owned u address n pc hth := by
    rw [Config.move_thread, Function.update_apply] at hth
    split_ifs at hth with hut
    · rw [hut]
      exact hgo.owned address n pc hth
    · exact h.owned u address n pc hth
  stage n := by
    refine (h.stage n).congr ?_ fun hlinked => ⟨(kept n hlinked).1, (kept n hlinked).2, ?_⟩
    · rw [Config.move_thread, apply_update_same (g := Pc.linked) hgo.linked]
    · rw [Config.move_thread, Function.update_apply]
      split_ifs with hut
      · rw [History.call, History.call, hut, (hgo.address.resolve_right fun hout => ?_)]
        rw [hut, hout.1] at hlinked
        cases hlinked
      · rfl
  calls n unpark hlast := by
    rw [Config.move_thread, Function.update_apply]
    split_ifs with hut
    · have hcall := h.calls n unpark hlast
      rw [History.call, hut] at hcall ⊢
      rwa [hgo.address.resolve_right fun hout => hout.2 n ⟨unpark, hlast, hut⟩]
    · exact h.calls n unpark hlast
  trace := h.trace
  knows u := by
    rw [Config.move_thread, Config.move_mem]
    by_cases hut : u = t
    · rw [hut, Function.update_self]
      exact knows
    · rw [Function.update_of_ne hut]
      exact h.knows_other hut (fun b hb => ⟨rfl, others b hb⟩)
        (fun m hm => nodes m fun hkeeper => hm (Or.inl hkeeper)) fun _ => Iff.rfl

variable {th : Pc Node} (ht : s.thread t = th) (hgo : GoesOn owner w t th th')

include ht hgo

/-- A step that takes and leaves no lock. -/
theorem still (hbucket : th'.bucket = th.bucket)
    (locks : ∀ b, (lot'.buckets b).lockState = (s.mem.buckets b).lockState)
    (heads : ∀ b, (lot'.buckets b).head = (s.mem.buckets b).head)
    (others : ∀ b, th.bucket ≠ some b → (lot'.buckets b).tail = (s.mem.buckets b).tail)
    (nodes : ∀ m, w.keeper owner m ≠ .inl t → lot'.nodes m = s.mem.nodes m)
    (kept : ∀ m, (s.thread (owner m)).linked = some m →
      lot'.wakeFlag m = s.mem.wakeFlag m ∧ lot'.key m = s.mem.key m)
    (knows : ∃ taken, (∀ n, n ∈ taken ↔ w.Taken t n) ∧ Knows lot' queue taken th') :
    Inv owner queue (s.move t lot' th') w := by
  subst ht
  refine h.calm hgo (fun b => (h.guard b).same (by rw [locks b]) (by rw [hbucket])) heads others
    (fun b hin hfree => ?_) nodes kept knows
  rw [locks b] at hfree
  exact absurd hfree ((h.guard b).iff.mpr ⟨t, hin⟩)

/-- A step that writes nothing. -/
theorem read (hbucket : th'.bucket = th.bucket)
    (knows : ∃ taken, (∀ n, n ∈ taken ↔ w.Taken t n) ∧ Knows s.mem queue taken th') :
    Inv owner queue (s.move t s.mem th') w :=
  h.still ht hgo hbucket (fun _ => rfl) (fun _ => rfl) (fun _ _ => rfl) (fun _ _ => rfl)
    (fun _ _ => ⟨rfl, rfl⟩) knows

/-- The tail of the bucket that a thread is in changes. -/
theorem retail {address : U64} (hin : th.bucket = some (hashAddress address))
    (hbucket : th'.bucket = th.bucket) (hnodes : lot'.nodes = s.mem.nodes)
    (hlock : (lot'.bucket address).lockState = (s.mem.bucket address).lockState)
    (hhead : (lot'.bucket address).head = (s.mem.bucket address).head)
    (hne : ∀ b, b ≠ hashAddress address → lot'.buckets b = s.mem.buckets b)
    (knows : ∃ taken, (∀ n, n ∈ taken ↔ w.Taken t n) ∧ Knows lot' queue taken th') :
    Inv owner queue (s.move t lot' th') w := by
  have hsame : ∀ b, (lot'.buckets b).lockState = (s.mem.buckets b).lockState ∧
      (lot'.buckets b).head = (s.mem.buckets b).head := by
    intro b
    by_cases hb : b = hashAddress address
    · rw [hb]
      exact ⟨hlock, hhead⟩
    · rw [hne b hb]
      exact ⟨rfl, rfl⟩
  refine h.still ht hgo hbucket (fun b => (hsame b).1) (fun b => (hsame b).2) (fun b hb => ?_)
    (fun m _ => by rw [hnodes]) (fun m _ => ?_) knows
  · rw [hne b fun he => hb (by rw [hin, he])]
  · exact ⟨wakeFlag_congr (by rw [hnodes]), key_congr (by rw [hnodes])⟩

/-- The lock of a bucket is taken or given back. -/
theorem relock {address : U64} {v : U32} (guard : ∀ b,
      Guards (((s.mem.setLockState address v).buckets b).lockState ≠ 0) (fun th => th.bucket = some b)
        (Function.update s.thread t th'))
    (tails : ∀ b, th.bucket = some b → (s.mem.buckets b).tail = (queue b).getLast?)
    (knows : ∃ taken, (∀ n, n ∈ taken ↔ w.Taken t n) ∧ Knows s.mem queue taken th') :
    Inv owner queue (s.move t (s.mem.setLockState address v) th') w := by
  subst ht
  have hsame : ∀ b, ((s.mem.setLockState address v).buckets b).head = (s.mem.buckets b).head ∧
      ((s.mem.setLockState address v).buckets b).tail = (s.mem.buckets b).tail := by
    intro b
    by_cases hb : b = hashAddress address
    · have hnew := s.mem.setLockState_bucket address v
      rw [Lot.bucket] at hnew
      rw [hb, hnew]
      exact ⟨rfl, rfl⟩
    · rw [Lot.setLockState, Lot.setBucket_of_ne _ _ _ hb]
      exact ⟨rfl, rfl⟩
  refine h.calm hgo guard (fun b => (hsame b).1) (fun b _ => (hsame b).2) (fun b hb _ => ?_)
    (fun _ _ => rfl) (fun _ _ => ⟨rfl, rfl⟩) ?_
  · rw [(hsame b).2, tails b hb]
  · obtain ⟨taken, hmem, hknows⟩ := knows
    exact ⟨taken, hmem, hknows.congr (fun b _ => ⟨rfl, (hsame b).2, fun _ _ => rfl⟩) (fun _ _ => rfl)
      fun _ _ _ _ _ => rfl⟩

theorem lock {address : U64} (hfree : (s.mem.bucket address).lockState = 0) (hout : th.bucket = none)
    (hin : th'.bucket = some (hashAddress address))
    (knows : ∃ taken, (∀ n, n ∈ taken ↔ w.Taken t n) ∧ Knows s.mem queue taken th') :
    Inv owner queue (s.move t (s.mem.setLockState address 1) th') w := by
  refine h.relock ht hgo (fun b => ?_) (fun _ hb => by cases hout.symm.trans hb) knows
  by_cases hb : b = hashAddress address
  · rw [hb]
    refine (h.guard _).enter (fun hlocked => hlocked hfree) ?_ hin
    change ((s.mem.setLockState address 1).bucket address).lockState ≠ 0
    rw [Lot.setLockState_bucket]
    exact show (1 : U32) ≠ 0 by decide
  · refine (h.guard b).same ?_ ?_
    · rw [Lot.setLockState, Lot.setBucket_of_ne _ _ _ hb]
    · rw [ht, hin, hout, Option.some.injEq]
      exact ⟨fun he => absurd he.symm hb, fun he => by cases he⟩

theorem unlock {address : U64} (hin : th.bucket = some (hashAddress address)) (hout : th'.bucket = none)
    (tail : TailOf s.mem address (queue (hashAddress address)))
    (knows : ∃ taken, (∀ n, n ∈ taken ↔ w.Taken t n) ∧ Knows s.mem queue taken th') :
    Inv owner queue (s.move t (s.mem.setLockState address 0) th') w := by
  refine h.relock ht hgo (fun b => ?_) (fun b hb => ?_) knows
  · by_cases hb : b = hashAddress address
    · rw [hb]
      refine (h.guard _).leave (by rw [ht, hin]) (fun hlocked => hlocked ?_) (by rw [hout]; simp)
      change ((s.mem.setLockState address 0).bucket address).lockState = 0
      rw [Lot.setLockState_bucket]
    · refine (h.guard b).same ?_ ?_
      · rw [Lot.setLockState, Lot.setBucket_of_ne _ _ _ hb]
      · rw [ht, hout, hin, Option.some.injEq]
        exact ⟨fun he => (by cases he), fun he => absurd he.symm hb⟩
  · obtain rfl := Option.some.inj (hb.symm.trans hin)
    exact tail

end Inv

/-! ### The steps that move a node from hand to hand -/

@[simp] theorem push_log_self {e : Event Tid} : (w.push (some (n, e))).log n = e :: w.log n :=
  Function.update_self ..

theorem push_log_of_ne {e : Event Tid} (hm : m ≠ n) : (w.push (some (n, e))).log m = w.log m :=
  Function.update_of_ne hm ..

@[simp] theorem push_last_self {e : Event Tid} : (w.push (some (n, e))).last n = some e := by
  rw [History.last, push_log_self]
  rfl

theorem push_last_of_ne {e : Event Tid} (hm : m ≠ n) : (w.push (some (n, e))).last m = w.last m := by
  rw [History.last, push_log_of_ne hm]
  rfl

@[simp] theorem push_call {e : Option (Node × Event Tid)} {th : Pc Node} :
    (w.push e).call t th = w.call t th := by
  cases e <;> rfl

theorem push_keeper_of_ne {e : Event Tid} (hm : m ≠ n) :
    (w.push (some (n, e))).keeper owner m = w.keeper owner m := by
  rw [History.keeper, History.keeper, push_last_of_ne hm]

/-- Only a thread that removes a node, or sets the flag of one it has removed, changes what is taken. -/
theorem push_taken_of_ne {e : Event Tid} (hm : m ≠ n) :
    (w.push (some (n, e))).Taken u m ↔ w.Taken u m := by
  rw [History.Taken, History.Taken, push_last_of_ne hm]

theorem push_taken_self {e : Event Tid} :
    (w.push (some (n, e))).Taken u n ↔ ∃ unpark, e = .removed unpark ∧ unpark.tid = u := by
  rw [History.Taken, push_last_self]
  simp

/-- An event that is no return adds nothing to show. -/
theorem Trace.push {log : List (Event Tid)} {e : Event Tid} (h : Trace log)
    (he : ∀ park, e = .returned park → ∃ unpark l, log = .flagged unpark :: .removed unpark ::
      .linked park :: l ∧ unpark.address = park.address) : Trace (e :: log) := by
  intro l park l' hlog
  cases l with
  | nil =>
      obtain ⟨rfl, rfl⟩ := List.cons.inj hlog
      exact he park rfl
  | cons e' l => exact h l park l' (List.cons.inj hlog).2

/-- A step that moves the node `n` from hand to hand: the thread had it in its hands, and writes only
to such nodes. -/
theorem Inv.pass {e : Event Tid} (h : Inv owner queue s w) (mine : Mine owner s w t n)
    (hbucket : th'.bucket = (s.thread t).bucket)
    (locks : ∀ b, (lot'.buckets b).lockState = (s.mem.buckets b).lockState)
    (list : ∀ b, lot'.Queue b (queue' b))
    (others : ∀ b, (s.thread t).bucket ≠ some b →
      queue' b = queue b ∧ (lot'.buckets b).tail = (s.mem.buckets b).tail)
    (queued : ∀ m b, m ∈ queue' b ↔ (w.push (some (n, e))).keeper owner m = .inr b)
    (nodes : ∀ m, ¬ Mine owner s w t m → lot'.nodes m = s.mem.nodes m)
    (kept : ∀ m, m ≠ n → lot'.wakeFlag m = s.mem.wakeFlag m ∧ lot'.key m = s.mem.key m)
    (linked : ∀ m, m ≠ n → (th'.linked = some m ↔ (s.thread t).linked = some m))
    (owned : ∀ address n pc, th' = .park address n pc → owner n = t)
    (address : th'.address = (s.thread t).address ∨ (∀ m, m ≠ n → (s.thread t).linked ≠ some m) ∧
      ∀ m, ¬ (w.push (some (n, e))).Taken t m)
    (calls : ∀ unpark, e = .removed unpark → unpark = w.call t (s.thread t))
    (stage : Stage lot' n (w.call (owner n) (Function.update s.thread t th' (owner n)))
      ((Function.update s.thread t th' (owner n)).linked = some n) (e :: w.log n))
    (trace : ∀ park, e = .returned park → ∃ unpark l, w.log n = .flagged unpark :: .removed unpark ::
      .linked park :: l ∧ unpark.address = park.address)
    (knows : ∃ taken, (∀ m, m ∈ taken ↔ (w.push (some (n, e))).Taken t m) ∧
      Knows lot' queue' taken th') :
    Inv owner queue' (s.move t lot' th') (w.push (some (n, e))) where
  guard b := (h.guard b).same (by rw [Config.move_mem, locks b]) (by rw [hbucket])
  list := list
  tails b hfree := by
    rw [Config.move_mem] at hfree ⊢
    rw [locks b] at hfree
    obtain ⟨hq, htail⟩ := others b fun hin => (h.guard b).iff.mpr ⟨t, hin⟩ hfree
    rw [hq, htail]
    exact h.tails b hfree
  queued := queued
  owned u address n pc hth := by
    rw [Config.move_thread, Function.update_apply] at hth
    split_ifs at hth with hut
    · rw [hut]
      exact owned address n pc hth
    · exact h.owned u address n pc hth
  stage m := by
    rw [push_call, Config.move_thread, Config.move_mem]
    by_cases hm : m = n
    · rw [hm, push_log_self]
      exact stage
    rw [push_log_of_ne hm]
    refine (h.stage m).congr ?_ fun hlinked => ⟨(kept m hm).1, (kept m hm).2, ?_⟩
    · rw [Function.update_apply]
      split_ifs with hut
      · rw [hut]
        exact linked m hm
      · exact Iff.rfl
    · rw [Function.update_apply]
      split_ifs with hut
      · rw [hut] at hlinked
        rw [History.call, History.call, hut, address.resolve_right fun hout => hout.1 m hm hlinked]
      · rfl
  calls m unpark hlast := by
    rw [push_call, Config.move_thread]
    have hcall : unpark = w.call unpark.tid (s.thread unpark.tid) := by
      by_cases hm : m = n
      · rw [hm, push_last_self] at hlast
        have := calls unpark (Option.some.inj hlast)
        rw [this]
        rfl
      · rw [push_last_of_ne hm] at hlast
        exact h.calls m unpark hlast
    rw [Function.update_apply]
    split_ifs with hut
    · rw [History.call, hut] at hcall ⊢
      rwa [address.resolve_right fun hout => hout.2 m ⟨unpark, hlast, hut⟩]
    · exact hcall
  trace m := by
    by_cases hm : m = n
    · rw [hm, push_log_self]
      exact (h.trace n).push trace
    · rw [push_log_of_ne hm]
      exact h.trace m
  knows u := by
    rw [Config.move_thread, Config.move_mem]
    by_cases hut : u = t
    · rw [hut, Function.update_self]
      exact knows
    rw [Function.update_of_ne hut]
    refine h.knows_other hut others nodes fun m => ?_
    by_cases hm : m = n
    · rw [hm, push_taken_self]
      constructor
      · rintro ⟨unpark, he, rfl⟩
        rw [calls unpark he] at hut
        exact absurd rfl hut
      · intro htaken
        exact absurd (h.disjoint mine (Or.inl (keeper_of_taken htaken))).symm hut
    · exact push_taken_of_ne hm

theorem setLink_nodes_of_ne {lot : Lot Node} {address : U64} {p r : Option Node} (hm : p ≠ some m) :
    (lot.setLink address p r).nodes m = lot.nodes m := by
  cases p with
  | none => rfl
  | some prev => exact Function.update_of_ne (fun he => hm (by rw [he])) ..

theorem setLink_lockStates {lot : Lot Node} {address b : U64} {p r : Option Node} :
    ((lot.setLink address p r).buckets b).lockState = (lot.buckets b).lockState := by
  by_cases hb : b = hashAddress address
  · rw [hb]
    exact lot.setLink_lockState address p r
  · rw [lot.setLink_of_ne address p r hb]

namespace Inv

variable (h : Inv owner queue s w)

include h

theorem queue_disjoint {b b' : U64} (hn : n ∈ queue b) (hn' : n ∈ queue b') : b = b' :=
  Sum.inr.inj (((h.queued n b).mp hn).symm.trans ((h.queued n b').mp hn'))

theorem taken_notMem {b : U64} (hn : w.Taken t n) : n ∉ queue b := by
  intro hmem
  cases (keeper_of_taken hn).symm.trans ((h.queued n b).mp hmem)

/-- A write to the list of one bucket leaves the lists of the others alone. -/
theorem list_of_ne {address b : U64} {p r : Option Node} (hb : b ≠ hashAddress address)
    (hp : ∀ m, p = some m → m ∈ queue (hashAddress address)) :
    (s.mem.setLink address p r).Queue b (queue b) := by
  have hcongr : Segment (s.mem.setLink address p r).next (s.mem.buckets b).head (queue b) none :=
    Segment.congr (h.list b) fun m hm => s.mem.setLink_next address p r
      fun hpm => hb (h.queue_disjoint hm (hp m hpm))
  rwa [Lot.Queue, s.mem.setLink_of_ne address p r hb]

/-- `park` links its node behind the tail. -/
theorem link {address : U64} (ht : s.thread t = .park address n .link) :
    Inv owner (Function.update queue (hashAddress address) (queue (hashAddress address) ++ [n]))
      (s.move t (s.mem.setLink address (s.mem.bucket address).tail (some n)) (.park address n .setTail))
      (w.push (some (n, .linked (w.call t (.park address n .link))))) := by
  rw [← ht]
  have howner := h.owned t address n .link ht
  obtain ⟨taken, hmem, hknows⟩ := h.knows t
  rw [ht] at hknows
  obtain ⟨rfl, htail, hkey, hflag, hnext⟩ := hknows
  have hin : (s.thread t).bucket = some (hashAddress address) := by rw [ht]; rfl
  have hout : (s.thread (owner n)).linked ≠ some n := by rw [howner, ht]; exact nofun
  have hkeeper : w.keeper owner n = .inl t := by rw [h.keeper_of_not_linked hout, howner]
  have hfresh : ∀ b, n ∉ queue b := by
    intro b hn
    cases hkeeper.symm.trans ((h.queued n b).mp hn)
  have hlast : ∀ m, (s.mem.bucket address).tail = some m → m ∈ queue (hashAddress address) := by
    intro m hm
    exact List.mem_of_getLast? (htail.symm.trans hm)
  refine h.pass (Or.inl hkeeper) (by rw [ht]; rfl) (fun _ => setLink_lockStates) (fun b => ?_)
    (fun b hb => ?_) (fun m b => ?_) (fun m hm => ?_) (fun m _ => ⟨?_, ?_⟩) (fun m hm => ?_)
    (fun _ _ _ hth => ?_) (Or.inl (by rw [ht]; rfl)) nofun ?_ nofun ⟨[], fun m => ?_, rfl, ?_⟩
  · by_cases hb : b = hashAddress address
    · rw [hb, Function.update_self]
      exact queue_link (h.list _) htail (hfresh _) hnext
    · rw [Function.update_of_ne hb]
      exact h.list_of_ne hb hlast
  · have hne : b ≠ hashAddress address := fun he => hb (by rw [hin, he])
    rw [Function.update_of_ne hne, s.mem.setLink_of_ne _ _ _ hne]
    exact ⟨rfl, rfl⟩
  · by_cases hm : m = n
    · rw [hm, keeper_of_linked push_last_self]
      by_cases hb : b = hashAddress address
      · rw [hb, Function.update_self, History.call, ht]
        simp [Pc.address]
      · rw [Function.update_of_ne hb, History.call, ht]
        simp [Pc.address, hfresh b, Ne.symm hb]
    · rw [push_keeper_of_ne hm, ← h.queued m b]
      by_cases hb : b = hashAddress address
      · rw [hb, Function.update_self]
        simp [hm]
      · rw [Function.update_of_ne hb]
  · exact setLink_nodes_of_ne fun hp => hm (h.mine_of_queue hin (hlast m hp))
  · rw [Lot.setLink_wakeFlag]
  · rw [Lot.setLink_key]
  · rw [ht]
    simp [Pc.linked, Ne.symm hm]
  · cases hth
    exact howner
  · rw [howner, Function.update_self, ht]
    exact .linked rfl (by rw [Lot.setLink_wakeFlag, hflag]) (by rw [Lot.setLink_key, hkey]; rfl)
  · by_cases hm : m = n
    · rw [hm, push_taken_self]
      simp
    · rw [push_taken_of_ne hm]
      exact hmem m
  · rw [Function.update_self]
    refine ⟨List.getLast?_concat, fun m hm => ?_⟩
    rw [Lot.setLink_tail] at hm
    exact List.mem_append_left _ (hlast m hm)

/-- A node leaves the list of its bucket. -/
theorem unlink {address : U64} {before after : List Node} {th : Pc Node} (ht : s.thread t = th)
    (hgo : GoesOn owner w t th th') (hin : th.bucket = some (hashAddress address))
    (haddress : th.address = address) (hcall : th'.address = address) (hout : th.linked = none)
    (hq : queue (hashAddress address) = before ++ n :: after) (hkey : s.mem.key n = address)
    (hbucket : th'.bucket = th.bucket)
    (knows : ∀ taken, Knows s.mem queue taken th → (∀ m ∈ taken, m ∉ queue (hashAddress address)) →
      Knows (s.mem.setLink address before.getLast? (s.mem.next n))
        (Function.update queue (hashAddress address) (before ++ after)) (n :: taken) th') :
    Inv owner (Function.update queue (hashAddress address) (before ++ after))
      (s.move t (s.mem.setLink address before.getLast? (s.mem.next n)) th')
      (w.push (some (n, .removed (w.call t th)))) := by
  subst ht
  have hn : n ∈ queue (hashAddress address) := by rw [hq]; simp
  have hprev : ∀ m, before.getLast? = some m → m ∈ queue (hashAddress address) := by
    intro m hm
    rw [hq]
    exact List.mem_append_left _ (List.mem_of_getLast? hm)
  have hnodup := (h.list (hashAddress address)).nodup
  rw [hq] at hnodup
  have hleft := (List.nodup_cons.mp (List.perm_middle.nodup_iff.mp hnodup)).1
  have hkeeper : (w.push (some (n, .removed (w.call t (s.thread t))))).keeper owner n = .inl t := by
    rw [History.keeper, push_last_self]
    rfl
  have hnew : ∀ b, n ∉ Function.update queue (hashAddress address) (before ++ after) b := by
    intro b hmem
    by_cases hb : b = hashAddress address
    · rw [hb, Function.update_self] at hmem
      exact hleft hmem
    · rw [Function.update_of_ne hb] at hmem
      exact hb (h.queue_disjoint hmem hn)
  refine h.pass (h.mine_of_queue hin hn) hbucket (fun _ => setLink_lockStates) (fun b => ?_)
    (fun b hb => ?_) (fun m b => ?_) (fun m hm => ?_) (fun m _ => ⟨?_, ?_⟩) (fun m hm => ?_) hgo.owned
    (Or.inl (hcall.trans haddress.symm)) (fun unpark he => ?_) ?_ nofun ?_
  · by_cases hb : b = hashAddress address
    · rw [hb, Function.update_self]
      have hlist := h.list (hashAddress address)
      rw [hq] at hlist
      exact queue_unlink hlist
    · rw [Function.update_of_ne hb]
      exact h.list_of_ne hb hprev
  · have hne : b ≠ hashAddress address := fun he => hb (by rw [hin, he])
    rw [Function.update_of_ne hne, s.mem.setLink_of_ne _ _ _ hne]
    exact ⟨rfl, rfl⟩
  · by_cases hm : m = n
    · rw [hm, hkeeper]
      exact ⟨fun hmem => absurd hmem (hnew b), nofun⟩
    · rw [push_keeper_of_ne hm, ← h.queued m b]
      by_cases hb : b = hashAddress address
      · rw [hb, Function.update_self, hq]
        simp [hm]
      · rw [Function.update_of_ne hb]
  · exact setLink_nodes_of_ne fun hp => hm (h.mine_of_queue hin (hprev m hp))
  · rw [Lot.setLink_wakeFlag]
  · rw [Lot.setLink_key]
  · rw [hgo.linked]
  · exact (Event.removed.inj he).symm
  · -- the owner is another thread, and still parked
    obtain ⟨park, hlast, hhash⟩ := linked_of_keeper ((h.queued n _).mp hn)
    have hstage := h.stage n
    rw [History.last] at hlast
    generalize w.log n = log at hstage hlast
    cases hstage with
    | linked parked flag key =>
        have hne : owner n ≠ t := by
          intro he
          rw [he, hout] at parked
          cases parked
        rw [Function.update_of_ne hne]
        refine .removed parked (by rw [Lot.setLink_wakeFlag, flag]) ?_
        rw [← key, hkey]
        exact haddress
    | _ => cases hlast
  · obtain ⟨taken, hmem, hknows⟩ := h.knows t
    refine ⟨n :: taken, fun m => ?_, knows taken hknows fun m hm => h.taken_notMem ((hmem m).mp hm)⟩
    rw [List.mem_cons, hmem m]
    by_cases hm : m = n
    · rw [hm, push_taken_self]
      exact ⟨fun _ => ⟨_, rfl, rfl⟩, fun _ => Or.inl rfl⟩
    · rw [push_taken_of_ne hm]
      simp [hm]

/-- The wake flag is set. From here on the owner may return. -/
theorem flag {th : Pc Node} (ht : s.thread t = th) (hgo : GoesOn owner w t th th') (htaken : w.Taken t n)
    (hout : th.linked = none) (hbucket : th'.bucket = th.bucket) (hcall : th'.address = th.address)
    (knows : ∀ taken, Knows s.mem queue taken th → ∃ taken', (∀ m, m ∈ taken' ↔ m ∈ taken ∧ m ≠ n) ∧
      Knows (s.mem.setWakeFlag n 1) queue taken' th') :
    Inv owner queue (s.move t (s.mem.setWakeFlag n 1) th')
      (w.push (some (n, .flagged (w.call t th)))) := by
  subst ht
  have hkeeper : w.keeper owner n = .inl t := keeper_of_taken htaken
  have hnew : (w.push (some (n, .flagged (w.call t (s.thread t))))).keeper owner n = .inl (owner n) := by
    rw [History.keeper, push_last_self]
  refine h.pass (Or.inl hkeeper) hbucket (fun _ => rfl) (fun b => setWakeFlag_queue.mpr (h.list b))
    (fun _ _ => ⟨rfl, rfl⟩) (fun m b => ?_) (fun m hm => ?_) (fun m hm => ⟨?_, ?_⟩) (fun m hm => ?_) hgo.owned
    (Or.inl hcall) nofun ?_ nofun ?_
  · by_cases hm : m = n
    · rw [hm, hnew, h.queued n b, hkeeper]
      exact ⟨nofun, nofun⟩
    · rw [push_keeper_of_ne hm]
      exact h.queued m b
  · have hne : m ≠ n := by
      rintro rfl
      exact hm (Or.inl hkeeper)
    exact Function.update_of_ne hne ..
  · rw [Lot.setWakeFlag_wakeFlag, Function.update_of_ne hm]
  · rw [Lot.setWakeFlag_key]
  · rw [hgo.linked]
  · obtain ⟨unpark, hlast, htid⟩ := htaken
    have hunpark := h.calls n unpark hlast
    have hstage := h.stage n
    rw [History.last] at hlast
    generalize w.log n = log at hstage hlast
    cases hstage with
    | removed parked flag address =>
        obtain rfl := Event.removed.inj (Option.some.inj hlast)
        have hne : owner n ≠ t := by
          intro he
          rw [he, hout] at parked
          cases parked
        rw [htid] at hunpark
        rw [Function.update_of_ne hne, ← hunpark]
        refine .flagged parked ?_ address
        rw [Lot.setWakeFlag_wakeFlag, Function.update_self]
        decide
    | _ => cases hlast
  · obtain ⟨taken, hmem, hknows⟩ := h.knows t
    obtain ⟨taken', hmem', hknows'⟩ := knows taken hknows
    refine ⟨taken', fun m => ?_, hknows'⟩
    rw [hmem' m, hmem m]
    by_cases hm : m = n
    · rw [hm, push_taken_self]
      simp
    · rw [push_taken_of_ne hm]
      simp [hm]

/-- `park` returns true. Its node has been removed and flagged by one call in the meantime. -/
theorem returned {address : U64} (ht : s.thread t = .park address n .load) (hflag : s.mem.wakeFlag n ≠ 0) :
    Inv owner queue (s.move t s.mem .idle)
      (w.push (some (n, .returned (w.call t (.park address n .load))))) := by
  rw [← ht]
  have howner := h.owned t address n .load ht
  obtain ⟨taken, hmem, hknows⟩ := h.knows t
  rw [ht] at hknows
  obtain ⟨rfl, -⟩ := hknows
  obtain ⟨unpark, l, hlog, haddress⟩ : ∃ unpark l, w.log n = .flagged unpark :: .removed unpark ::
      .linked (w.call t (s.thread t)) :: l ∧ unpark.address = (w.call t (s.thread t)).address := by
    have hstage := h.stage n
    rw [howner] at hstage
    generalize w.log n = log at hstage ⊢
    cases hstage with
    | fresh out => exact absurd (by rw [ht]; rfl) out
    | returned out => exact absurd (by rw [ht]; rfl) out
    | linked parked flag => exact absurd flag hflag
    | removed parked flag => exact absurd flag hflag
    | flagged parked flag address => exact ⟨_, _, rfl, address⟩
  have hkeeper : w.keeper owner n = .inl t := by
    rw [History.keeper, History.last, hlog, ← howner]
    rfl
  have hnew : (w.push (some (n, .returned (w.call t (s.thread t))))).keeper owner n = .inl (owner n) := by
    rw [History.keeper, push_last_self]
  have hnone : ∀ m, ¬ (w.push (some (n, .returned (w.call t (s.thread t))))).Taken t m := by
    intro m hm
    by_cases hmn : m = n
    · rw [hmn, push_taken_self] at hm
      obtain ⟨unpark, he, -⟩ := hm
      cases he
    · rw [push_taken_of_ne hmn] at hm
      cases (hmem m).mpr hm
  refine h.pass (Or.inl hkeeper) (by rw [ht]; rfl) (fun _ => rfl) h.list (fun _ _ => ⟨rfl, rfl⟩)
    (fun m b => ?_) (fun _ _ => rfl) (fun _ _ => ⟨rfl, rfl⟩) (fun m hm => ?_) nofun
    (Or.inr ⟨fun m hm => ?_, hnone⟩) nofun (.returned ?_) (fun park he => ?_)
    ⟨[], fun m => ⟨nofun, fun hm => absurd hm (hnone m)⟩, rfl⟩
  · by_cases hm : m = n
    · rw [hm, hnew, h.queued n b, hkeeper]
      exact ⟨nofun, nofun⟩
    · rw [push_keeper_of_ne hm]
      exact h.queued m b
  · rw [ht]
    simp [Pc.linked, Ne.symm hm]
  · rw [ht]
    simp [Pc.linked, Ne.symm hm]
  · rw [howner, Function.update_self]
    exact nofun
  · obtain rfl := Event.returned.inj he
    exact ⟨unpark, l, hlog, haddress⟩

/-- A call begins. -/
theorem begin (ht : s.thread t = .idle) (hbucket : th'.bucket = none) (hlinked : th'.linked = none)
    (owned : ∀ address n pc, th' = .park address n pc → owner n = t)
    (knows : Knows s.mem queue [] th') : Inv owner queue (s.move t s.mem th') (w.begin t) := by
  obtain ⟨taken, hmem, rfl⟩ : ∃ taken, (∀ n, n ∈ taken ↔ w.Taken t n) ∧ taken = [] := by
    obtain ⟨taken, hmem, hknows⟩ := h.knows t
    rw [ht] at hknows
    exact ⟨taken, hmem, hknows⟩
  have hgo : GoesOn owner w t .idle th' :=
    ⟨hlinked, owned, Or.inr ⟨rfl, fun n hn => nomatch (hmem n).mpr hn⟩⟩
  have hidle : Inv owner queue (s.move t s.mem th') w := h.read ht hgo hbucket ⟨[], hmem, knows⟩
  have hcall : ∀ u, u ≠ t → ∀ th : Pc Node, (w.begin t).call u th = w.call u th := by
    intro u hu th
    rw [History.call, History.begin]
    dsimp only
    rw [Function.update_of_ne hu]
    rfl
  refine ⟨hidle.guard, hidle.list, hidle.tails, hidle.queued, hidle.owned, fun n => ?_,
    fun n unpark hlast => ?_, hidle.trace, hidle.knows⟩
  · refine (hidle.stage n).congr Iff.rfl fun hn => ⟨rfl, rfl, hcall _ (fun he => ?_) _⟩
    rw [Config.move_thread, he, Function.update_self, hlinked] at hn
    cases hn
  · rw [hcall _ fun he => ?_]
    · exact hidle.calls n unpark hlast
    · cases (hmem n).mpr ⟨unpark, hlast, he⟩

/-- The owner writes to a node that is not in use. -/
theorem store {v : WaiterNode Node} (ht : s.thread t = .idle) (howner : owner n = t) :
    Inv owner queue (s.move t (s.mem.setNode n v) .idle) w := by
  have hkeeper : w.keeper owner n = .inl t := by
    rw [h.keeper_of_not_linked (by rw [howner, ht]; exact nofun), howner]
  have hsame : ∀ m, m ≠ n → (s.mem.setNode n v).nodes m = s.mem.nodes m :=
    fun m hm => Function.update_of_ne hm ..
  refine h.still ht ⟨rfl, nofun, Or.inl rfl⟩ rfl (fun _ => rfl) (fun _ => rfl) (fun _ _ => rfl)
    (fun m hm => hsame m ?_) (fun m hm => ?_) ?_
  · rintro rfl
    exact hm hkeeper
  · have hne : m ≠ n := by
      rintro rfl
      rw [howner, ht] at hm
      cases hm
    exact ⟨wakeFlag_congr (hsame m hne), key_congr (hsame m hne)⟩
  · obtain ⟨taken, hmem, hknows⟩ := h.knows t
    rw [ht] at hknows
    exact ⟨taken, hmem, hknows⟩

end Inv

end Psync.LinkedLot
