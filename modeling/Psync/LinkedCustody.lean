import Psync.LinkedState
import Psync.LinkedThreads
import Psync.RunGuard

/-! Who may touch a node. At every moment a node is in the hands of one party: of the thread that owns
it, of the bucket that has it in its list, whose fields are for the holder of the bucket lock, or of
the thread that has removed it from the list and has not set its flag. What a thread knows in the
middle of a call is about the nodes in its hands, and so no other thread disturbs it. -/

namespace Psync.LinkedLot

open Concurrency
open ParkingLot (UnparkResult hashAddress)

set_option linter.unusedSectionVars false

variable {Tid Node : Type*}

/-! ### The lock of a bucket -/

def ParkPc.locked : ParkPc → Bool
  | .lockBucket | .load | .wait => false
  | _ => true

def UnparkPc.locked : UnparkPc Node → Bool
  | .lockBucket | .wake .. => false
  | _ => true

def UnparkAllPc.locked : UnparkAllPc Node → Bool
  | .lockBucket | .wakeNext .. | .setFlag .. | .wake .. => false
  | _ => true

/-- The bucket whose lock a thread holds. -/
def Pc.bucket : Pc Node → Option U64
  | .idle => none
  | .park address _ pc => if pc.locked then some (hashAddress address) else none
  | .unparkOne address pc => if pc.locked then some (hashAddress address) else none
  | .unparkAll address pc => if pc.locked then some (hashAddress address) else none

@[simp] theorem scan_locked (prev curr : Option Node) : (scan prev curr).locked = true := by
  cases curr <;> rfl

@[simp] theorem check_locked (target : Node) (curr : Option Node) : (check target curr).locked = true := by
  cases curr <;> rfl

@[simp] theorem sweep_locked (l : Sweep Node) (curr : Option Node) : (sweep l curr).locked = true := by
  cases curr <;> rfl

/-! ### The party that has a node -/

def History.last (w : History Tid Node) (n : Node) : Option (Event Tid) := (w.log n).head?

/-- The thread, or the bucket, that has the node. -/
def History.keeper (owner : Node → Tid) (w : History Tid Node) (n : Node) : Tid ⊕ U64 :=
  match w.last n with
  | some (.linked park) => .inr (hashAddress park.address)
  | some (.removed unpark) => .inl unpark.tid
  | _ => .inl (owner n)

/-- Thread `t` has removed the node from its bucket, and has not set its flag. -/
def History.Taken (w : History Tid Node) (t : Tid) (n : Node) : Prop :=
  ∃ unpark, w.last n = some (.removed unpark) ∧ unpark.tid = t

/-- The fields of the node are for thread `t`. -/
def Mine (owner : Node → Tid) (s : Process Tid Node) (w : History Tid Node) (t : Tid) (n : Node) : Prop :=
  w.keeper owner n = .inl t ∨ ∃ b, w.keeper owner n = .inr b ∧ (s.thread t).bucket = some b

/-- The events of a node in the course of one `park`. `park` is the call its owner is in, and `linked`
says that the call is past its link. -/
inductive Stage (lot : Lot Node) (n : Node) (park : Call Tid) (linked : Prop) : List (Event Tid) → Prop
  | fresh (out : ¬ linked) : Stage lot n park linked []
  | linked {l : List (Event Tid)} (parked : linked) (flag : lot.wakeFlag n = 0)
      (key : lot.key n = park.address) : Stage lot n park linked (.linked park :: l)
  | removed {l : List (Event Tid)} {unpark : Call Tid} (parked : linked) (flag : lot.wakeFlag n = 0)
      (address : unpark.address = park.address) :
      Stage lot n park linked (.removed unpark :: .linked park :: l)
  | flagged {l : List (Event Tid)} {unpark : Call Tid} (parked : linked) (flag : lot.wakeFlag n ≠ 0)
      (address : unpark.address = park.address) :
      Stage lot n park linked (.flagged unpark :: .removed unpark :: .linked park :: l)
  | returned {l : List (Event Tid)} {park' : Call Tid} (out : ¬ linked) :
      Stage lot n park linked (.returned park' :: l)

/-- Every `park` that has returned true was released by one unpark, which removed the node and set the
flag after the `park` had linked it. -/
def Trace (log : List (Event Tid)) : Prop :=
  ∀ l park l', log = l ++ .returned park :: l' → ∃ unpark l'',
    l' = .flagged unpark :: .removed unpark :: .linked park :: l'' ∧ unpark.address = park.address

/-! ### What a thread knows -/

/-- The scan of the list `q` is at `curr`, and `prev` is the node before it. -/
def At (q : List Node) (prev : Option Node) (curr : Node) : Prop :=
  ∃ before after, q = before ++ curr :: after ∧ prev = before.getLast?

/-- The `next` of a node that has left the list `q` still leads into it. -/
def Stale (lot : Lot Node) (q : List Node) (n : Node) : Prop := ∀ m, lot.next n = some m → m ∈ q

/-- The tail of the bucket is the last node of its list. -/
def TailOf (lot : Lot Node) (address : U64) (q : List Node) : Prop :=
  (lot.bucket address).tail = q.getLast?

def ParkKnows (lot : Lot Node) (address : U64) (node : Node) (q : List Node) : ParkPc → Prop
  | .lockBucket | .load | .wait => True
  | .validate | .abort | .setKey | .unlockBucket => TailOf lot address q
  | .setFlag => TailOf lot address q ∧ lot.key node = address
  | .setNext => TailOf lot address q ∧ lot.key node = address ∧ lot.wakeFlag node = 0
  | .link => TailOf lot address q ∧ lot.key node = address ∧ lot.wakeFlag node = 0 ∧ lot.next node = none
  | .setTail => q.getLast? = some node ∧ ∀ m, (lot.bucket address).tail = some m → m ∈ q

/-- `taken` are the nodes that the thread has removed and not yet flagged. -/
def UnparkKnows (lot : Lot Node) (address : U64) (q taken : List Node) : UnparkPc Node → Prop
  | .lockBucket | .wake .. => taken = []
  | .loadHead | .callback none _ | .unlockBucket .. => taken = [] ∧ TailOf lot address q
  | .key prev curr => taken = [] ∧ TailOf lot address q ∧ At q prev curr
  | .next curr => taken = [] ∧ TailOf lot address q ∧ curr ∈ q
  | .loadNext prev target => taken = [] ∧ TailOf lot address q ∧ At q prev target ∧ lot.key target = address
  | .unlink prev target next => taken = [] ∧ TailOf lot address q ∧ At q prev target ∧
      lot.key target = address ∧ next = lot.next target
  | .fixTail prev target => taken = [target] ∧ Stale lot q target ∧ ∃ before after, q = before ++ after ∧
      prev = before.getLast? ∧ TailOf lot address (before ++ target :: after)
  | .loadCheck target | .callback (some target) _ | .setFlag target _ =>
      taken = [target] ∧ Stale lot q target ∧ TailOf lot address q
  | .checkKey target check | .checkNext target check =>
      taken = [target] ∧ Stale lot q target ∧ TailOf lot address q ∧ check ∈ q

def UnparkAllKnows (lot : Lot Node) (address : U64) (q taken : List Node) : UnparkAllPc Node → Prop
  | .lockBucket => taken = []
  | .loadHead => taken = [] ∧ TailOf lot address q
  | .next l curr => ToWake lot l taken ∧ TailOf lot address q ∧ At q l.prev curr
  | .key l curr next => ToWake lot l taken ∧ TailOf lot address q ∧ At q l.prev curr ∧ next = lot.next curr
  | .unlink l curr next => ToWake lot l taken ∧ TailOf lot address q ∧ At q l.prev curr ∧
      lot.key curr = address ∧ next = lot.next curr
  | .fixTail l curr next => ∃ wake, taken = curr :: wake ∧ curr ∉ wake ∧ ToWake lot l wake ∧
      Stale lot q curr ∧ ∃ before after, q = before ++ after ∧ l.prev = before.getLast? ∧
        next = after.head? ∧ TailOf lot address (before ++ curr :: after)
  | .clear l curr next => ∃ wake, taken = curr :: wake ∧ curr ∉ wake ∧ ToWake lot l wake ∧
      Stale lot q curr ∧ TailOf lot address q ∧
        ∃ before after, q = before ++ after ∧ l.prev = before.getLast? ∧ next = after.head?
  | .link l curr next => ∃ wake, taken = curr :: wake ∧ curr ∉ wake ∧ ToWake lot l wake ∧
      lot.next curr = none ∧ TailOf lot address q ∧
        ∃ before after, q = before ++ after ∧ l.prev = before.getLast? ∧ next = after.head?
  | .unlockBucket l => ToWake lot l taken ∧ TailOf lot address q
  | .wakeNext _ curr => Segment lot.next (some curr) taken none
  | .setFlag _ curr next => ∃ rest, taken = curr :: rest ∧ curr ∉ rest ∧ lot.next curr = next ∧
      Segment lot.next next rest none
  | .wake _ _ next => Segment lot.next next taken none

/-- What a thread at a position knows about the list of its bucket, and about the nodes it has taken. -/
def Knows (lot : Lot Node) (queue : U64 → List Node) (taken : List Node) : Pc Node → Prop
  | .idle => taken = []
  | .park address node pc => taken = [] ∧ ParkKnows lot address node (queue (hashAddress address)) pc
  | .unparkOne address pc => UnparkKnows lot address (queue (hashAddress address)) taken pc
  | .unparkAll address pc => UnparkAllKnows lot address (queue (hashAddress address)) taken pc

/-! ### The scans -/

section scans

variable {lot : Lot Node} {b : U64} {q : List Node} {prev : Option Node} {curr n : Node}

theorem At.mem (h : At q prev curr) : curr ∈ q := by
  obtain ⟨before, after, rfl, -⟩ := h
  simp

theorem At.prev_mem (h : At q prev curr) (hn : prev = some n) : n ∈ q := by
  obtain ⟨before, after, rfl, rfl⟩ := h
  exact List.mem_append_left _ (List.mem_of_getLast? hn)

/-- The scan begins at the head. -/
theorem At.head (hq : lot.Queue b q) (hn : (lot.buckets b).head = some n) : At q none n := by
  have hhead := hq.head
  rw [hn] at hhead
  obtain ⟨after, rfl⟩ := List.head?_eq_some_iff.mp hhead.symm
  exact ⟨[], after, rfl, rfl⟩

/-- The scan goes on to the next node. -/
theorem At.next (hq : lot.Queue b q) (hcurr : curr ∈ q) (hn : lot.next curr = some n) :
    At q (some curr) n := by
  obtain ⟨before, after, rfl⟩ := List.append_of_mem hcurr
  rw [Segment.next_eq hq] at hn
  obtain ⟨rest, rfl⟩ := List.head?_eq_some_iff.mp hn
  exact ⟨before ++ [curr], rest, by simp, by simp⟩

end scans

/-! ### Frames -/

section frames

variable {lot lot' : Lot Node} {address : U64} {q q' taken : List Node} {n : Node}

theorem next_congr (h : lot'.nodes n = lot.nodes n) : lot'.next n = lot.next n := congrArg WaiterNode.next h

theorem key_congr (h : lot'.nodes n = lot.nodes n) : lot'.key n = lot.key n := congrArg WaiterNode.key h

theorem wakeFlag_congr (h : lot'.nodes n = lot.nodes n) : lot'.wakeFlag n = lot.wakeFlag n :=
  congrArg WaiterNode.wakeFlag h

theorem Stale.congr (h : Stale lot q n) (hn : lot'.nodes n = lot.nodes n) : Stale lot' q n := by
  intro m hm
  rw [next_congr hn] at hm
  exact h m hm

/-- What a thread in `park` knows depends on its bucket, and on its node as long as it has not linked
it. -/
theorem ParkKnows.congr {pc : ParkPc} (h : ParkKnows lot address n q pc)
    (hbucket : pc.locked = true → q' = q ∧ (lot'.bucket address).tail = (lot.bucket address).tail)
    (hn : (Pc.park address n pc).linked = none → lot'.nodes n = lot.nodes n) :
    ParkKnows lot' address n q' pc := by
  cases hpc : pc.locked with
  | false =>
      cases pc with
      | lockBucket => trivial
      | load => trivial
      | wait => trivial
      | _ => cases hpc
  | true =>
      obtain ⟨rfl, htail⟩ := hbucket hpc
      cases pc with
      | lockBucket => cases hpc
      | load => cases hpc
      | wait => cases hpc
      | validate => exact htail.trans h
      | abort => exact htail.trans h
      | setKey => exact htail.trans h
      | unlockBucket => exact htail.trans h
      | setTail => exact ⟨h.1, by rw [htail]; exact h.2⟩
      | setFlag => exact ⟨htail.trans h.1, by rw [key_congr (hn rfl), h.2]⟩
      | setNext =>
          obtain ⟨hq, hkey, hflag⟩ := h
          exact ⟨htail.trans hq, by rw [key_congr (hn rfl), hkey], by rw [wakeFlag_congr (hn rfl), hflag]⟩
      | link =>
          obtain ⟨hq, hkey, hflag, hnext⟩ := h
          exact ⟨htail.trans hq, by rw [key_congr (hn rfl), hkey], by rw [wakeFlag_congr (hn rfl), hflag],
            by rw [next_congr (hn rfl), hnext]⟩

/-- What a thread in `unpark_one` knows depends on its bucket, and on the node it has taken. -/
theorem UnparkKnows.congr {pc : UnparkPc Node} (h : UnparkKnows lot address q taken pc)
    (hbucket : pc.locked = true → q' = q ∧ (lot'.bucket address).tail = (lot.bucket address).tail ∧
      ∀ n ∈ q, lot'.nodes n = lot.nodes n)
    (htaken : ∀ n ∈ taken, lot'.nodes n = lot.nodes n) : UnparkKnows lot' address q' taken pc := by
  cases hpc : pc.locked with
  | false =>
      cases pc with
      | lockBucket => exact h
      | wake target result => exact h
      | _ => cases hpc
  | true =>
      obtain ⟨rfl, htail, hq⟩ := hbucket hpc
      cases pc with
      | lockBucket => cases hpc
      | wake target result => cases hpc
      | loadHead => exact ⟨h.1, htail.trans h.2⟩
      | unlockBucket target result => exact ⟨h.1, htail.trans h.2⟩
      | key prev curr => exact ⟨h.1, htail.trans h.2.1, h.2.2⟩
      | next curr => exact ⟨h.1, htail.trans h.2.1, h.2.2⟩
      | loadNext prev target =>
          obtain ⟨hnone, hlast, hat, hkey⟩ := h
          exact ⟨hnone, htail.trans hlast, hat, by rw [key_congr (hq _ hat.mem), hkey]⟩
      | unlink prev target next =>
          obtain ⟨hnone, hlast, hat, hkey, hnext⟩ := h
          exact ⟨hnone, htail.trans hlast, hat, by rw [key_congr (hq _ hat.mem), hkey],
            by rw [next_congr (hq _ hat.mem), hnext]⟩
      | fixTail prev target =>
          obtain ⟨rfl, hstale, before, after, hlist, hprev, hlast⟩ := h
          exact ⟨rfl, hstale.congr (htaken _ (by simp)), before, after, hlist, hprev, htail.trans hlast⟩
      | loadCheck target =>
          obtain ⟨rfl, hstale, hlast⟩ := h
          exact ⟨rfl, hstale.congr (htaken _ (by simp)), htail.trans hlast⟩
      | setFlag target result =>
          obtain ⟨rfl, hstale, hlast⟩ := h
          exact ⟨rfl, hstale.congr (htaken _ (by simp)), htail.trans hlast⟩
      | checkKey target check =>
          obtain ⟨rfl, hstale, hlast, hcheck⟩ := h
          exact ⟨rfl, hstale.congr (htaken _ (by simp)), htail.trans hlast, hcheck⟩
      | checkNext target check =>
          obtain ⟨rfl, hstale, hlast, hcheck⟩ := h
          exact ⟨rfl, hstale.congr (htaken _ (by simp)), htail.trans hlast, hcheck⟩
      | callback target result =>
          cases target with
          | none => exact ⟨h.1, htail.trans h.2⟩
          | some target =>
              obtain ⟨rfl, hstale, hlast⟩ := h
              exact ⟨rfl, hstale.congr (htaken _ (by simp)), htail.trans hlast⟩

theorem ToWake.same [DecidableEq Node] {l : Sweep Node} {wake : List Node} (h : ToWake lot l wake)
    (hsame : ∀ n ∈ wake, lot'.nodes n = lot.nodes n) : ToWake lot' l wake :=
  h.congr fun n hn => next_congr (hsame n hn)

/-- What a thread in `unpark_all` knows depends on its bucket, and on the nodes it has taken. -/
theorem UnparkAllKnows.congr [DecidableEq Node] {pc : UnparkAllPc Node}
    (h : UnparkAllKnows lot address q taken pc)
    (hbucket : pc.locked = true → q' = q ∧ (lot'.bucket address).tail = (lot.bucket address).tail ∧
      ∀ n ∈ q, lot'.nodes n = lot.nodes n)
    (htaken : ∀ n ∈ taken, lot'.nodes n = lot.nodes n) : UnparkAllKnows lot' address q' taken pc := by
  cases hpc : pc.locked with
  | false =>
      cases pc with
      | lockBucket => exact h
      | wakeNext count curr => exact Segment.congr h fun n hn => next_congr (htaken n hn)
      | setFlag count curr next =>
          obtain ⟨rest, rfl, hcurr, hnext, hrest⟩ := h
          exact ⟨rest, rfl, hcurr, by rw [next_congr (htaken _ List.mem_cons_self), hnext],
            hrest.congr fun n hn => next_congr (htaken n (List.mem_cons_of_mem _ hn))⟩
      | wake count curr next => exact Segment.congr h fun n hn => next_congr (htaken n hn)
      | _ => cases hpc
  | true =>
      obtain ⟨rfl, htail, hq⟩ := hbucket hpc
      cases pc with
      | lockBucket => cases hpc
      | wakeNext count curr => cases hpc
      | setFlag count curr next => cases hpc
      | wake count curr next => cases hpc
      | loadHead => exact ⟨h.1, htail.trans h.2⟩
      | next l curr => exact ⟨h.1.same htaken, htail.trans h.2.1, h.2.2⟩
      | key l curr next =>
          obtain ⟨hwake, hlast, hat, hnext⟩ := h
          exact ⟨hwake.same htaken, htail.trans hlast, hat, by rw [next_congr (hq _ hat.mem), hnext]⟩
      | unlink l curr next =>
          obtain ⟨hwake, hlast, hat, hkey, hnext⟩ := h
          exact ⟨hwake.same htaken, htail.trans hlast, hat, by rw [key_congr (hq _ hat.mem), hkey],
            by rw [next_congr (hq _ hat.mem), hnext]⟩
      | fixTail l curr next =>
          obtain ⟨wake, rfl, hcurr, hwake, hstale, before, after, hlist, hprev, hnext, hlast⟩ := h
          exact ⟨wake, rfl, hcurr, hwake.same fun n hn => htaken n (List.mem_cons_of_mem _ hn),
            hstale.congr (htaken _ List.mem_cons_self), before, after, hlist, hprev, hnext,
            htail.trans hlast⟩
      | clear l curr next =>
          obtain ⟨wake, rfl, hcurr, hwake, hstale, hlast, hgap⟩ := h
          exact ⟨wake, rfl, hcurr, hwake.same fun n hn => htaken n (List.mem_cons_of_mem _ hn),
            hstale.congr (htaken _ List.mem_cons_self), htail.trans hlast, hgap⟩
      | link l curr next =>
          obtain ⟨wake, rfl, hcurr, hwake, hnone, hlast, hgap⟩ := h
          exact ⟨wake, rfl, hcurr, hwake.same fun n hn => htaken n (List.mem_cons_of_mem _ hn),
            by rw [next_congr (htaken _ List.mem_cons_self), hnone], htail.trans hlast, hgap⟩
      | unlockBucket l => exact ⟨h.1.same htaken, htail.trans h.2⟩

/-- A step of another thread that leaves the bucket and the nodes of a thread alone. -/
theorem Knows.congr [DecidableEq Node] {queue queue' : U64 → List Node} {th : Pc Node}
    (h : Knows lot queue taken th)
    (hbucket : ∀ b, th.bucket = some b → queue' b = queue b ∧
      (lot'.buckets b).tail = (lot.buckets b).tail ∧ ∀ n ∈ queue b, lot'.nodes n = lot.nodes n)
    (htaken : ∀ n ∈ taken, lot'.nodes n = lot.nodes n)
    (hown : ∀ address node pc, th = .park address node pc → th.linked = none →
      lot'.nodes node = lot.nodes node) : Knows lot' queue' taken th := by
  cases th with
  | idle => exact h
  | park address node pc =>
      refine ⟨h.1, h.2.congr (fun hpc => ?_) (hown address node pc rfl)⟩
      obtain ⟨hq, htail, -⟩ := hbucket (hashAddress address) (by rw [Pc.bucket, hpc, if_pos rfl])
      exact ⟨hq, htail⟩
  | unparkOne address pc =>
      exact UnparkKnows.congr h (fun hpc => hbucket _ (by rw [Pc.bucket, hpc, if_pos rfl])) htaken
  | unparkAll address pc =>
      exact UnparkAllKnows.congr h (fun hpc => hbucket _ (by rw [Pc.bucket, hpc, if_pos rfl])) htaken

end frames

/-! ### Pointers -/

section pointers

variable {lot : Lot Node} {address b : U64} {q taken : List Node} {n m : Node}

theorem ToWake.mem [DecidableEq Node] {l : Sweep Node} {wake : List Node} (h : ToWake lot l wake)
    (hn : l.toWakeHead = some n ∨ l.toWakeTail = some n) : n ∈ wake := by
  rcases hn with hn | hn
  · exact List.mem_of_mem_head? (h.list.head.symm.trans hn)
  · exact List.mem_of_getLast? (h.last.symm.trans hn)

/-- The pointers of a thread in `unpark_one` lead into the list of its bucket, or to the node it has
taken. -/
theorem UnparkKnows.pointers {pc : UnparkPc Node} (h : UnparkKnows lot address q taken pc)
    (hq : lot.Queue b q) (hn : n ∈ pc.pointers) : n ∈ q ∨ n ∈ taken := by
  cases pc with
  | lockBucket => cases hn
  | loadHead => cases hn
  | unlockBucket target result => cases hn
  | wake target result => cases hn
  | key prev curr =>
      obtain ⟨-, -, hat⟩ := h
      rcases List.mem_cons.mp hn with rfl | hn
      · exact Or.inl hat.mem
      · exact Or.inl (hat.prev_mem (Option.mem_toList.mp hn))
  | next curr =>
      obtain rfl := List.mem_singleton.mp hn
      exact Or.inl h.2.2
  | loadNext prev target =>
      obtain ⟨-, -, hat, -⟩ := h
      rcases List.mem_cons.mp hn with rfl | hn
      · exact Or.inl hat.mem
      · exact Or.inl (hat.prev_mem (Option.mem_toList.mp hn))
  | unlink prev target next =>
      obtain ⟨-, -, hat, -, rfl⟩ := h
      rcases List.mem_cons.mp hn with rfl | hn
      · exact Or.inl hat.mem
      rcases List.mem_append.mp hn with hn | hn
      · exact Or.inl (hat.prev_mem (Option.mem_toList.mp hn))
      · exact Or.inl (Segment.next_mem hq hat.mem (Option.mem_toList.mp hn))
  | fixTail prev target =>
      obtain ⟨rfl, -, before, after, rfl, rfl, -⟩ := h
      rcases List.mem_cons.mp hn with rfl | hn
      · exact Or.inr List.mem_cons_self
      · exact Or.inl (List.mem_append_left _ (List.mem_of_getLast? (Option.mem_toList.mp hn)))
  | loadCheck target =>
      obtain ⟨rfl, -⟩ := h
      exact Or.inr hn
  | setFlag target result =>
      obtain ⟨rfl, -⟩ := h
      exact Or.inr hn
  | checkKey target check =>
      obtain ⟨rfl, -, -, hcheck⟩ := h
      rcases List.mem_cons.mp hn with rfl | hn
      · exact Or.inr List.mem_cons_self
      · rw [List.mem_singleton.mp hn]
        exact Or.inl hcheck
  | checkNext target check =>
      obtain ⟨rfl, -, -, hcheck⟩ := h
      rcases List.mem_cons.mp hn with rfl | hn
      · exact Or.inr List.mem_cons_self
      · rw [List.mem_singleton.mp hn]
        exact Or.inl hcheck
  | callback target result =>
      cases target with
      | none => cases hn
      | some target =>
          obtain ⟨rfl, -⟩ := h
          exact Or.inr hn

/-- The locals of the scan of `unpark_all`. -/
theorem sweep_pointers [DecidableEq Node] {l : Sweep Node} {wake : List Node} (h : ToWake lot l wake)
    (hprev : ∀ m, l.prev = some m → m ∈ q)
    (hn : n ∈ l.prev.toList ++ l.toWakeHead.toList ++ l.toWakeTail.toList) : n ∈ q ∨ n ∈ wake := by
  simp only [List.mem_append, Option.mem_toList] at hn
  rcases hn with (hn | hn) | hn
  · exact Or.inl (hprev n hn)
  · exact Or.inr (h.mem (Or.inl hn))
  · exact Or.inr (h.mem (Or.inr hn))

/-- The pointers of a thread in `unpark_all` lead into the list of its bucket, or into the list of the
nodes it has taken. -/
theorem UnparkAllKnows.pointers [DecidableEq Node] {pc : UnparkAllPc Node}
    (h : UnparkAllKnows lot address q taken pc) (hq : lot.Queue b q) (hn : n ∈ pc.pointers) :
    n ∈ q ∨ n ∈ taken := by
  -- the node that the scan has just taken, and the two sides of the gap it leaves
  have hgap : ∀ {l : Sweep Node} {curr : Node} {next : Option Node} {wake before after : List Node},
      ToWake lot l wake → q = before ++ after → l.prev = before.getLast? → next = after.head? →
      n ∈ curr :: (next.toList ++ l.prev.toList ++ l.toWakeHead.toList ++ l.toWakeTail.toList) →
      n ∈ q ∨ n ∈ curr :: wake := by
    rintro l curr next wake before after hwake rfl hprev rfl hn
    rcases List.mem_cons.mp hn with rfl | hn
    · exact Or.inr List.mem_cons_self
    rw [List.append_assoc, List.append_assoc, List.mem_append, ← List.append_assoc] at hn
    rcases hn with hn | hn
    · exact Or.inl (List.mem_append_right _ (List.mem_of_mem_head? (Option.mem_toList.mp hn)))
    refine (sweep_pointers hwake (fun m hm => ?_) hn).imp id (List.mem_cons_of_mem _)
    exact List.mem_append_left _ (List.mem_of_getLast? (hprev.symm.trans hm))
  have hscan : ∀ {l : Sweep Node} {curr : Node} {next : Option Node}, ToWake lot l taken →
      At q l.prev curr → next = lot.next curr →
      n ∈ curr :: (next.toList ++ l.prev.toList ++ l.toWakeHead.toList ++ l.toWakeTail.toList) →
      n ∈ q ∨ n ∈ taken := by
    rintro l curr next hwake hat rfl hn
    rcases List.mem_cons.mp hn with rfl | hn
    · exact Or.inl hat.mem
    rw [List.append_assoc, List.append_assoc, List.mem_append, ← List.append_assoc] at hn
    rcases hn with hn | hn
    · exact Or.inl (Segment.next_mem hq hat.mem (Option.mem_toList.mp hn))
    · exact sweep_pointers hwake (fun m hm => hat.prev_mem hm) hn
  cases pc with
  | lockBucket => cases hn
  | loadHead => cases hn
  | next l curr =>
      obtain ⟨hwake, -, hat⟩ := h
      rcases List.mem_cons.mp hn with rfl | hn
      · exact Or.inl hat.mem
      · exact sweep_pointers hwake (fun m hm => hat.prev_mem hm) hn
  | key l curr next =>
      obtain ⟨hwake, -, hat, hnext⟩ := h
      exact hscan hwake hat hnext hn
  | unlink l curr next =>
      obtain ⟨hwake, -, hat, -, hnext⟩ := h
      exact hscan hwake hat hnext hn
  | fixTail l curr next =>
      obtain ⟨wake, rfl, -, hwake, -, before, after, hlist, hprev, hnext, -⟩ := h
      exact hgap hwake hlist hprev hnext hn
  | clear l curr next =>
      obtain ⟨wake, rfl, -, hwake, -, -, before, after, hlist, hprev, hnext⟩ := h
      exact hgap hwake hlist hprev hnext hn
  | link l curr next =>
      obtain ⟨wake, rfl, -, hwake, -, -, before, after, hlist, hprev, hnext⟩ := h
      exact hgap hwake hlist hprev hnext hn
  | unlockBucket l => exact Or.inr (h.1.mem (Or.inl (Option.mem_toList.mp hn)))
  | wakeNext count curr =>
      rw [List.mem_singleton.mp hn]
      exact Or.inr (List.mem_of_mem_head? (Segment.head h).symm)
  | setFlag count curr next =>
      obtain ⟨rest, rfl, -, -, hrest⟩ := h
      rcases List.mem_cons.mp hn with rfl | hn
      · exact Or.inr List.mem_cons_self
      · exact Or.inr (List.mem_cons_of_mem _
          (List.mem_of_mem_head? (hrest.head.symm.trans (Option.mem_toList.mp hn))))
  | wake count curr next =>
      exact Or.inr (List.mem_of_mem_head? ((Segment.head h).symm.trans (Option.mem_toList.mp hn)))

theorem Knows.pointers [DecidableEq Node] {queue : U64 → List Node} {th : Pc Node}
    (h : Knows lot queue taken th) (hq : ∀ b, lot.Queue b (queue b)) (hn : n ∈ th.pointers) :
    (∃ b, n ∈ queue b) ∨ n ∈ taken := by
  cases th with
  | idle => cases hn
  | park address node pc => cases hn
  | unparkOne address pc => exact (UnparkKnows.pointers h (hq _) hn).imp_left fun hn => ⟨_, hn⟩
  | unparkAll address pc => exact (UnparkAllKnows.pointers h (hq _) hn).imp_left fun hn => ⟨_, hn⟩

theorem TailOf.mem (h : TailOf lot address q) (hn : (lot.bucket address).tail = some n) : n ∈ q :=
  List.mem_of_getLast? (h.symm.trans hn)

theorem ParkKnows.tail {pc : ParkPc} (h : ParkKnows lot address m q pc) (hpc : pc.locked = true)
    (hn : (lot.bucket address).tail = some n) : n ∈ q := by
  cases pc with
  | lockBucket => cases hpc
  | load => cases hpc
  | wait => cases hpc
  | validate => exact TailOf.mem h hn
  | abort => exact TailOf.mem h hn
  | setKey => exact TailOf.mem h hn
  | unlockBucket => exact TailOf.mem h hn
  | setFlag => exact h.1.mem hn
  | setNext => exact h.1.mem hn
  | link => exact h.1.mem hn
  | setTail => exact h.2 n hn

theorem TailOf.mem_gap {before after : List Node} (h : TailOf lot address (before ++ m :: after))
    (hn : (lot.bucket address).tail = some n) : n ∈ before ++ after ∨ n = m := by
  have hmem := h.mem hn
  simp only [List.mem_append, List.mem_cons] at hmem ⊢
  tauto

theorem UnparkKnows.tail {pc : UnparkPc Node} (h : UnparkKnows lot address q taken pc)
    (hpc : pc.locked = true) (hn : (lot.bucket address).tail = some n) : n ∈ q ∨ n ∈ taken := by
  cases pc with
  | lockBucket => cases hpc
  | wake target result => cases hpc
  | loadHead => exact Or.inl (h.2.mem hn)
  | unlockBucket target result => exact Or.inl (h.2.mem hn)
  | key prev curr => exact Or.inl (h.2.1.mem hn)
  | next curr => exact Or.inl (h.2.1.mem hn)
  | loadNext prev target => exact Or.inl (h.2.1.mem hn)
  | unlink prev target next => exact Or.inl (h.2.1.mem hn)
  | fixTail prev target =>
      obtain ⟨rfl, -, before, after, rfl, -, htail⟩ := h
      exact (htail.mem_gap hn).imp id fun he => List.mem_singleton.mpr he
  | loadCheck target => exact Or.inl (h.2.2.mem hn)
  | setFlag target result => exact Or.inl (h.2.2.mem hn)
  | checkKey target check => exact Or.inl (h.2.2.1.mem hn)
  | checkNext target check => exact Or.inl (h.2.2.1.mem hn)
  | callback target result =>
      cases target with
      | none => exact Or.inl (h.2.mem hn)
      | some target => exact Or.inl (h.2.2.mem hn)

theorem UnparkAllKnows.tail [DecidableEq Node] {pc : UnparkAllPc Node}
    (h : UnparkAllKnows lot address q taken pc) (hpc : pc.locked = true)
    (hn : (lot.bucket address).tail = some n) : n ∈ q ∨ n ∈ taken := by
  cases pc with
  | lockBucket => cases hpc
  | wakeNext count curr => cases hpc
  | setFlag count curr next => cases hpc
  | wake count curr next => cases hpc
  | loadHead => exact Or.inl (h.2.mem hn)
  | next l curr => exact Or.inl (h.2.1.mem hn)
  | key l curr next => exact Or.inl (h.2.1.mem hn)
  | unlink l curr next => exact Or.inl (h.2.1.mem hn)
  | fixTail l curr next =>
      obtain ⟨wake, rfl, -, -, -, before, after, rfl, -, -, htail⟩ := h
      exact (htail.mem_gap hn).imp id fun he => List.mem_cons.mpr (Or.inl he)
  | clear l curr next =>
      obtain ⟨wake, -, -, -, -, htail, -⟩ := h
      exact Or.inl (htail.mem hn)
  | link l curr next =>
      obtain ⟨wake, -, -, -, -, htail, -⟩ := h
      exact Or.inl (htail.mem hn)
  | unlockBucket l => exact Or.inl (h.2.mem hn)

/-- The tail of the bucket that a thread is in is in the list, or has just left it. -/
theorem Knows.tail [DecidableEq Node] {queue : U64 → List Node} {th : Pc Node}
    (h : Knows lot queue taken th) (hb : th.bucket = some b) (hn : (lot.buckets b).tail = some n) :
    n ∈ queue b ∨ n ∈ taken := by
  cases th with
  | idle => cases hb
  | park address node pc =>
      simp only [Pc.bucket, Option.ite_none_right_eq_some, Option.some.injEq] at hb
      obtain ⟨hpc, rfl⟩ := hb
      exact Or.inl (h.2.tail hpc hn)
  | unparkOne address pc =>
      simp only [Pc.bucket, Option.ite_none_right_eq_some, Option.some.injEq] at hb
      obtain ⟨hpc, rfl⟩ := hb
      exact UnparkKnows.tail h hpc hn
  | unparkAll address pc =>
      simp only [Pc.bucket, Option.ite_none_right_eq_some, Option.some.injEq] at hb
      obtain ⟨hpc, rfl⟩ := hb
      exact UnparkAllKnows.tail h hpc hn

theorem UnparkKnows.next {pc : UnparkPc Node} (h : UnparkKnows lot address q taken pc) (hn : n ∈ taken) :
    Stale lot q n := by
  have hone : ∀ {target : Node}, taken = [target] → Stale lot q target → Stale lot q n := by
    rintro target rfl hstale
    rwa [List.mem_singleton.mp hn]
  have hnone : taken ≠ [] := List.ne_nil_of_mem hn
  cases pc with
  | lockBucket => exact absurd h hnone
  | wake target result => exact absurd h hnone
  | loadHead => exact absurd h.1 hnone
  | unlockBucket target result => exact absurd h.1 hnone
  | key prev curr => exact absurd h.1 hnone
  | next curr => exact absurd h.1 hnone
  | loadNext prev target => exact absurd h.1 hnone
  | unlink prev target next => exact absurd h.1 hnone
  | fixTail prev target => exact hone h.1 h.2.1
  | loadCheck target => exact hone h.1 h.2.1
  | setFlag target result => exact hone h.1 h.2.1
  | checkKey target check => exact hone h.1 h.2.1
  | checkNext target check => exact hone h.1 h.2.1
  | callback target result =>
      cases target with
      | none => exact absurd h.1 hnone
      | some target => exact hone h.1 h.2.1

theorem UnparkAllKnows.next [DecidableEq Node] {pc : UnparkAllPc Node}
    (h : UnparkAllKnows lot address q taken pc) (hn : n ∈ taken) (hm : lot.next n = some m) :
    m ∈ q ∨ m ∈ taken := by
  have hlist : ∀ {p : Option Node}, Segment lot.next p taken none → m ∈ q ∨ m ∈ taken :=
    fun h => Or.inr (h.next_mem hn hm)
  -- the first node is the one just taken, and the others form a list
  have hcons : ∀ {curr : Node} {wake : List Node} {p : Option Node}, taken = curr :: wake →
      Segment lot.next p wake none → (lot.next curr = some m → m ∈ q ∨ m ∈ wake) →
      m ∈ q ∨ m ∈ taken := by
    rintro curr wake p rfl hwake hcurr
    rcases List.mem_cons.mp hn with rfl | hn
    · exact (hcurr hm).imp id (List.mem_cons_of_mem _)
    · exact Or.inr (List.mem_cons_of_mem _ (hwake.next_mem hn hm))
  cases pc with
  | lockBucket => exact absurd h (List.ne_nil_of_mem hn)
  | loadHead => exact absurd h.1 (List.ne_nil_of_mem hn)
  | next l curr => exact hlist h.1.list
  | key l curr next => exact hlist h.1.list
  | unlink l curr next => exact hlist h.1.list
  | fixTail l curr next =>
      obtain ⟨wake, htaken, -, hwake, hstale, -⟩ := h
      exact hcons htaken hwake.list fun hm => Or.inl (hstale m hm)
  | clear l curr next =>
      obtain ⟨wake, htaken, -, hwake, hstale, -⟩ := h
      exact hcons htaken hwake.list fun hm => Or.inl (hstale m hm)
  | link l curr next =>
      obtain ⟨wake, htaken, -, hwake, hnone, -⟩ := h
      refine hcons htaken hwake.list fun hm => ?_
      rw [hnone] at hm
      cases hm
  | unlockBucket l => exact hlist h.1.list
  | wakeNext count curr => exact hlist h
  | setFlag count curr next =>
      obtain ⟨rest, htaken, -, rfl, hrest⟩ := h
      exact hcons htaken hrest fun hm => Or.inr (List.mem_of_mem_head? (hrest.head.symm.trans hm))
  | wake count curr next => exact hlist h

/-- The links of the nodes that a thread has taken lead to other such nodes, or into the list of its
bucket. -/
theorem Knows.next [DecidableEq Node] {queue : U64 → List Node} {th : Pc Node}
    (h : Knows lot queue taken th) (hn : n ∈ taken) (hm : lot.next n = some m) :
    (∃ b, m ∈ queue b) ∨ m ∈ taken := by
  cases th with
  | idle =>
      obtain rfl : taken = [] := h
      cases hn
  | park address node pc =>
      obtain ⟨rfl, -⟩ := h
      cases hn
  | unparkOne address pc => exact Or.inl ⟨_, UnparkKnows.next h hn m hm⟩
  | unparkAll address pc => exact (UnparkAllKnows.next h hn hm).imp_left fun hm => ⟨_, hm⟩

end pointers

end Psync.LinkedLot
