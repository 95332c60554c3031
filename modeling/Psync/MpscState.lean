import Psync.MpscHistory
import Psync.RunGuard

/-! Every step of the queue keeps the invariant of its ring, provided that a winning CAS finds its slot
ready: one lemma for each step that claims, marks, writes or recycles, and one for all others. -/

namespace Psync.MPSCQueue

open Concurrency MachineWord

set_option linter.unusedSectionVars false

variable {V Tid : Type*} [DecidableEq Tid] {k : ℕ} {consumer t : Tid} {m m' : Mem V}
  {f : Tid → Pc V} {h h' : History V Tid} {pc pc' : Pc V} {c : Push V} {head : U64}

/-! ### The steps of the queue -/

theorem Inv.returned_same (h' : Inv k consumer m f h) (hitem : pc'.item = (f t).item) :
    h.popped = h.returned ++ (Function.update f t pc' consumer).item := by
  rw [apply_update_same (g := Pc.item) hitem]
  exact h'.returned

/-- A step between positions that own nothing, which leaves the ring. -/
theorem Inv.quiet (h' : Inv k consumer m f h) (hhead : m'.head = m.head) (htail : m'.tail = m.tail)
    (hbuffer : m'.buffer = m.buffer) (hstage : ∀ ph, (f t).stage = some ph → ph.pending = false)
    (hstage' : pc'.stage = none) (htaking : (f t).taking = 0) (htaking' : pc'.taking = 0)
    (htail' : pc'.tail = none) (hitem : (f t).item = []) (hitem' : pc'.item = [])
    (hsolo : pc'.popping = true → t = consumer) : Inv k consumer m' (Function.update f t pc') h where
  head := by rw [hhead, h'.head]
  tail := by
    rw [htail, apply_update_same (g := Pc.taking) (by rw [htaking, htaking']), h'.tail]
  window := h'.window
  popped := by
    have := taken_le pc'
    have := taken_le (f t)
    rw [apply_update_same (g := Pc.taken) (by omega)]
    exact h'.popped
  returned := h'.returned_same (by rw [hitem, hitem'])
  ready p hp := by
    rw [apply_update_same (g := Pc.taking) (by rw [htaking, htaking'])] at hp
    exact h'.ready p hp
  sequence p hp hp' := by
    rw [hbuffer]
    exact h'.sequence p hp hp'
  data p c hp hready hc := by
    have := taken_le pc'
    have := taken_le (f t)
    rw [apply_update_same (g := Pc.taken) (by omega)] at hp
    rw [hbuffer]
    exact h'.data p c hp hready hc
  fresh := h'.fresh
  owns u := by
    rw [Function.update_apply]
    split_ifs with hut
    · exact owns_of_stage hstage'
    · exact (h'.owns u).frame rfl (fun _ hx => hx) (fun _ _ => rfl) fun _ _ _ => by rw [hbuffer]
  owned p hp := by
    obtain ⟨u, hpos, hu⟩ := h'.owned p hp
    have hut : u ≠ t := by
      rintro rfl
      rw [hstage _ hu] at hp
      cases hp
    exact ⟨u, hpos, by rwa [Function.update_of_ne hut]⟩
  solo u hu := by
    rw [Function.update_apply] at hu
    split_ifs at hu with hut
    · exact hut ▸ hsolo hu
    · exact h'.solo u hu
  tailLocal tail hu := by
    rw [Function.update_apply] at hu
    split_ifs at hu
    · rw [htail'] at hu
      cases hu
    · exact h'.tailLocal tail hu

/-- The CAS on `head_` wins. -/
theorem Inv.claim (h' : Inv k consumer m f h) (hpc : f t = .pushCas c head)
    (hroom : h.claimed.length < h.recycled + 2 ^ k) (hhead : m.head = head) :
    Inv k consumer { m with head := head + 1 } (Function.update f t (.pushClosed c head))
      (h.claim t c.value) := by
  have hold : h.phase h.claimed.length = .unclaimed := (h'.fresh _).mpr le_rfl
  have htaking : ∀ u, (Function.update f t (.pushClosed c head) u).taking = (f u).taking :=
    apply_update_same (g := Pc.taking) (by rw [hpc]; rfl)
  have htaken : ∀ u, (Function.update f t (.pushClosed c head) u).taken = (f u).taken :=
    apply_update_same (g := Pc.taken) (by rw [hpc]; rfl)
  have hready : ∀ p, ((h.claim t c.value).phase p).ready = (h.phase p).ready := by
    intro p
    rw [History.claim_phase, Function.update_apply]
    split_ifs with hp
    · rw [hp, hold]
      rfl
    · rfl
  have hkeep : ∀ {p : ℕ} {x : Tid × V}, h.claimed[p]? = some x → (h.claim t c.value).claimed[p]? = some x := by
    intro p x hx
    rw [History.claim_claimed, List.getElem?_append_left (List.getElem?_eq_some_iff.mp hx).1]
    exact hx
  have hlength : (h.claim t c.value).claimed.length = h.claimed.length + 1 := List.length_append
  have hle := h'.taking_le
  have hle' := taken_le (f consumer)
  refine ⟨?_, ?_, ?_, ?_, h'.returned_same (by rw [hpc]; rfl), fun p hp => ?_, fun p hp hp' => ?_,
    fun p x hp hr hx => ?_, fun p => ?_, fun u => ?_, fun p hp => ?_, fun u hu => ?_, fun tail hu => ?_⟩
  · rw [hlength, ofNat_succ, ← h'.head, hhead]
    rfl
  · rw [htaking]
    exact h'.tail
  · rw [hlength]
    exact hroom
  · rw [htaken, History.claim_claimed, List.take_append_of_le_length
      (by rw [History.claim_recycled]; omega)]
    exact h'.popped
  · rw [htaking] at hp
    rw [hready]
    exact h'.ready p hp
  · rw [hready]
    exact h'.sequence p hp hp'
  · rw [htaken] at hp
    rw [hready] at hr
    rw [History.claim_claimed, List.getElem?_append_left (h'.claimed_of_ready hr)] at hx
    exact h'.data p x hp hr hx
  · rw [hlength, History.claim_phase, Function.update_apply]
    split_ifs with hp
    · exact iff_of_false nofun (by omega)
    · rw [h'.fresh p]
      omega
  · rw [Function.update_apply]
    split_ifs with hut
    · subst hut
      refine ⟨?_, ?_, ?_⟩
      · rw [History.claim_position, Function.update_self, ← hhead]
        exact h'.head
      · rw [History.claim_position, Function.update_self, History.claim_claimed]
        exact List.getElem?_concat_length
      · rw [History.claim_position, Function.update_self, History.claim_phase, Function.update_self]
    · refine (h'.owns u).frame ?_ (fun _ => hkeep) (fun v hv => ?_) fun _ _ _ => rfl
      · rw [History.claim_position, Function.update_of_ne hut]
      · have hlt := (List.getElem?_eq_some_iff.mp hv).1
        rw [History.claim_phase, Function.update_of_ne (by omega)]
  · rw [History.claim_phase, Function.update_apply] at hp ⊢
    split_ifs at hp ⊢ with hpH
    · exact ⟨t, by rw [History.claim_position, Function.update_self, hpH],
        by rw [Function.update_self]; rfl⟩
    · obtain ⟨u, hpos, hu⟩ := h'.owned p hp
      have hut : u ≠ t := by
        rintro rfl
        rw [hpc] at hu
        cases hu
      exact ⟨u, by rwa [History.claim_position, Function.update_of_ne hut],
        by rwa [Function.update_of_ne hut]⟩
  · rw [apply_update_same (g := Pc.popping) (by rw [hpc]; rfl)] at hu
    exact h'.solo u hu
  · rw [apply_update_same (g := Pc.tail) (by rw [hpc]; rfl)] at hu
    exact h'.tailLocal tail hu

/-- The claim of `t` enters a new phase, and the ring changes accordingly. -/
theorem Inv.mark {ph ph' : Phase} (h' : Inv k consumer m f h) (hh : Holds h t c head ph)
    (hhead : m'.head = m.head) (htail : m'.tail = m.tail)
    (hsequence : ∀ p, h.recycled ≤ p → p < h.recycled + 2 ^ k →
      (m'.buffer (cell 64 k p)).sequence =
        BitVec.ofNat 64 (p + ((h.mark t ph').phase p).ready.toNat))
    (hdata : ∀ p, (m'.buffer (cell 64 k p)).data = (m.buffer (cell 64 k p)).data)
    (hready : ph.ready = true → ph'.ready = true) (hne : ph' ≠ .unclaimed)
    (hnew : ph'.ready = true → ph.ready = true ∨
      (m.buffer (cell 64 k (h.position t))).data = some c.value)
    (howns : Owns k m' (h.mark t ph') t pc') (hstage : ph'.pending = true → pc'.stage = some ph')
    (hold : (f t).popping = false) (hpop : pc'.popping = false) :
    Inv k consumer m' (Function.update f t pc') (h.mark t ph') := by
  have hcalm : ∀ pc : Pc V, pc.popping = false → pc.taking = 0 ∧ pc.taken = 0 ∧ pc.tail = none ∧
      pc.item = [] := by
    intro pc hpc
    cases pc <;> first | exact ⟨rfl, rfl, rfl, rfl⟩ | cases hpc
  obtain ⟨htk, htn, htl, hti⟩ := hcalm _ hold
  obtain ⟨htk', htn', htl', hti'⟩ := hcalm _ hpop
  have htaking : ∀ u, (Function.update f t pc' u).taking = (f u).taking :=
    apply_update_same (g := Pc.taking) (by rw [htk, htk'])
  have htaken : ∀ u, (Function.update f t pc' u).taken = (f u).taken :=
    apply_update_same (g := Pc.taken) (by rw [htn, htn'])
  have hphase : ∀ p, p ≠ h.position t → (h.mark t ph').phase p = h.phase p := by
    intro p hp
    rw [History.mark_phase, Function.update_of_ne hp]
  have hself : (h.mark t ph').phase (h.position t) = ph' := by
    rw [History.mark_phase, Function.update_self]
  refine ⟨?_, ?_, h'.window, ?_, h'.returned_same (by rw [hti, hti']), fun p hp => ?_, hsequence,
    fun p x hp hr hx => ?_, fun p => ?_, fun u => ?_, fun p hp => ?_, fun u hu => ?_, fun tail hu => ?_⟩
  · rw [hhead]
    exact h'.head
  · rw [htail, htaking]
    exact h'.tail
  · rw [htaken]
    exact h'.popped
  · rw [htaking] at hp
    have hold := h'.ready p hp
    by_cases hpt : p = h.position t
    · rw [hpt, hh.phase] at hold
      rw [hpt, hself, hready hold]
    · rw [hphase p hpt, hold]
  · rw [htaken] at hp
    rw [hdata]
    by_cases hpt : p = h.position t
    · rw [hpt, hself] at hr
      subst hpt
      rcases hnew hr with hold | hnew
      · exact h'.data _ x hp (by rw [hh.phase, hold]) hx
      · rw [History.mark_claimed, hh.claim] at hx
        cases hx
        exact hnew
    · rw [hphase p hpt] at hr
      exact h'.data p x hp hr hx
  · by_cases hpt : p = h.position t
    · rw [hpt, hself]
      exact iff_of_false hne (Nat.not_le.mpr hh.lt)
    · rw [hphase p hpt]
      exact h'.fresh p
  · rw [Function.update_apply]
    split_ifs with hut
    · exact hut ▸ howns
    · refine (h'.owns u).frame rfl (fun _ hx => hx) (fun v hv => hphase _ ?_) fun _ _ _ => hdata _
      intro heq
      rw [heq, hh.claim] at hv
      cases hv
      exact hut rfl
  · by_cases hpt : p = h.position t
    · rw [hpt, hself] at hp ⊢
      exact ⟨t, rfl, by rw [Function.update_self, hstage hp]⟩
    · rw [hphase p hpt] at hp ⊢
      obtain ⟨u, hpos, hu⟩ := h'.owned p hp
      have hut : u ≠ t := by
        rintro rfl
        exact hpt hpos.symm
      exact ⟨u, hpos, by rwa [Function.update_of_ne hut]⟩
  · rw [apply_update_same (g := Pc.popping) (by rw [hold, hpop])] at hu
    exact h'.solo u hu
  · rw [apply_update_same (g := Pc.tail) (by rw [htl, htl'])] at hu
    exact h'.tailLocal tail hu

theorem mark_ready {ph ph' : Phase} (hh : Holds h t c head ph) (hr : ph'.ready = ph.ready) (p : ℕ) :
    ((h.mark t ph').phase p).ready = (h.phase p).ready := by
  rw [History.mark_phase, Function.update_apply]
  split_ifs with hp
  · rw [hp, hh.phase, hr]
  · rfl

theorem Holds.mark {ph ph' : Phase} (hh : Holds h t c head ph) : Holds (h.mark t ph') t c head ph' where
  head := hh.head
  claim := hh.claim
  phase := Function.update_self ..

/-- The producer reads `closed_`. -/
theorem Inv.check (h' : Inv k consumer m f h) (hpc : f t = .pushClosed c head) :
    Inv k consumer m
      (Function.update f t (if m.closed then .pushRevert c head else .pushData c head))
      (h.mark t (if m.closed then .refused else .accepted)) := by
  have hh : Holds h t c head .claimed := by
    have := h'.owns t
    rwa [hpc] at this
  have hseq : ∀ ph : Phase, ph.ready = false → ∀ p, h.recycled ≤ p → p < h.recycled + 2 ^ k →
      (m.buffer (cell 64 k p)).sequence =
        BitVec.ofNat 64 (p + ((h.mark t ph).phase p).ready.toNat) := by
    intro ph hph p hp hp'
    rw [mark_ready hh hph]
    exact h'.sequence p hp hp'
  cases m.closed with
  | true =>
      exact h'.mark hh rfl rfl (hseq _ rfl) (fun _ => rfl) nofun nofun nofun hh.mark nofun
        (by rw [hpc]; rfl) rfl
  | false =>
      exact h'.mark hh rfl rfl (hseq _ rfl) (fun _ => rfl) nofun nofun nofun hh.mark (fun _ => rfl)
        (by rw [hpc]; rfl) rfl

/-- The revert writes the sequence that the slot has. -/
theorem Inv.revert (h' : Inv k consumer m f h) (hpc : f t = .pushRevert c head) :
    m.setSequence (ringMask k) head head = m := by
  have hh : Holds h t c head .refused := by
    have := h'.owns t
    rwa [hpc] at this
  obtain ⟨hle, hlt⟩ := h'.in_window hh.lt (by rw [hh.phase]; rfl)
  have hseq := h'.sequence _ (by omega) hlt
  rw [hh.phase] at hseq
  rw [hh.head]
  exact setSequence_eq _ hseq

/-- The value moves into the slot. -/
theorem Inv.write (h' : Inv k consumer m f h) (hk : k ≤ 64) (hpc : f t = .pushData c head) :
    Inv k consumer (m.setData (ringMask k) head (some c.value))
      (Function.update f t (.pushPublish c head)) h := by
  have hh : Holds h t c head .accepted := by
    have := h'.owns t
    rwa [hpc] at this
  obtain ⟨hle, hlt⟩ := h'.in_window hh.lt (by rw [hh.phase]; rfl)
  have htaking : ∀ u, (Function.update f t (.pushPublish c head) u).taking = (f u).taking :=
    apply_update_same (g := Pc.taking) (by rw [hpc]; rfl)
  have htaken : ∀ u, (Function.update f t (.pushPublish c head) u).taken = (f u).taken :=
    apply_update_same (g := Pc.taken) (by rw [hpc]; rfl)
  have hother : ∀ p, h.recycled ≤ p → p < h.recycled + 2 ^ k → p ≠ h.position t →
      (m.setData (ringMask k) head (some c.value)).buffer (cell 64 k p) = m.buffer (cell 64 k p) := by
    intro p hp hp' hne
    rw [hh.head, Mem.setData]
    refine setSlot_of_ne _ fun heq => hne ?_
    exact cell_inj hk hp hp' (by omega) hlt heq
  have hlen := h'.window
  refine ⟨h'.head, ?_, h'.window, ?_, h'.returned_same (by rw [hpc]; rfl), fun p hp => ?_,
    fun p hp hp' => ?_, fun p x hp hr hx => ?_, h'.fresh, fun u => ?_, fun p hp => ?_, fun u hu => ?_,
    fun tail hu => ?_⟩
  · rw [htaking]
    exact h'.tail
  · rw [htaken]
    exact h'.popped
  · rw [htaking] at hp
    exact h'.ready p hp
  · rw [hh.head, setData_sequence]
    exact h'.sequence p hp hp'
  · rw [htaken] at hp
    have hcl := h'.claimed_of_ready hr
    rw [hother p (by omega) (by omega) (by rintro rfl; rw [hh.phase] at hr; cases hr)]
    exact h'.data p x hp hr hx
  · rw [Function.update_apply]
    split_ifs with hut
    · subst hut
      refine ⟨hh, ?_⟩
      rw [hh.head, Mem.setData, setSlot_self]
    · refine (h'.owns u).frame rfl (fun _ hx => hx) (fun _ _ => rfl) fun v hv hacc => ?_
      have hcl := (List.getElem?_eq_some_iff.mp hv).1
      obtain ⟨hle', hlt'⟩ := h'.in_window hcl (by rw [hacc]; rfl)
      rw [hother _ (by omega) hlt' ?_]
      intro heq
      rw [heq, hh.claim] at hv
      cases hv
      exact hut rfl
  · obtain ⟨u, hpos, hu⟩ := h'.owned p hp
    exact ⟨u, hpos, by rwa [apply_update_same (g := Pc.stage) (by rw [hpc]; rfl)]⟩
  · rw [apply_update_same (g := Pc.popping) (by rw [hpc]; rfl)] at hu
    exact h'.solo u hu
  · rw [apply_update_same (g := Pc.tail) (by rw [hpc]; rfl)] at hu
    exact h'.tailLocal tail hu

/-- The slot is published. -/
theorem Inv.publish (h' : Inv k consumer m f h) (hk : k ≤ 64) (hpc : f t = .pushPublish c head) :
    Inv k consumer (m.setSequence (ringMask k) head (head + 1)) (Function.update f t (.pushSize c))
      (h.mark t .published) := by
  obtain ⟨hh, hdata⟩ : Holds h t c head .accepted ∧
      (m.buffer (cell 64 k (h.position t))).data = some c.value := by
    have := h'.owns t
    rwa [hpc] at this
  obtain ⟨hle, hlt⟩ := h'.in_window hh.lt (by rw [hh.phase]; rfl)
  refine h'.mark hh rfl rfl (fun p hp hp' => ?_) (fun p => ?_) nofun nofun (fun _ => Or.inr hdata)
    ⟨head, hh.mark⟩ (fun _ => rfl) (by rw [hpc]; rfl) rfl
  · rw [hh.head, Mem.setSequence]
    by_cases hpt : p = h.position t
    · rw [hpt, setSlot_self, History.mark_phase, Function.update_self]
      exact (ofNat_succ _).symm
    · rw [setSlot_of_ne _ fun heq => hpt (cell_inj hk hp hp' (by omega) hlt heq),
        History.mark_phase, Function.update_of_ne hpt]
      exact h'.sequence p hp hp'
  · rw [hh.head, setSequence_data]

/-- The push returns `true`. -/
theorem Inv.finish (h' : Inv k consumer m f h) (hpc : f t = .pushSize c) :
    Inv k consumer { m with sizeApprox := m.sizeApprox + 1 }
      (Function.update f t (.pushed c true none)) (h.mark t .succeeded) := by
  obtain ⟨head, hh⟩ : ∃ head, Holds h t c head .published := by
    have := h'.owns t
    rwa [hpc] at this
  refine h'.mark hh rfl rfl (fun p hp hp' => ?_) (fun _ => rfl) (fun _ => rfl) nofun
    (fun _ => Or.inl rfl) trivial nofun (by rw [hpc]; rfl) rfl
  rw [mark_ready hh (show Phase.succeeded.ready = Phase.published.ready from rfl)]
  exact h'.sequence p hp hp'

/-! ### The steps of the consumer -/

/-- The consumer sees the slot at its position published exactly when it is. -/
theorem Inv.sees (h' : Inv k consumer m f h) (htaking : (f consumer).taking = 0) :
    diff (m.slot (ringMask k) m.tail).sequence (m.tail + 1) = 0 ↔
      (h.phase h.recycled).ready = true := by
  have htail := h'.tail
  rw [htaking, Nat.add_zero] at htail
  have hseq := h'.sequence h.recycled le_rfl (Nat.lt_add_of_pos_right (Nat.two_pow_pos k))
  have hslot : (m.slot (ringMask k) m.tail).sequence =
      BitVec.ofNat 64 (h.recycled + (h.phase h.recycled).ready.toNat) := by
    rw [Mem.slot, htail]
    exact hseq
  have hdiff : ∀ x y : U64, diff x y = 0 ↔ x = y := by
    intro x y
    rw [diff]
    constructor
    · intro hzero
      exact BitVec.sub_eq_iff_eq_add.mp (BitVec.eq_of_toInt_eq hzero) |>.trans (BitVec.zero_add y)
    · rintro rfl
      rw [BitVec.sub_self]
      rfl
  rw [hdiff, hslot, htail]
  cases (h.phase h.recycled).ready with
  | true => exact iff_of_true (ofNat_succ _) rfl
  | false =>
      refine iff_of_false (fun heq => ?_) Bool.false_ne_true
      have := ofNat_inj (r := h.recycled) (by omega) (by simp) (by omega) (by omega)
        (heq.trans (ofNat_succ h.recycled).symm)
      simp at this

/-- The consumer advances `tail_`. -/
theorem Inv.take {mode : PopMode} (h' : Inv k consumer m f h) (hpc : f consumer = .popSeq mode)
    (hready : (h.phase h.recycled).ready = true) :
    Inv k consumer { m with tail := m.tail + 1 }
      (Function.update f consumer (.popData mode m.tail)) h := by
  have htail := h'.tail
  rw [hpc] at htail
  have htaken : ∀ u, (Function.update f consumer (.popData mode m.tail) u).taken = (f u).taken :=
    apply_update_same (g := Pc.taken) (by rw [hpc]; rfl)
  refine ⟨h'.head, ?_, h'.window, ?_, h'.returned_same (by rw [hpc]; rfl), fun p hp => ?_, h'.sequence,
    fun p x hp hr hx => ?_, h'.fresh, fun u => ?_, fun p hp => ?_, fun u hu => ?_, fun tail hu => ?_⟩
  · rw [Function.update_self]
    exact (congrArg (· + 1) htail).trans (ofNat_succ _).symm
  · rw [htaken]
    exact h'.popped
  · rw [Function.update_self] at hp
    rcases Nat.lt_succ_iff_lt_or_eq.mp hp with hlt | rfl
    · exact h'.ready p (by omega)
    · exact hready
  · rw [htaken] at hp
    exact h'.data p x hp hr hx
  · rw [Function.update_apply]
    split_ifs
    · exact owns_of_stage rfl
    · exact h'.owns u
  · obtain ⟨u, hpos, hu⟩ := h'.owned p hp
    exact ⟨u, hpos, by rwa [apply_update_same (g := Pc.stage) (by rw [hpc]; rfl)]⟩
  · rw [apply_update_same (g := Pc.popping) (by rw [hpc]; rfl)] at hu
    exact h'.solo u hu
  · rw [Function.update_self] at hu
    cases hu
    exact htail

/-- The data moves out of the slot. -/
theorem Inv.moveOut {mode : PopMode} {tail : U64} (h' : Inv k consumer m f h) (hk : k ≤ 64)
    (hpc : f consumer = .popData mode tail) :
    Inv k consumer (m.setData (ringMask k) tail none)
      (Function.update f consumer (.popRecycle mode tail (m.slot (ringMask k) tail).data))
      { h with popped := h.popped ++ [(m.slot (ringMask k) tail).data] } := by
  obtain rfl : tail = BitVec.ofNat 64 h.recycled := h'.tailLocal tail (by rw [hpc]; rfl)
  have htaken : (f consumer).taken = 0 := by rw [hpc]; rfl
  have hready : (h.phase h.recycled).ready = true := h'.ready _ (by rw [hpc]; exact Nat.lt_succ_self _)
  have hlt := h'.claimed_of_ready hready
  have hwindow := h'.window
  obtain ⟨x, hx⟩ : ∃ x, h.claimed[h.recycled]? = some x := ⟨_, List.getElem?_eq_getElem hlt⟩
  have hdata := h'.data h.recycled x (by omega) hready hx
  have hother : ∀ p, h.recycled < p → p < h.recycled + 2 ^ k →
      (m.setData (ringMask k) (BitVec.ofNat 64 h.recycled) none).buffer (cell 64 k p) =
        m.buffer (cell 64 k p) := by
    intro p hp hp'
    refine setSlot_of_ne _ fun heq => ?_
    have := cell_inj hk (r := h.recycled) (by omega) hp' le_rfl (by omega) heq
    omega
  have hreturned := h'.returned
  rw [hpc] at hreturned
  have hreturned : h.popped = h.returned := hreturned.trans (List.append_nil _)
  refine ⟨h'.head, ?_, h'.window, ?_, ?_, fun p hp => ?_, fun p hp hp' => ?_, fun p x hp hr hx => ?_,
    h'.fresh, fun u => ?_, fun p hp => ?_, fun u hu => ?_, fun tail hu => ?_⟩
  · rw [apply_update_same (g := Pc.taking) (by rw [hpc]; rfl)]
    exact h'.tail
  · rw [Function.update_self, show (m.slot (ringMask k) (BitVec.ofNat 64 h.recycled)).data = some x.2
      from hdata, h'.popped, htaken, Nat.add_zero]
    change _ = (h.claimed.take (h.recycled + 1)).map _
    rw [List.take_add_one, hx, List.map_append]
    rfl
  · rw [Function.update_self, hreturned]
    rfl
  · rw [apply_update_same (g := Pc.taking) (by rw [hpc]; rfl)] at hp
    exact h'.ready p hp
  · rw [setData_sequence]
    exact h'.sequence p hp hp'
  · rw [Function.update_self] at hp
    have hp : h.recycled + 1 ≤ p := hp
    have hcl := h'.claimed_of_ready hr
    rw [hother p (by omega) (by omega)]
    exact h'.data p x (by omega) hr hx
  · rw [Function.update_apply]
    split_ifs
    · exact owns_of_stage rfl
    · refine (h'.owns u).frame rfl (fun _ hx => hx) (fun _ _ => rfl) fun v hv hacc => ?_
      have hcl := (List.getElem?_eq_some_iff.mp hv).1
      obtain ⟨hle', hlt'⟩ := h'.in_window hcl (by rw [hacc]; rfl)
      rw [hpc] at hle'
      have hle' : h.recycled + 1 ≤ h.position u := hle'
      rw [hother _ (by omega) hlt']
  · obtain ⟨u, hpos, hu⟩ := h'.owned p hp
    exact ⟨u, hpos, by rwa [apply_update_same (g := Pc.stage) (by rw [hpc]; rfl)]⟩
  · rw [apply_update_same (g := Pc.popping) (by rw [hpc]; rfl)] at hu
    exact h'.solo u hu
  · rw [Function.update_self] at hu
    cases hu
    rfl

/-- The slot is handed to the next lap. -/
theorem Inv.recycle {mode : PopMode} {tail : U64} {result : Option V} (h' : Inv k consumer m f h)
    (hk : k ≤ 64) (hpc : f consumer = .popRecycle mode tail result) :
    Inv k consumer (m.setSequence (ringMask k) tail (tail + ringMask k + 1))
      (Function.update f consumer (.popSize mode result)) { h with recycled := h.recycled + 1 } := by
  obtain rfl : tail = BitVec.ofNat 64 h.recycled := h'.tailLocal tail (by rw [hpc]; rfl)
  have hpos := Nat.two_pow_pos k
  have hwindow := h'.window
  have hlap : BitVec.ofNat 64 h.recycled + ringMask k + 1 = BitVec.ofNat 64 (h.recycled + 2 ^ k) := by
    rw [ringMask, ← BitVec.ofNat_add]
    refine (ofNat_succ _).symm.trans (congrArg _ ?_)
    omega
  refine ⟨h'.head, ?_, ?_, ?_, h'.returned_same (by rw [hpc]; rfl), fun p hp => ?_, fun p hp hp' => ?_,
    fun p x hp hr hx => ?_, h'.fresh, fun u => ?_, fun p hp => ?_, fun u hu => ?_, fun tail hu => ?_⟩
  · rw [Function.update_self]
    have := h'.tail
    rwa [hpc] at this
  · change h.claimed.length ≤ h.recycled + 1 + 2 ^ k
    omega
  · rw [Function.update_self]
    have := h'.popped
    rwa [hpc] at this
  · rw [Function.update_self] at hp
    exact h'.ready p (by rw [hpc]; exact hp)
  · have hp : h.recycled + 1 ≤ p := hp
    have hp' : p < h.recycled + 1 + 2 ^ k := hp'
    by_cases hlast : p = h.recycled + 2 ^ k
    · subst hlast
      rw [cell_add hk, Mem.setSequence, setSlot_self, hlap, (h'.fresh _).mpr hwindow]
      rfl
    · rw [Mem.setSequence, setSlot_of_ne _ ?_]
      · exact h'.sequence p (by omega) (by omega)
      · intro heq
        have := cell_inj hk (r := h.recycled) (by omega) (by omega) le_rfl (by omega) heq
        omega
  · rw [Function.update_self] at hp
    rw [setSequence_data]
    exact h'.data p x (by rw [hpc]; exact hp) hr hx
  · rw [Function.update_apply]
    split_ifs
    · exact owns_of_stage rfl
    · exact (h'.owns u).frame rfl (fun _ hx => hx) (fun _ _ => rfl)
        fun _ _ _ => setSequence_data _ _ _
  · obtain ⟨u, hpos, hu⟩ := h'.owned p hp
    exact ⟨u, hpos, by rwa [apply_update_same (g := Pc.stage) (by rw [hpc]; rfl)]⟩
  · rw [apply_update_same (g := Pc.popping) (by rw [hpc]; rfl)] at hu
    exact h'.solo u hu
  · rw [Function.update_self] at hu
    cases hu

/-- `try_pop` returns what it has moved out. -/
theorem Inv.deliver {mode : PopMode} {result : Option V} (h' : Inv k consumer m f h)
    (hpc : f consumer = .popSize mode result) :
    Inv k consumer { m with sizeApprox := m.sizeApprox - 1 }
      (Function.update f consumer (.popped mode (some result)))
      { h with returned := h.returned ++ [result] } := by
  have htaking : ∀ u, (Function.update f consumer (.popped mode (some result)) u).taking = (f u).taking :=
    apply_update_same (g := Pc.taking) (by rw [hpc]; rfl)
  have htaken : ∀ u, (Function.update f consumer (.popped mode (some result)) u).taken = (f u).taken :=
    apply_update_same (g := Pc.taken) (by rw [hpc]; rfl)
  have hreturned := h'.returned
  rw [hpc] at hreturned
  refine ⟨h'.head, ?_, h'.window, ?_, ?_, fun p hp => ?_, h'.sequence, fun p x hp hr hx => ?_, h'.fresh,
    fun u => ?_, fun p hp => ?_, fun u hu => ?_, fun tail hu => ?_⟩
  · rw [htaking]
    exact h'.tail
  · rw [htaken]
    exact h'.popped
  · rw [Function.update_self]
    exact hreturned.trans (List.append_nil _).symm
  · rw [htaking] at hp
    exact h'.ready p hp
  · rw [htaken] at hp
    exact h'.data p x hp hr hx
  · rw [Function.update_apply]
    split_ifs
    · exact owns_of_stage rfl
    · exact (h'.owns u).frame rfl (fun _ hx => hx) (fun _ _ => rfl) fun _ _ _ => rfl
  · obtain ⟨u, hpos, hu⟩ := h'.owned p hp
    exact ⟨u, hpos, by rwa [apply_update_same (g := Pc.stage) (by rw [hpc]; rfl)]⟩
  · rw [apply_update_same (g := Pc.popping) (by rw [hpc]; rfl)] at hu
    exact h'.solo u hu
  · rw [Function.update_self] at hu
    cases hu

/-! ### All steps -/

/-- A step of the code between positions that own nothing. -/
theorem Inv.plain (h' : Inv k consumer m f h) (hpc : f t = pc) (hhead : m'.head = m.head)
    (htail : m'.tail = m.tail) (hbuffer : m'.buffer = m.buffer) (hstage : pc.stage = none)
    (hstage' : pc'.stage = none) (htaking : pc.taking = 0) (htaking' : pc'.taking = 0)
    (htail' : pc'.tail = none) (hitem : pc.item = []) (hitem' : pc'.item = [])
    (hsolo : pc'.popping = true → pc.popping = true) : Inv k consumer m' (Function.update f t pc') h := by
  subst hpc
  refine h'.quiet hhead htail hbuffer (fun ph hph => ?_) hstage' htaking htaking' htail' hitem hitem'
    fun hp => h'.solo t (hsolo hp)
  rw [hstage] at hph
  cases hph

theorem inv_of_act (h' : Inv k consumer m f h) (hpos : 1 ≤ k) (hk : k ≤ 63)
    (hfree : ClaimFree (ringMask k) m (f t)) (hnot : (f t).answering = false)
    (hrun : run (ringMask k) m (f t) = some (m', pc')) :
    Inv k consumer m' (Function.update f t pc') (h.act (ringMask k) t .run m (f t)) := by
  generalize hpc : f t = pc at hrun hfree hnot
  have hconsumer : pc.popping = true → t = consumer := fun hp => h'.solo t (by rw [hpc, hp])
  have hnever : ∀ {p : Prop}, false = true → p := fun hp => absurd hp Bool.false_ne_true
  cases pc with
  | idle => cases hrun
  | pushCheck c =>
      rw [run, Option.some.injEq, Prod.mk.injEq] at hrun
      obtain ⟨rfl, rfl⟩ := hrun
      cases m.closed <;> exact h'.plain hpc rfl rfl rfl rfl rfl rfl rfl rfl rfl rfl hnever
  | pushHead c =>
      cases hrun
      exact h'.plain hpc rfl rfl rfl rfl rfl rfl rfl rfl rfl rfl hnever
  | pushSeq c head =>
      rw [run, Option.some.injEq, Prod.mk.injEq] at hrun
      obtain ⟨rfl, rfl⟩ := hrun
      split_ifs <;> exact h'.plain hpc rfl rfl rfl rfl rfl rfl rfl rfl rfl rfl hnever
  | pushCas c head =>
      rw [run, Option.some.injEq] at hrun
      by_cases hwin : m.head = head
      · rw [if_pos hwin] at hrun
        cases hrun
        rw [History.act, if_pos hwin]
        refine h'.claim hpc (h'.room hpos hk ?_) hwin
        rw [← h'.head, hwin]
        have := hfree head rfl hwin
        rw [Mem.slot, ← hwin, h'.head] at this
        rw [← hwin, h'.head]
        exact this
      · rw [if_neg hwin] at hrun
        cases hrun
        rw [History.act, if_neg hwin]
        exact h'.plain hpc rfl rfl rfl rfl rfl rfl rfl rfl rfl rfl hnever
  | pushClosed c head =>
      cases hrun
      exact h'.check hpc
  | pushRevert c head =>
      cases hrun
      rw [h'.revert hpc]
      refine h'.quiet rfl rfl rfl (fun ph hph => ?_) rfl (by rw [hpc]; rfl) rfl rfl (by rw [hpc]; rfl) rfl hnever
      rw [hpc] at hph
      cases hph
      rfl
  | pushData c head =>
      cases hrun
      exact h'.write (by omega) hpc
  | pushPublish c head =>
      cases hrun
      exact h'.publish (by omega) hpc
  | pushSize | popSize => cases hnot
  | pushed c result value =>
      rw [run, Option.some.injEq, Prod.mk.injEq] at hrun
      obtain ⟨rfl, rfl⟩ := hrun
      split_ifs <;> exact h'.plain hpc rfl rfl rfl rfl rfl rfl rfl rfl rfl rfl hnever
  | popSeq mode =>
      obtain rfl := hconsumer rfl
      rw [run, Option.some.injEq] at hrun
      by_cases hsees : diff (m.slot (ringMask k) m.tail).sequence (m.tail + 1) = 0
      · rw [if_pos hsees] at hrun
        cases hrun
        exact h'.take hpc ((h'.sees (by rw [hpc]; rfl)).mp hsees)
      · rw [if_neg hsees] at hrun
        cases hrun
        exact h'.plain hpc rfl rfl rfl rfl rfl rfl rfl rfl rfl rfl fun _ => rfl
  | popData mode tail =>
      obtain rfl := hconsumer rfl
      cases hrun
      exact h'.moveOut (by omega) hpc
  | popRecycle mode tail result =>
      obtain rfl := hconsumer rfl
      cases hrun
      exact h'.recycle (by omega) hpc
  | popped mode result =>
      rw [run, Option.some.injEq, Prod.mk.injEq] at hrun
      obtain ⟨rfl, rfl⟩ := hrun
      split_ifs <;> exact h'.plain hpc rfl rfl rfl rfl rfl rfl rfl rfl rfl rfl fun _ => rfl
  | popClosed =>
      cases hrun
      exact h'.plain hpc rfl rfl rfl rfl rfl rfl rfl rfl rfl rfl fun _ => rfl
  | close =>
      cases hrun
      exact h'.plain hpc rfl rfl rfl rfl rfl rfl rfl rfl rfl rfl hnever

/-- The steps inside the calls. -/
theorem inv_of_run (h' : Inv k consumer m f h) (hpos : 1 ≤ k) (hk : k ≤ 63)
    (hfree : ClaimFree (ringMask k) m (f t)) (hrun : run (ringMask k) m (f t) = some (m', pc')) :
    Inv k consumer m' (Function.update f t pc') (h.step (ringMask k) t .run m (f t) pc') := by
  cases hans : (f t).answering with
  | false =>
      rw [History.step_of_run hrun hans]
      exact inv_of_act h' hpos hk hfree hans hrun
  | true =>
      generalize hpc : f t = pc at hrun hans
      cases pc with
      | pushSize c =>
          cases hrun
          exact h'.finish hpc
      | popSize mode result =>
          obtain rfl := h'.solo t (by rw [hpc]; rfl)
          cases hrun
          exact h'.deliver hpc
      | _ => cases hans

theorem inv_of_step {l : Label V} (h' : Inv k consumer m f h) (hpos : 1 ≤ k) (hk : k ≤ 63)
    (hfree : l = .run → ClaimFree (ringMask k) m (f t))
    (hstep : step (ringMask k) (t == consumer) l m (f t) = some (m', pc')) :
    Inv k consumer m' (Function.update f t pc') (h.step (ringMask k) t l m (f t) pc') := by
  have begin_call : ∀ {first : Pc V}, start m first (f t) = some (m', pc') → first.stage = none →
      first.taking = 0 → first.tail = none → first.item = [] → (first.popping = true → t = consumer) →
      (∀ h : History V Tid, h.answer t first = h) →
      Inv k consumer m' (Function.update f t pc') (h.answer t pc') := by
    intro first hs hstage htaking htail hitem hsolo hanswer
    generalize hpc : f t = pc at hs
    cases pc <;> cases hs
    rw [hanswer]
    refine h'.quiet rfl rfl rfl (fun ph hph => ?_) hstage (by rw [hpc]; rfl) htaking htail
      (by rw [hpc]; rfl) hitem hsolo
    rw [hpc] at hph
    cases hph
  cases l with
  | tryPush value => exact begin_call hstep rfl rfl rfl rfl (fun hp => absurd hp Bool.false_ne_true) fun _ => rfl
  | pushBlocking value => exact begin_call hstep rfl rfl rfl rfl (fun hp => absurd hp Bool.false_ne_true) fun _ => rfl
  | tryPop =>
      simp only [step] at hstep
      split_ifs at hstep with hc
      exact begin_call hstep rfl rfl rfl rfl (fun _ => eq_of_beq hc) fun _ => rfl
  | popBlocking =>
      simp only [step] at hstep
      split_ifs at hstep with hc
      exact begin_call hstep rfl rfl rfl rfl (fun _ => eq_of_beq hc) fun _ => rfl
  | close => exact begin_call hstep rfl rfl rfl rfl (fun hp => absurd hp Bool.false_ne_true) fun _ => rfl
  | run => exact inv_of_run h' hpos hk (hfree rfl) hstep
  | spurious =>
      rw [step] at hstep
      generalize hpc : f t = pc at hstep
      cases pc <;> cases hstep
      exact h'.plain hpc rfl rfl rfl rfl rfl rfl rfl rfl rfl rfl fun hp => absurd hp Bool.false_ne_true

/-- The invariant of an observed state of the queue constructed with `capacity`. -/
def Sound (capacity : U64) (consumer : Tid) (s : State V Tid × History V Tid) : Prop :=
  Inv (ringBits capacity) consumer s.1.mem s.1.thread s.2

theorem Sound.init [Fintype Tid] {capacity : U64} (hcap : capacity.toNat ≤ 2 ^ 63) :
    Sound capacity consumer (observed V capacity consumer).init :=
  Inv.init ((ringBits_le (by omega) hcap).trans (by omega))

/-- What one step of an observed run is. -/
theorem observed_next [Fintype Tid] {capacity : U64} {s s' : State V Tid × History V Tid}
    {a : Act Tid (Label V)} (hnext : (observed V capacity consumer).next s a = some s') :
    ∃ t l m pc, a = .step t l ∧
      step (maskOf capacity) (t == consumer) l s.1.mem (s.1.thread t) = some (m, pc) ∧
      s'.1 = s.1.move t m pc ∧
      s'.2 = s.2.step (maskOf capacity) t l s.1.mem (s.1.thread t) pc := by
  obtain ⟨t, l, m, pc, rfl, hstep, rfl⟩ := Program.observed_step_of_next _ (fun _ => rfl)
    (fun _ => rfl) (fun _ => rfl) hnext
  refine ⟨t, l, m, pc, rfl, hstep, rfl, ?_⟩
  simp only [record, Config.move_thread, Function.update_self]

theorem Sound.step [Fintype Tid] {capacity : U64} {l : Label V} {s : State V Tid × History V Tid}
    (h : Sound capacity consumer s) (hcap : capacity.toNat ≤ 2 ^ 63)
    (hfree : l = .run → ClaimFree (maskOf capacity) s.1.mem (s.1.thread t))
    (hstep : MPSCQueue.step (maskOf capacity) (t == consumer) l s.1.mem (s.1.thread t) =
      some (m', pc')) :
    Sound capacity consumer
      (s.1.move t m' pc', s.2.step (maskOf capacity) t l s.1.mem (s.1.thread t) pc') := by
  rw [maskOf_eq] at hfree hstep ⊢
  exact inv_of_step h (ringBits_pos capacity) (ringBits_le (by omega) hcap) hfree hstep

end Psync.MPSCQueue
