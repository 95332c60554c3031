import Psync.SpscFifo

/-! The destructor. It runs when no thread is inside a call, and pops until `try_pop` returns `false`:
it moves out of and destroys exactly the items that were accepted and not popped, in order, and leaves
every slot raw, so that no object is left in the buffer that `operator delete[]` frees. -/

namespace Psync.SPSCQueue

open Concurrency MachineWord
open MPSCQueue (ringBits ringMask ringBits_le)

set_option linter.unusedSectionVars false

variable {V Tid : Type*} [DecidableEq Tid] [Fintype Tid] {k : ℕ} {producer consumer : Tid} {m m' : Mem V}
  {f : Tid → Pc V} {h h' : History V} {pc pc' : Pc V}

/-- The rest of a `try_pop` that no other thread disturbs. -/
def popAlone (mask : U64) : ℕ → Mem V × Pc V → Option (Option (Option V) × Mem V)
  | 0, _ => none
  | _ + 1, (m, .popped result) => some (result, m)
  | fuel + 1, (m, pc) => (run mask m pc).bind (popAlone mask fuel)

/-- `try_pop`, which has at most five atomic steps. -/
def tryPop (mask : U64) (m : Mem V) : Option (Option (Option V) × Mem V) :=
  popAlone mask 6 (m, .popTail)

/-- `~SPSCQueue()`, with what it moves into `dummy`. -/
def destroy (mask : U64) : ℕ → Mem V → Option (List (Option V) × Mem V)
  | 0, _ => none
  | fuel + 1, m => match tryPop mask m with
      | none => none
      | some (none, m') => some ([], m')
      | some (some out, m') => (destroy mask fuel m').map fun s => (out :: s.1, s.2)

/-! ### One `try_pop` -/

/-- The steps of `try_pop` behind this one. -/
def Pc.left : Pc V → ℕ
  | .popTail => 4
  | .popHead _ => 3
  | .popMove _ => 2
  | .popDestroy .. => 1
  | _ => 0

/-- The step ends the call, with this result. -/
def Returns (m : Mem V) (pc pc' : Pc V) : Prop :=
  ∃ result : Option (Option V), pc' = .popped result ∧
    (∀ h : History V, (h.step .run pc).popped = h.popped ++ result.toList) ∧
    (result = none → pc = .popHead m.head)

/-- A step of `try_pop` is followed by a later one, or it is the last. -/
theorem popping_run (mask : U64) (m : Mem V) (hpop : pc.popping = true) :
    ∃ m' pc', run mask m pc = some (m', pc') ∧
      (pc'.popping = true ∧ pc'.left < pc.left ∧ (∀ h : History V, h.step .run pc = h) ∨
        Returns m pc pc') := by
  cases pc with
  | popTail =>
      refine ⟨_, _, rfl, .inl ?_⟩
      split_ifs
      · exact ⟨rfl, Nat.lt_succ_self _, fun _ => rfl⟩
      · exact ⟨rfl, by simp [Pc.left], fun _ => rfl⟩
  | popHead tail =>
      refine ⟨_, _, rfl, ?_⟩
      split_ifs with hempty
      · exact .inr ⟨none, rfl, fun h => (List.append_nil _).symm, fun _ => by rw [hempty]⟩
      · exact .inl ⟨rfl, Nat.lt_succ_self _, fun _ => rfl⟩
  | popMove tail => exact ⟨_, _, rfl, .inl ⟨rfl, Nat.lt_succ_self _, fun _ => rfl⟩⟩
  | popDestroy tail out => exact ⟨_, _, rfl, .inl ⟨rfl, Nat.lt_succ_self _, fun _ => rfl⟩⟩
  | popStore tail out => exact ⟨_, _, rfl, .inr ⟨some out, rfl, fun _ => rfl, nofun⟩⟩
  | _ => cases hpop

theorem History.step_pushed (hpop : pc.popping = true) (h : History V) :
    (h.step .run pc).pushed = h.pushed := by
  cases pc <;> first | rfl | cases hpop

/-- A consumer whose index is `head_` finds the ring empty. -/
theorem Inv.items_eq_nil (hinv : Inv k producer consumer m f h) (hk : k ≤ 63)
    (hpc : f consumer = .popHead m.head) : h.items = [] := by
  have hlocal := hinv.owns consumer
  rw [hpc] at hlocal
  have htail : m.head = BitVec.ofNat 64 h.popped.length := hlocal
  have hlap := hinv.lap
  have hpow : 2 ^ k ≤ 2 ^ 63 := Nat.pow_le_pow_right (by omega) hk
  rw [hinv.head] at htail
  have heq : h.pushed.length = h.popped.length :=
    ofNat_inj (r := h.popped.length) hlap.1 (by omega) le_rfl (by omega) htail
  exact List.drop_eq_nil_of_le heq.le

/-- What an undisturbed `try_pop` has done when it has returned. -/
def Pops (k : ℕ) (producer consumer : Tid) (m : Mem V) (f : Tid → Pc V) (h : History V) (pc : Pc V)
    (fuel : ℕ) : Prop :=
  ∃ result m' h', popAlone (ringMask k) fuel (m, pc) = some (result, m') ∧
    Inv k producer consumer m' (Function.update f consumer .idle) h' ∧ h'.pushed = h.pushed ∧
    h'.popped = h.popped ++ result.toList ∧ (result = none → h.items = [])

theorem popAlone_popping (mask : U64) (fuel : ℕ) (hpop : pc.popping = true) :
    popAlone mask (fuel + 1) (m, pc) = (run mask m pc).bind (popAlone mask fuel) := by
  cases pc <;> first | rfl | cases hpop

theorem Inv.pops {fuel : ℕ} (hinv : Inv k producer consumer m f h) (hk : k ≤ 63)
    (hpop : (f consumer).popping = true) (hfuel : (f consumer).left < fuel) :
    Pops k producer consumer m f h (f consumer) (fuel + 1) := by
  induction fuel generalizing m f h with
  | zero => exact absurd hfuel (Nat.not_lt_zero _)
  | succ fuel ih =>
      obtain ⟨m₁, pc₁, hrun, hnext⟩ := popping_run (ringMask k) m hpop
      have hinv₁ := hinv.run hk hrun
      rw [Pops, popAlone_popping _ _ hpop, hrun]
      rcases hnext with ⟨hpop₁, hleft, hsame⟩ | ⟨result, rfl, hpopped, hempty⟩
      · rw [hsame h] at hinv₁
        have hself : Function.update f consumer pc₁ consumer = pc₁ := Function.update_self ..
        obtain ⟨result, m₂, h₂, halone, hinv₂, hrest⟩ :=
          ih hinv₁ (by rwa [hself]) (by rw [hself]; omega)
        rw [hself] at halone
        rw [Function.update_idem] at hinv₂
        exact ⟨result, m₂, h₂, halone, hinv₂, hrest⟩
      · have hlast : SPSCQueue.run (ringMask k) m₁ (Function.update f consumer (.popped result) consumer) =
            some (m₁, .idle) := by
          rw [Function.update_self]
          rfl
        have hreturn := hinv₁.run hk hlast
        rw [Function.update_idem, Function.update_self] at hreturn
        exact ⟨result, m₁, _, rfl, hreturn, History.step_pushed hpop h, hpopped h,
          fun hnone => hinv.items_eq_nil hk (hempty hnone)⟩

/-- `try_pop` on an otherwise idle queue. -/
theorem Inv.tryPop (hinv : Inv k producer consumer m f h) (hk : k ≤ 63)
    (hidle : f consumer = .idle) : Pops k producer consumer m f h .popTail 6 := by
  have hbegin : SPSCQueue.step (ringMask k) (consumer = producer) (consumer = consumer) .tryPop m (f consumer) =
      some (m, .popTail) := by
    rw [hidle, decide_eq_true rfl]
    rfl
  have hcall := hinv.step hk hbegin
  rw [hidle] at hcall
  have hself : Function.update f consumer .popTail consumer = .popTail := Function.update_self ..
  have hpops := hcall.pops hk (by rw [hself]; rfl) (by rw [hself]; exact Nat.lt_succ_self _)
  rw [hself] at hpops
  obtain ⟨result, m', h', halone, hinv', hrest⟩ := hpops
  rw [Function.update_idem] at hinv'
  exact ⟨result, m', h', halone, hinv', hrest⟩

/-! ### The loop -/

/-- What the destructor yields, and the invariant when it has emptied the queue. -/
theorem Inv.destroys {n : ℕ} (hinv : Inv k producer consumer m f h) (hk : k ≤ 63)
    (hidle : f consumer = .idle) (hn : h.items.length = n) :
    ∃ rest m' h', destroy (ringMask k) (n + 1) m = some (rest, m') ∧
      Inv k producer consumer m' f h' ∧ h'.items = [] ∧ h'.pushed = h.pushed ∧
      h'.popped = h.popped ++ rest := by
  induction n generalizing m h with
  | zero =>
      obtain ⟨result, m', h', halone, hinv', hpushed, hpopped, -⟩ := hinv.tryPop hk hidle
      rw [← hidle, Function.update_eq_self] at hinv'
      have hlength := hinv'.items_length
      have hbefore := hinv.items_length
      rw [hpushed, hpopped, List.length_append] at hlength
      cases result with
      | none =>
          rw [Option.toList_none, List.length_nil] at hlength
          exact ⟨[], m', h', by rw [destroy, SPSCQueue.tryPop, halone], hinv',
            List.eq_nil_of_length_eq_zero (by omega), hpushed, hpopped⟩
      | some out =>
          -- an empty ring yields nothing
          rw [Option.toList_some, List.length_singleton] at hlength
          omega
  | succ n ih =>
      obtain ⟨result, m', h', halone, hinv', hpushed, hpopped, hempty⟩ := hinv.tryPop hk hidle
      rw [← hidle, Function.update_eq_self] at hinv'
      cases result with
      | none =>
          rw [hempty rfl] at hn
          cases hn
      | some out =>
          have hlength := hinv'.items_length
          have hbefore := hinv.items_length
          rw [hpushed, hpopped, List.length_append, Option.toList_some, List.length_singleton]
            at hlength
          obtain ⟨rest, m₂, h₂, hdestroy, hinv₂, hitems, hpushed₂, hpopped₂⟩ :=
            ih hinv' (by omega)
          refine ⟨out :: rest, m₂, h₂, ?_, hinv₂, hitems, hpushed₂.trans hpushed, ?_⟩
          · rw [destroy, SPSCQueue.tryPop, halone]
            simp only [hdestroy, Option.map_some]
          · rw [hpopped₂, hpopped, List.append_assoc]
            rfl

/-- An empty ring that nobody works on has only raw slots. -/
theorem Inv.all_raw (hinv : Inv k producer consumer m f h) (hk : k ≤ 63)
    (hidle : f producer = .idle) (hitems : h.items = []) (i : U64) :
    m.slot (ringMask k) i = .raw := by
  have hlength := hinv.items_length
  rw [hitems, List.length_nil, Nat.zero_add] at hlength
  obtain ⟨q, hq, hq', hcell⟩ := exists_cell_eq (n := 64) (k := k) (by omega) h.popped.length i.toNat
  have hi : m.slot (ringMask k) i = m.buffer (cell 64 k q) := by
    rw [hcell, ← slot_ofNat, BitVec.ofNat_toNat, BitVec.setWidth_eq]
  rw [hi]
  rcases hq.eq_or_lt with rfl | hlt
  · have hback := hinv.back (by omega)
    rwa [hidle, ← hlength] at hback
  · exact hinv.free q (by omega) hq'

/-- The destructor ends after one more `try_pop` than there are items, it moves out of and destroys
exactly the accepted items that no pop has returned, and it leaves every slot raw. -/
theorem spsc_destroy_exact {capacity : U64} {w : State V Tid × History V}
    (hcap : capacity.toNat ≤ 2 ^ 63)
    (h : (observed V capacity producer consumer).Reachable anyStep w)
    (hidle : ∀ t, w.1.thread t = .idle) :
    ∃ rest m', destroy (maskOf capacity) (w.2.items.length + 1) w.1.mem = some (rest, m') ∧
      w.2.popped ++ rest = w.2.pushed.map some ∧ ∀ i, m'.slot (maskOf capacity) i = .raw := by
  have hk : ringBits capacity ≤ 63 := ringBits_le (by decide) hcap
  obtain ⟨rest, m', h', hdestroy, hinv, hitems, hpushed, hpopped⟩ :=
    (inv_of_reachable hcap h).destroys hk (hidle consumer) rfl
  rw [mask_eq]
  refine ⟨rest, m', hdestroy, ?_, hinv.all_raw hk (hidle producer) hitems⟩
  have hlength := hinv.items_length
  rw [hitems, List.length_nil, Nat.zero_add] at hlength
  rw [← hpopped, ← hpushed]
  exact hinv.order.eq_of_length (by rw [hlength, List.length_map])

/-- Two pushes, a pop, and a push that goes into the slot of the first. -/
def wrapRun : List (Act Runner (Label ℕ)) :=
  let push (v : ℕ) (cached : Bool) : List (Act Runner (Label ℕ)) :=
    .step .a (.tryPush v) :: List.replicate (if cached then 4 else 5) (.step .a .run)
  push 5 true ++ push 6 true ++ .step .b .tryPop :: List.replicate 6 (.step .b .run) ++ push 7 false

theorem spsc_destroy_exact_wrapped : ∃ w : State ℕ Runner × History ℕ, ∃ m',
    w.2.popped = [some 5] ∧ w.2.items = [6, 7] ∧
    destroy (maskOf 2) (w.2.items.length + 1) w.1.mem = some ([some 6, some 7], m') ∧
    ∀ i, m'.slot (maskOf 2) i = .raw := by
  let M := observed ℕ 2 Runner.a Runner.b
  let w := (M.run anyStep M.init wrapRun).get (by decide)
  have h : M.Reachable anyStep w := .of_run _ _
  obtain ⟨rest, m', hdestroy, hrest, hraw⟩ := spsc_destroy_exact (by decide) h (by decide)
  have hpopped : w.2.popped = [some 5] := by decide
  have hpushed : w.2.pushed = [5, 6, 7] := by decide
  rw [hpopped, hpushed] at hrest
  obtain rfl : rest = [some 6, some 7] := (List.cons.inj hrest).2
  exact ⟨w, m', hpopped, by decide, hdestroy, hraw⟩

end Psync.SPSCQueue
