import Psync.CondvarClient

/-! The counting argument for consumers and producers around a condition variable, on the stages of
the threads alone. An item that nobody is about to take is covered: by the producer that added it and
has still to wake somebody, or by a consumer that is awake in its wait and evaluates the predicate
once more. A consumer that has loaded `seq_` and has not slept yet is stopped from sleeping by the
increment of the producer. -/

namespace Psync.ConditionVariable.Client

open Concurrency

set_option linter.unusedSectionVars false

/-- Where a thread is, as far as items and notifications are concerned. -/
inductive Stage
  | out
  /-- Awake in the predicate wait, before the evaluation of the predicate. -/
  | checking
  /-- The predicate was false; before the load of `seq_`. -/
  | loading
  /-- Between the load of `seq_` and the return of `futex::wait`. -/
  | loaded
  /-- The predicate wait has returned; before the take. -/
  | taking
  /-- An item is added; before the `fetch_add` of `signal`. -/
  | pending
  /-- Before the `futex::wake` of `signal`. -/
  | signalled
  | pendingAll
  | broadcasted
  deriving DecidableEq

/-- The thread accounts for one item. -/
def Stage.covers : Stage → Bool
  | .checking | .taking | .pending | .signalled => true
  | _ => false

/-- The thread is going to wake everybody. -/
def Stage.announces : Stage → Bool
  | .pendingAll | .broadcasted => true
  | _ => false

variable {Tid : Type*} [Fintype Tid] [DecidableEq Tid]

/-- A step of thread `t` by stages, with the counter and the history of the notifications. -/
inductive Move (t : Tid) (items : ℕ) (w : History Tid) : Stage → ℕ → History Tid → Stage → Prop
  | keep (a : Stage) : Move t items w a items w a
  | enter : Move t items w .out items w .checking
  | succeed (h : 0 < items) : Move t items w .checking items w .taking
  | fail (h : items = 0) : Move t items w .checking items w .loading
  | load : Move t items w .loading items
      { w with loaded := Function.update w.loaded t w.total } .loaded
  | take : Move t items w .taking (items - 1) w .out
  | add : Move t items w .out (items + 1) w .pending
  | addAll (n : ℕ) : Move t items w .out (items + n) w .pendingAll
  | notify : Move t items w .pending items { w with total := w.total + 1 } .signalled
  | notifyAll : Move t items w .pendingAll items { w with total := w.total + 1 } .broadcasted

structure Balanced (items : ℕ) (w : History Tid) (asleep : Tid → Prop) (f : Tid → Stage) : Prop where
  known : ∀ t, f t = .loaded → w.loaded t ≤ w.total
  empty : ∀ t, f t = .loading → items = 0
  full : ∀ t, f t = .taking → 0 < items
  /-- Nobody has been notified since a consumer loaded `seq_`, so every item added since then has its
  producer before the `fetch_add`. -/
  fresh : (∃ t, f t = .loaded ∧ w.loaded t = w.total) →
    (∃ u, f u = .pendingAll) ∨ items ≤ count (· = .pending) f
  /-- While a consumer sleeps, every item is covered. -/
  covered : (∃ t, asleep t) → (∃ u, (f u).announces = true) ∨ items ≤ count Stage.covers f

variable {t : Tid} {items items' : ℕ} {w w' : History Tid} {asleep asleep' : Tid → Prop}
  {f f' : Tid → Stage} {a b : Stage}

theorem covers_of_pending {a : Stage} (h : decide (a = .pending) = true) : a.covers = true := by
  rw [of_decide_eq_true h]
  rfl

/-! ### What a step changes -/

namespace Move

theorem total (h : Move t items w a items' w' b) : w.total ≤ w'.total := by
  cases h <;> first | exact le_rfl | exact Nat.le_succ _

theorem loaded {u : Tid} (h : Move t items w a items' w' b) (hne : u ≠ t) :
    w'.loaded u = w.loaded u := by
  cases h with
  | load => exact Function.update_of_ne hne ..
  | _ => rfl

theorem known (h : Move t items w a items' w' b) (ha : a = .loaded → w.loaded t ≤ w.total)
    (hb : b = .loaded) : w'.loaded t ≤ w'.total := by
  cases h with
  | keep => exact ha hb
  | load => exact (Function.update_self ..).le
  | _ => cases hb

theorem empty (h : Move t items w a items' w' b) (ha : a = .loading → items = 0)
    (hb : b = .loading) : items' = 0 := by
  cases h with
  | keep => exact ha hb
  | fail h => exact h
  | _ => cases hb

theorem full (h : Move t items w a items' w' b) (ha : a = .taking → 0 < items)
    (hb : b = .taking) : 0 < items' := by
  cases h with
  | keep => exact ha hb
  | succeed h => exact h
  | _ => cases hb

/-- A thread that is going to notify everybody stays so until its wake. -/
theorem announces (h : Move t items w a items' w' b) (ha : a.announces = true) :
    b.announces = true := by
  cases h <;> first | exact ha | rfl

/-- A new item is covered, and only a take uncovers one. -/
theorem covers (h : Move t items w a items' w' b) (ha : a = .taking → 0 < items) :
    b.announces = true ∨ items' = 0 ∨ items' + a.covers.toNat ≤ items + b.covers.toNat := by
  cases h with
  | keep => exact Or.inr (Or.inr le_rfl)
  | fail h => exact Or.inr (Or.inl h)
  | take =>
      have hpos := ha rfl
      simp only [Stage.covers, Bool.toNat_true, Bool.toNat_false]
      omega
  | addAll n => exact Or.inl rfl
  | notifyAll => exact Or.inl rfl
  | _ => exact Or.inr (Or.inr (by simp [Stage.covers]))

/-- Before the `fetch_add` of its producer a new item is pending, or the producer notifies everybody.
The `fetch_add` overtakes every load. -/
theorem fresh (h : Move t items w a items' w' b) (ha : a = .loading → items = 0) :
    b = .pendingAll ∨ items' = 0 ∨ w'.total = w.total + 1 ∧ b ≠ .loaded ∨
      w' = w ∧ (a = .pendingAll → b = .pendingAll) ∧ (b = .loaded → a = .loaded) ∧
        items' + (decide (a = .pending)).toNat ≤ items + (decide (b = .pending)).toNat := by
  cases h with
  | keep => exact Or.inr (Or.inr (Or.inr ⟨rfl, id, id, le_rfl⟩))
  | load => exact Or.inr (Or.inl (ha rfl))
  | addAll n => exact Or.inl rfl
  | notify => exact Or.inr (Or.inr (Or.inl ⟨rfl, nofun⟩))
  | notifyAll => exact Or.inr (Or.inr (Or.inl ⟨rfl, nofun⟩))
  | _ => exact Or.inr (Or.inr (Or.inr ⟨rfl, nofun, nofun, by simp⟩))

end Move

namespace Balanced

theorem init (hasleep : ∀ t, ¬ asleep t) : Balanced 0 ⟨0, fun _ => 0⟩ asleep fun _ => .out where
  known _ h := nomatch h
  empty _ _ := rfl
  full _ h := nomatch h
  fresh := fun ⟨_, h, _⟩ => nomatch h
  covered := fun ⟨t, ht⟩ => absurd ht (hasleep t)

/-- A thread that has seen no notification since its load falls asleep. -/
theorem sleep (h : Balanced items w asleep f) (hloaded : f t = .loaded)
    (hfresh : w.loaded t = w.total) : Balanced items w asleep' f := by
  refine ⟨h.known, h.empty, h.full, h.fresh, fun _ => ?_⟩
  rcases h.fresh ⟨t, hloaded, hfresh⟩ with ⟨v, hv⟩ | hle
  · exact Or.inl ⟨v, by rw [hv]; rfl⟩
  · exact Or.inr (hle.trans (count_mono fun v => covers_of_pending))

theorem move (h : Balanced items w asleep f) (hm : Move t items w (f t) items' w' b)
    (hexcl : items' = items ∨ ∀ u, u ≠ t → f u ≠ .loading ∧ f u ≠ .taking) :
    Balanced items' w' asleep (Function.update f t b) := by
  have hself : Function.update f t b t = b := Function.update_self ..
  have hother : ∀ {u}, u ≠ t → Function.update f t b u = f u := fun hne => Function.update_of_ne hne ..
  refine ⟨fun u hu => ?_, fun u hu => ?_, fun u hu => ?_, fun ⟨u, hu, hw⟩ => ?_, fun hu => ?_⟩
  · by_cases hut : u = t
    · rw [hut, hself] at hu
      rw [hut]
      exact hm.known (h.known t) hu
    · rw [hother hut] at hu
      rw [hm.loaded hut]
      exact (h.known u hu).trans hm.total
  · by_cases hut : u = t
    · rw [hut, hself] at hu
      exact hm.empty (h.empty t) hu
    · rw [hother hut] at hu
      rw [hexcl.resolve_right fun hall => (hall u hut).1 hu]
      exact h.empty u hu
  · by_cases hut : u = t
    · rw [hut, hself] at hu
      exact hm.full (h.full t) hu
    · rw [hother hut] at hu
      rw [hexcl.resolve_right fun hall => (hall u hut).2 hu]
      exact h.full u hu
  · have hcount := count_update (p := (· = .pending)) (f := f) t b
    rcases hm.fresh (h.empty t) with hb | hzero | ⟨htotal, hb⟩ | ⟨rfl, hall, hloaded, hle⟩
    · exact Or.inl ⟨t, by rw [hself, hb]⟩
    · exact Or.inr (by omega)
    · have hut : u ≠ t := by
        rintro rfl
        exact hb (hself.symm.trans hu)
      rw [hother hut] at hu
      rw [hm.loaded hut, htotal] at hw
      have hle := h.known u hu
      omega
    · have hold : f u = .loaded := by
        by_cases hut : u = t
        · rw [hut, hself] at hu
          rw [hut]
          exact hloaded hu
        · rwa [hother hut] at hu
      refine (h.fresh ⟨u, hold, hw⟩).imp ?_ fun hle' => by omega
      rintro ⟨v, hv⟩
      by_cases hvt : v = t
      · rw [hvt] at hv
        exact ⟨t, by rw [hself, hall hv]⟩
      · exact ⟨v, by rwa [hother hvt]⟩
  · have hcount := count_update (p := Stage.covers) (f := f) t b
    rcases hm.covers (h.full t) with hb | hzero | hle
    · exact Or.inl ⟨t, by rwa [hself]⟩
    · exact Or.inr (by omega)
    · refine (h.covered hu).imp ?_ fun hold => by omega
      rintro ⟨v, hv⟩
      by_cases hvt : v = t
      · rw [hvt] at hv
        exact ⟨t, by rw [hself]; exact hm.announces hv⟩
      · exact ⟨v, by rwa [hother hvt]⟩

/-- Threads return from `futex::wait`. -/
theorem resume (h : Balanced items w asleep f)
    (hf : ∀ u, f' u = f u ∨ f u = .loaded ∧ f' u = .checking) (hasleep : ∀ u, asleep' u → asleep u) :
    Balanced items w asleep' f' := by
  have hback : ∀ {a u}, f' u = a → a ≠ .checking → f u = a := by
    intro a u hu hne
    rcases hf u with heq | ⟨-, hchecking⟩
    · rw [← heq, hu]
    · exact absurd (hu.symm.trans hchecking) hne
  have hforth : ∀ {a u}, f u = a → a ≠ .loaded → f' u = a := by
    intro a u hu hne
    rcases hf u with heq | ⟨hloaded, -⟩
    · rw [heq, hu]
    · exact absurd (hu.symm.trans hloaded) hne
  refine ⟨fun u hu => h.known u (hback hu nofun), fun u hu => h.empty u (hback hu nofun),
    fun u hu => h.full u (hback hu nofun), fun ⟨u, hu, hw⟩ => ?_, fun ⟨u, hu⟩ => ?_⟩
  · refine (h.fresh ⟨u, hback hu nofun, hw⟩).imp ?_ fun hle => hle.trans (count_mono fun v hv => ?_)
    · rintro ⟨v, hv⟩
      exact ⟨v, hforth hv nofun⟩
    · exact decide_eq_true (hforth (of_decide_eq_true hv) nofun)
  · refine (h.covered ⟨u, hasleep u hu⟩).imp ?_ fun hle => hle.trans (count_mono fun v hv => ?_)
    · rintro ⟨v, hv⟩
      refine ⟨v, ?_⟩
      rw [hforth rfl (fun hl => by rw [hl] at hv; cases hv)]
      exact hv
    · rcases hf v with heq | ⟨-, hchecking⟩
      · rwa [heq]
      · rw [hchecking]
        rfl

/-- A producer has finished its wake. -/
theorem leave (h : Balanced items w asleep f) (ht : f t = .signalled ∨ f t = .broadcasted)
    (hcover : (∃ u, asleep' u) → (∃ u, (Function.update f t .out u).announces = true) ∨
      items ≤ count Stage.covers (Function.update f t .out)) :
    Balanced items w asleep' (Function.update f t .out) := by
  have hback : ∀ {a u}, Function.update f t .out u = a → a ≠ .out → f u = a := by
    intro a u hu hne
    by_cases hut : u = t
    · rw [hut, Function.update_self] at hu
      exact absurd hu.symm hne
    · rwa [Function.update_of_ne hut] at hu
  have hforth : ∀ {a u}, f u = a → a ≠ .signalled → a ≠ .broadcasted →
      Function.update f t .out u = a := by
    intro a u hu hsignalled hbroadcasted
    by_cases hut : u = t
    · rw [hut] at hu
      rcases ht with ht | ht
      · exact absurd (hu.symm.trans ht) hsignalled
      · exact absurd (hu.symm.trans ht) hbroadcasted
    · rwa [Function.update_of_ne hut]
  refine ⟨fun u hu => h.known u (hback hu nofun), fun u hu => h.empty u (hback hu nofun),
    fun u hu => h.full u (hback hu nofun), fun ⟨u, hu, hw⟩ => ?_, hcover⟩
  refine (h.fresh ⟨u, hback hu nofun, hw⟩).imp ?_ fun hle => hle.trans (count_mono fun v hv => ?_)
  · rintro ⟨v, hv⟩
    exact ⟨v, hforth hv nofun nofun⟩
  · exact decide_eq_true (hforth (of_decide_eq_true hv) nofun nofun)

/-- `signal` wakes a sleeper, which covers the item from then on. -/
theorem signal {u : Tid} (h : Balanced items w asleep f) (ht : f t = .signalled)
    (hu : f u = .loaded) (hasleep : ∃ v, asleep v) (hasleep' : ∀ v, asleep' v → asleep v) :
    Balanced items w asleep' (Function.update (Function.update f u .checking) t .out) := by
  have htu : t ≠ u := by
    rintro rfl
    rw [ht] at hu
    cases hu
  have ht' : Function.update f u .checking t = .signalled := by rw [Function.update_of_ne htu, ht]
  have hwoken : Balanced items w asleep' (Function.update f u .checking) := by
    refine h.resume (fun v => ?_) hasleep'
    by_cases hvu : v = u
    · rw [hvu, Function.update_self]
      exact Or.inr ⟨hu, rfl⟩
    · exact Or.inl (Function.update_of_ne hvu ..)
  refine hwoken.leave (Or.inl ht') fun _ => ?_
  refine (h.covered hasleep).imp ?_ fun hle => ?_
  · rintro ⟨v, hv⟩
    have hvt : v ≠ t := by
      rintro rfl
      rw [ht] at hv
      cases hv
    have hvu : v ≠ u := by
      rintro rfl
      rw [hu] at hv
      cases hv
    exact ⟨v, by rwa [Function.update_of_ne hvt, Function.update_of_ne hvu]⟩
  · have hchecking := count_update (p := Stage.covers) (f := f) u .checking
    have hout := count_update (p := Stage.covers) (f := Function.update f u .checking) t .out
    rw [hu] at hchecking
    rw [ht'] at hout
    simp only [Stage.covers, Bool.toNat_true, Bool.toNat_false] at hchecking hout
    omega

end Balanced
end Psync.ConditionVariable.Client
