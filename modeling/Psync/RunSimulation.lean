import Psync.RunMachine

/-! Simulations between two machines, and runs that come to an end because every step brings it
nearer. -/

namespace Concurrency.Machine

variable {σ τ α β : Type*} {M : Machine σ α} {N : Machine τ β} {ok : StepCond σ α}
  {ok' : StepCond τ β} {R : σ → τ → Prop}

/-- Related states have matching steps, which lead to related states. -/
def Simulates (M : Machine σ α) (ok : StepCond σ α) (N : Machine τ β) (ok' : StepCond τ β)
    (R : σ → τ → Prop) : Prop :=
  ∀ s s' t, R s t → M.Step ok s s' → ∃ t', N.Step ok' t t' ∧ R s' t'

theorem Simulates.leads (h : Simulates M ok N ok' R) {s s' : σ} {t : τ} (hR : R s t)
    (hlead : M.Leads ok s s') : ∃ t', N.Leads ok' t t' ∧ R s' t' := by
  unfold Leads at hlead
  induction hlead with
  | refl => exact ⟨t, .refl, hR⟩
  | tail _ hstep ih =>
      obtain ⟨u, hu, hRu⟩ := ih
      obtain ⟨t', ht', hR'⟩ := h _ _ u hRu hstep
      exact ⟨t', hu.tail ht', hR'⟩

theorem Simulates.reachable (h : Simulates M ok N ok' R) (hinit : R M.init N.init) {s : σ}
    (hreach : M.Reachable ok s) : ∃ t, N.Reachable ok' t ∧ R s t :=
  h.leads hinit hreach

variable (N ok' R) in
/-- A run is followed by one of the other machine, which may take any number of steps for each of its own. -/
theorem Reachable.follow {s : σ} (h : M.Reachable ok s) (hinit : R M.init N.init)
    (hstep : ∀ {u a u' t}, M.Reachable ok u → N.Reachable ok' t → R u t → M.next u a = some u' →
      ok u a u' → ∃ t', N.Leads ok' t t' ∧ R u' t') : ∃ t, N.Reachable ok' t ∧ R s t := by
  refine h.induct (I := fun s => ∃ t, N.Reachable ok' t ∧ R s t) ⟨N.init, .refl, hinit⟩ ?_
  rintro u a u' hreach ⟨t, ht, hR⟩ hs ha
  obtain ⟨t', hlead, hR'⟩ := hstep hreach ht hR hs ha
  exact ⟨t', ht.trans hlead, hR'⟩

/-- A run that can always lower `w`, as long as it is not `done`, comes to an end. -/
theorem Leads.descend {I done : σ → Prop} (w : σ → ℕ)
    (round : ∀ s, I s → ¬ done s → ∃ s', M.Leads ok s s' ∧ I s' ∧ w s' < w s) {s : σ} (h : I s) :
    ∃ s', M.Leads ok s s' ∧ I s' ∧ done s' := by
  induction hw : w s using Nat.strongRecOn generalizing s with
  | ind n ih =>
      by_cases hdone : done s
      · exact ⟨s, .refl, h, hdone⟩
      · obtain ⟨u, hu, hI, hlt⟩ := round s h hdone
        obtain ⟨s', hlead, hend⟩ := ih (w u) (hw ▸ hlt) hI rfl
        exact ⟨s', hu.trans hlead, hend⟩

/-- A run whose every step lowers `w`, as long as it is not `done`, comes to an end. -/
theorem Leads.to_end {I done : σ → Prop} (w : σ → ℕ)
    (step : ∀ s, I s → ¬ done s → ∃ s', M.Step ok s s' ∧ I s' ∧ w s' < w s) {s : σ} (h : I s) :
    ∃ s', M.Leads ok s s' ∧ I s' ∧ done s' := by
  refine Leads.descend w (fun u hu hdone => ?_) h
  obtain ⟨u', hstep, hrest⟩ := step u hu hdone
  exact ⟨u', .single hstep, hrest⟩

end Concurrency.Machine
