/-! # Machines that may fail

A machine takes one turn after the other, until it ends or does something that is not defined.
It may also never stop.
-/

namespace Somenote

/-- What a turn of a machine comes to. -/
inductive Turn (σ α : Type)
  | next (s : σ)
  | ended (a : α)
  | fault

namespace Turn

variable {σ α : Type} {turn : σ → Turn σ α} {s s' s'' : σ} {a : α}

inductive Ends (turn : σ → Turn σ α) : σ → α → Prop
  | now {s : σ} {a : α} (h : turn s = .ended a) : Ends turn s a
  | next {s t : σ} {a : α} (h : turn s = .next t) (he : Ends turn t a) : Ends turn s a

inductive Faults (turn : σ → Turn σ α) : σ → Prop
  | now {s : σ} (h : turn s = .fault) : Faults turn s
  | next {s t : σ} (h : turn s = .next t) (hf : Faults turn t) : Faults turn s

/-- A machine that never stops. -/
def Spins (turn : σ → Turn σ α) (s : σ) : Prop :=
  ∃ I : σ → Prop, I s ∧ ∀ s, I s → ∃ s', turn s = .next s' ∧ I s'

inductive Leads (turn : σ → Turn σ α) : σ → σ → Prop
  | refl (s : σ) : Leads turn s s
  | next {s t u : σ} (h : turn s = .next t) (hl : Leads turn t u) : Leads turn s u

theorem Leads.trans (h : Leads turn s s') (h' : Leads turn s' s'') : Leads turn s s'' := by
  induction h with
  | refl => exact h'
  | next h _ ih => exact .next h (ih h')

theorem Leads.ends (h : Leads turn s s') (he : Ends turn s' a) : Ends turn s a := by
  induction h with
  | refl => exact he
  | next h _ ih => exact .next h (ih he)

theorem Leads.faults (h : Leads turn s s') (hf : Faults turn s') : Faults turn s := by
  induction h with
  | refl => exact hf
  | next h _ ih => exact .next h (ih hf)

theorem Leads.spins (h : Leads turn s s') (hs : Spins turn s') : Spins turn s := by
  induction h with
  | refl => exact hs
  | @next s s' u h _ ih =>
    obtain ⟨I, hI, hstep⟩ := ih hs
    refine ⟨fun u => u = s ∨ I u, Or.inl rfl, ?_⟩
    rintro u (rfl | hu)
    · exact ⟨s', h, Or.inr hI⟩
    · obtain ⟨u', hu', hI'⟩ := hstep u hu
      exact ⟨u', hu', Or.inr hI'⟩

theorem Ends.leads (h : Ends turn s a) : ∃ t, Leads turn s t ∧ turn t = .ended a := by
  induction h with
  | @now s _ h => exact ⟨s, .refl s, h⟩
  | next h _ ih =>
    obtain ⟨t, hl, ht⟩ := ih
    exact ⟨t, .next h hl, ht⟩

theorem faults_iff : Faults turn s ↔ ∃ t, Leads turn s t ∧ turn t = .fault := by
  constructor
  · intro hf
    induction hf with
    | @now s h => exact ⟨s, .refl s, h⟩
    | next h _ ih =>
      obtain ⟨t, hl, ht⟩ := ih
      exact ⟨t, .next h hl, ht⟩
  · rintro ⟨t, hl, ht⟩
    exact hl.faults (.now ht)

theorem Leads.inv {I : σ → Prop} (h : Leads turn s s') (hs : I s)
    (hstep : ∀ s t, I s → turn s = .next t → I t) : I s' := by
  induction h with
  | refl => exact hs
  | next h _ ih => exact ih (hstep _ _ hs h)

/-! A machine does only one of the three. -/

theorem Ends.not_faults (h : Ends turn s a) : ¬ Faults turn s := by
  induction h with
  | now h =>
    intro hf
    cases hf with
    | now h' => cases h.symm.trans h'
    | next h' => cases h.symm.trans h'
  | next h _ ih =>
    intro hf
    cases hf with
    | now h' => cases h.symm.trans h'
    | next h' hf =>
      cases h.symm.trans h'
      exact ih hf

theorem Spins.next (h : Spins turn s) (hl : Leads turn s s') : ∃ t, turn s' = .next t := by
  obtain ⟨I, hI, hstep⟩ := h
  have hinv : I s' := hl.inv hI fun u t hu ht => by
    obtain ⟨t', ht', hI'⟩ := hstep u hu
    cases ht.symm.trans ht'
    exact hI'
  obtain ⟨t, ht, -⟩ := hstep s' hinv
  exact ⟨t, ht⟩

theorem Spins.not_faults (h : Spins turn s) : ¬ Faults turn s := by
  intro hf
  obtain ⟨t, hl, ht⟩ := faults_iff.mp hf
  obtain ⟨t', ht'⟩ := h.next hl
  cases ht.symm.trans ht'

theorem Spins.not_ends (h : Spins turn s) : ¬ Ends turn s a := by
  intro he
  obtain ⟨t, hl, ht⟩ := he.leads
  obtain ⟨t', ht'⟩ := h.next hl
  cases ht.symm.trans ht'

end Turn

end Somenote
