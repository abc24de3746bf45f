import Mathlib.Tactic

/-! Runs of a system whose steps may be undefined: a run stays lawful exactly if each of its steps
is harmless. -/
namespace GuardedRuns
variable {σ α : Type*} (step : σ → α → Option σ)

/-- A condition holds for each action of a run where it is taken. -/
def Throughout (P : σ → α → Prop) : σ → List α → Prop
  | _, [] => True
  | s, a::l => P s a ∧ ∀ s', step s a=some s' → Throughout P s' l

/-- The run is defined and every state that it reaches is lawful. -/
def Always (Lawful : σ → Prop) : σ → List α → Prop
  | s, [] => Lawful s
  | s, a::l => Lawful s ∧ ∃ s', step s a=some s' ∧ Always Lawful s' l

instance decidableForallEqSome {P : σ → Prop} [DecidablePred P] :
    (o : Option σ) → Decidable (∀ s, o=some s → P s)
  | none => isTrue fun _ h => absurd h (by simp)
  | some s => decidable_of_iff (P s) ⟨fun hs _ h => Option.some.inj h ▸ hs,fun h => h s rfl⟩

instance decidableThroughout (P : σ → α → Prop) [∀ s,DecidablePred (P s)] :
    (s : σ) → (l : List α) → Decidable (Throughout step P s l)
  | _, [] => isTrue trivial
  | s, a::l =>
    have : DecidablePred fun s' => Throughout step P s' l := fun s' => decidableThroughout P s' l
    inferInstanceAs (Decidable (P s a ∧ ∀ s', step s a=some s' → Throughout step P s' l))

variable {step} {I Lawful : σ → Prop} {Admitted Harmless : σ → α → Prop} {s : σ} {l : List α}

theorem Always.lawful (h : Always step Lawful s l) : Lawful s := by
  cases l with
  | nil => exact h
  | cons a l => exact h.1

/-- Harmless steps keep an invariant of lawful states. -/
theorem Throughout.always (hlawful : ∀ s, I s → Lawful s)
    (hstep : ∀ s a, I s → Admitted s a → Harmless s a → ∃ s', step s a=some s' ∧ I s')
    (hs : I s) (h : Throughout step Harmless s l) (hadmitted : Throughout step Admitted s l) :
    Always step Lawful s l := by
  induction l generalizing s with
  | nil => exact hlawful s hs
  | cons a l ih =>
    obtain ⟨s',hs',hinv⟩ := hstep s a hs hadmitted.1 h.1
    exact ⟨hlawful s hs,s',hs',ih hinv (h.2 s' hs') (hadmitted.2 s' hs')⟩

/-- The other steps lead to a state that is not lawful, or to none. -/
theorem Always.throughout
    (hstep : ∀ s a, I s → Admitted s a → Harmless s a → ∃ s', step s a=some s' ∧ I s')
    (hbreak : ∀ s a s', I s → Admitted s a → ¬Harmless s a → step s a=some s' → ¬Lawful s')
    (hs : I s) (hadmitted : Throughout step Admitted s l) (h : Always step Lawful s l) :
    Throughout step Harmless s l := by
  induction l generalizing s with
  | nil => trivial
  | cons a l ih =>
    obtain ⟨-,s',hs',hrest⟩ := h
    have hharmless : Harmless s a := by
      by_contra hno
      exact hbreak s a s' hs hadmitted.1 hno hs' hrest.lawful
    obtain ⟨s'',hs'',hinv⟩ := hstep s a hs hadmitted.1 hharmless
    obtain rfl := Option.some.inj (hs'.symm.trans hs'')
    refine ⟨hharmless,fun t ht => ?_⟩
    obtain rfl := Option.some.inj (ht.symm.trans hs')
    exact ih hinv (hadmitted.2 t ht) hrest

end GuardedRuns
