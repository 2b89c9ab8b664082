import Mathlib.Tactic

/-!
# Runs of failing steps against an abstract model

A run folds a step that may fail over a list of operations.  If every permitted operation,
taken in related states, succeeds and leads to related states again, then so does every run of
permitted operations.
-/

namespace MonoBus

variable {σ τ α ε : Type*}

/-- The run lemma of a forward simulation. -/
theorem foldlM_simulates {step : σ → α → Except ε σ} {astep : τ → α → τ}
    {R : σ → τ → Prop} {P : α → Prop}
    (hstep : ∀ s t a, R s t → P a → ∃ s', step s a = .ok s' ∧ R s' (astep t a)) :
    ∀ (as : List α) {s : σ} {t : τ}, R s t → (∀ a ∈ as, P a) →
      ∃ s', as.foldlM step s = .ok s' ∧ R s' (as.foldl astep t) := by
  intro as
  induction as with
  | nil => intro s t hR _; exact ⟨s, rfl, hR⟩
  | cons a as ih =>
      intro s t hR hP
      obtain ⟨s₁, hs₁, hR₁⟩ := hstep s t a hR (hP a List.mem_cons_self)
      obtain ⟨s', hrun, hR'⟩ := ih hR₁ (fun b hb => hP b (List.mem_cons_of_mem a hb))
      refine ⟨s', ?_, hR'⟩
      rw [List.foldlM_cons, hs₁]
      exact hrun

end MonoBus
