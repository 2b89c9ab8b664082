import Mathlib.Tactic
import Mathlib.Data.List.ProdSigma
import Mathlib.Logic.Function.Basic

/-!
# Sweeps: loops that visit each cell of a table at most once

A double loop over rows and columns that updates the cell it stands on is a fold over the
product of the two ranges.  Where the loop visits no cell twice its order does not matter:
each visited cell holds its new value computed from its old one, and the others are unchanged.
The cell update may read something that fails; the sweep then fails exactly if one of the
reads does.
-/

namespace MonoBus

universe u

variable {κ ι β γ σ ε : Type u}

/-! ## Nested loops as one loop -/

lemma foldlM_product {m : Type u → Type u} [Monad m] [LawfulMonad m]
    (ys : List κ) (xs : List ι) (f : σ → κ → ι → m σ) (s : σ) :
    ys.foldlM (fun s y => xs.foldlM (fun s x => f s y x) s) s =
      (ys ×ˢ xs).foldlM (fun s p => f s p.1 p.2) s := by
  induction ys generalizing s with
  | nil => rfl
  | cons y ys ih =>
      rw [List.product_cons, List.foldlM_cons, List.foldlM_append, List.foldlM_map]
      exact bind_congr fun s' => ih s'

lemma foldlM_congr_mem {m : Type u → Type u} [Monad m] {f g : σ → κ → m σ} {ks : List κ}
    (h : ∀ s, ∀ k ∈ ks, f s k = g s k) (s : σ) : ks.foldlM f s = ks.foldlM g s := by
  induction ks generalizing s with
  | nil => rfl
  | cons k ks ih =>
      rw [List.foldlM_cons, List.foldlM_cons, h s k List.mem_cons_self]
      exact bind_congr fun s' => ih (fun s k hk => h s k (List.mem_cons_of_mem _ hk)) s'

/-! ## One sweep -/

variable [DecidableEq ι]

/-- Visit the cells `cell k`, each time reading `read k` and replacing the value `v` of the
cell by `upd k b v`. -/
def sweep (cell : κ → ι) (read : κ → Except ε β) (upd : κ → β → γ → γ) (ks : List κ)
    (s : ι → γ) : Except ε (ι → γ) :=
  ks.foldlM (fun s k => do
    let b ← read k
    pure (Function.update s (cell k) (upd k b (s (cell k))))) s

section

variable {cell : κ → ι} {read : κ → Except ε β} {upd : κ → β → γ → γ}

@[simp] lemma sweep_nil (s : ι → γ) : sweep cell read upd [] s = .ok s := rfl

lemma sweep_cons (k : κ) (ks : List κ) (s : ι → γ) :
    sweep cell read upd (k :: ks) s = (do
      let b ← read k
      sweep cell read upd ks (Function.update s (cell k) (upd k b (s (cell k))))) := by
  simp [sweep]

/-- A sweep all of whose reads succeed succeeds. -/
lemma sweep_ok (cell : κ → ι) (read : κ → Except ε β) (upd : κ → β → γ → γ) (val : κ → β) :
    ∀ (ks : List κ) (s : ι → γ), (∀ k ∈ ks, read k = .ok (val k)) →
      (ks.map cell).Nodup →
      ∃ s', sweep cell read upd ks s = .ok s' ∧
        (∀ k ∈ ks, s' (cell k) = upd k (val k) (s (cell k))) ∧
        ∀ i, i ∉ ks.map cell → s' i = s i := by
  intro ks
  induction ks with
  | nil => intro s _ _; exact ⟨s, rfl, by simp, fun _ _ => rfl⟩
  | cons k ks ih =>
      intro s hread hnodup
      obtain ⟨hk, hks⟩ := List.nodup_cons.mp hnodup
      obtain ⟨s', hrun, hin, hout⟩ := ih
        (Function.update s (cell k) (upd k (val k) (s (cell k))))
        (fun k' hk' => hread k' (List.mem_cons_of_mem k hk')) hks
      refine ⟨s', ?_, ?_, ?_⟩
      · rw [sweep_cons, hread k List.mem_cons_self]
        exact hrun
      · intro k' hk'
        rcases List.mem_cons.mp hk' with rfl | hmem
        · rw [hout _ hk, Function.update_self]
        · have hne : cell k' ≠ cell k :=
            fun h => hk (h ▸ List.mem_map_of_mem hmem)
          rw [hin k' hmem, Function.update_of_ne hne]
      · intro i hi
        rw [List.map_cons, List.mem_cons, not_or] at hi
        rw [hout i hi.2, Function.update_of_ne hi.1]

/-- A sweep that succeeds has read everything it visits. -/
lemma read_ok_of_sweep_ok :
    ∀ {ks : List κ} {s s' : ι → γ}, sweep cell read upd ks s = .ok s' →
      ∀ k ∈ ks, ∃ b, read k = .ok b := by
  intro ks
  induction ks with
  | nil => intro s s' _ k hk; simp at hk
  | cons k ks ih =>
      intro s s' hrun k' hk'
      rw [sweep_cons] at hrun
      cases hread : read k with
      | error e => rw [hread] at hrun; simp [bind, Except.bind] at hrun
      | ok b =>
          rw [hread] at hrun
          rcases List.mem_cons.mp hk' with rfl | hmem
          · exact ⟨b, hread⟩
          · exact ih hrun k' hmem

/-- The only way for a sweep to fail is a read that fails. -/
lemma exists_read_error_of_sweep_error :
    ∀ {ks : List κ} {s : ι → γ} {e : ε}, sweep cell read upd ks s = .error e →
      ∃ k ∈ ks, read k = .error e := by
  intro ks
  induction ks with
  | nil => intro s e h; simp at h
  | cons k ks ih =>
      intro s e hrun
      rw [sweep_cons] at hrun
      cases hread : read k with
      | error e' =>
          rw [hread] at hrun
          have he : e' = e := by simpa [bind, Except.bind] using hrun
          exact ⟨k, List.mem_cons_self, by rw [hread, he]⟩
      | ok b =>
          rw [hread] at hrun
          obtain ⟨k', hmem, hk'⟩ := ih hrun
          exact ⟨k', List.mem_cons_of_mem k hmem, hk'⟩

end

end MonoBus
