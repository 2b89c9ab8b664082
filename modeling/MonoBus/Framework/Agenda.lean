import Mathlib.Tactic

/-!
# Messages that wait for their time

A state, and a list of messages that wait for it, each with a key.  A message that arrives acts at
once or goes to the end of the list.  In every round the messages that arrive are taken first; then
those at the front of the list act, as far as their keys are due.
-/

namespace MonoBus

/-- A state and the messages that wait, in the order they arrived. -/
structure Agenda (σ κ μ : Type*) where
  state : σ
  pending : List (κ × μ)

namespace Agenda

variable {σ κ μ : Type*} (act : σ → μ → σ)

/-- A message without a key acts at once, and any other waits. -/
def receive (A : Agenda σ κ μ) (x : Option κ × μ) : Agenda σ κ μ :=
  match x.1 with
  | none => { A with state := act A.state x.2 }
  | some k => { A with pending := A.pending ++ [(k, x.2)] }

/-- The messages in front of the first that is not due act. -/
def release (due : κ → Bool) (A : Agenda σ κ μ) : Agenda σ κ μ where
  state := (A.pending.takeWhile fun x => due x.1).foldl (fun s x => act s x.2) A.state
  pending := A.pending.dropWhile fun x => due x.1

/-- One round. -/
def round (due : κ → Bool) (A : Agenda σ κ μ) (xs : List (Option κ × μ)) : Agenda σ κ μ :=
  (xs.foldl (receive act) A).release act due

/-- The states at the end of each round, where `due k` says what is due in round `k`. -/
def shown (due : ℕ → κ → Bool) : ℕ → Agenda σ κ μ → List (List (Option κ × μ)) → List σ
  | _, _, [] => []
  | k, A, xs :: rounds =>
      (A.round act (due k) xs).state :: shown due (k + 1) (A.round act (due k) xs) rounds

variable {act}

/-- A message that is due acts, and the rest is released behind it. -/
lemma release_of_due {due : κ → Bool} {s : σ} {x : κ × μ} {pending : List (κ × μ)}
    (h : due x.1 = true) :
    (⟨s, x :: pending⟩ : Agenda σ κ μ).release act due =
      (⟨act s x.2, pending⟩ : Agenda σ κ μ).release act due := by
  simp only [release, List.takeWhile_cons, List.dropWhile_cons, h, if_true, List.foldl_cons]

/-- A message that is not due keeps all behind it waiting. -/
lemma release_of_not_due {due : κ → Bool} {s : σ} {x : κ × μ} {pending : List (κ × μ)}
    (h : due x.1 = false) :
    (⟨s, x :: pending⟩ : Agenda σ κ μ).release act due = ⟨s, x :: pending⟩ := by
  simp [release, h]

end Agenda

end MonoBus
