import Mathlib.Tactic
import Mathlib.Logic.Function.Basic

/-!
# Singly linked lists

`Linked null next p xs` says that the links `next`, followed from `p` on, go through `xs` and end
at `null`.  The links determine the list (`Linked.unique`), which therefore has no cycle
(`Linked.nodup`).  A new cell is put in front of it or behind one of its cells by setting links
(`Linked.insertHead`, `Linked.insertBehind`).
-/

namespace MonoBus

variable {α : Type*} {null : α} {next : α → α} {p a x : α} {xs ys before after : List α}

/-- The cells from `p` to `null`. -/
def Linked (null : α) (next : α → α) : α → List α → Prop
  | p, [] => p = null
  | p, x :: xs => p = x ∧ x ≠ null ∧ Linked null next (next x) xs

namespace Linked

lemma eq_nil (h : Linked null next null xs) : xs = [] := by
  cases xs with
  | nil => rfl
  | cons x xs =>
      obtain ⟨hx, hne, -⟩ := h
      exact absurd hx.symm hne

lemma eq_cons (h : Linked null next p xs) (hp : p ≠ null) :
    ∃ ys, xs = p :: ys ∧ Linked null next (next p) ys := by
  cases xs with
  | nil => exact absurd h hp
  | cons x xs =>
      obtain ⟨rfl, -, htail⟩ := h
      exact ⟨xs, rfl, htail⟩

/-- The links determine the list. -/
lemma unique (hxs : Linked null next p xs) (hys : Linked null next p ys) : xs = ys := by
  induction xs generalizing p ys with
  | nil =>
      have hp : p = null := hxs
      subst hp
      exact hys.eq_nil.symm
  | cons x xs ih =>
      obtain ⟨rfl, hne, htail⟩ := hxs
      obtain ⟨zs, rfl, htail'⟩ := hys.eq_cons hne
      rw [ih htail htail']

/-- The list from one of its cells on. -/
lemma from_cell (h : Linked null next p (before ++ x :: after)) :
    Linked null next x (x :: after) := by
  induction before generalizing p with
  | nil =>
      obtain ⟨-, hne, htail⟩ := h
      exact ⟨rfl, hne, htail⟩
  | cons y before ih =>
      obtain ⟨-, -, htail⟩ := h
      exact ih htail

/-- No cell occurs twice. -/
lemma nodup (h : Linked null next p xs) : xs.Nodup := by
  induction xs generalizing p with
  | nil => exact List.nodup_nil
  | cons x xs ih =>
      obtain ⟨-, hne, htail⟩ := h
      refine List.nodup_cons.mpr ⟨fun hx => ?_, ih htail⟩
      obtain ⟨before, after, rfl⟩ := List.append_of_mem hx
      -- the list behind the first occurrence would be the one behind the second
      have htail' := htail.from_cell.2.2
      have hlength := congrArg List.length (htail.unique htail')
      simp only [List.length_append, List.length_cons] at hlength
      omega

variable [DecidableEq α]

/-- Links of other cells do not matter. -/
lemma update (h : Linked null next p xs) (ha : a ∉ xs) (q : α) :
    Linked null (Function.update next a q) p xs := by
  induction xs generalizing p with
  | nil => exact h
  | cons x xs ih =>
      obtain ⟨hp, hne, htail⟩ := h
      rw [List.mem_cons, not_or] at ha
      refine ⟨hp, hne, ?_⟩
      rw [Function.update_of_ne (Ne.symm ha.1)]
      exact ih htail ha.2

/-- A new cell in front of the list. -/
lemma insertHead (h : Linked null next p xs) (ha : a ≠ null) (hnew : a ∉ xs) :
    Linked null (Function.update next a p) a (a :: xs) := by
  refine ⟨rfl, ha, ?_⟩
  rw [Function.update_self]
  exact h.update hnew p

/-- A new cell behind one of the list. -/
lemma insertBehind (h : Linked null next p (before ++ x :: after)) (ha : a ≠ null)
    (hnew : a ∉ before ++ x :: after) :
    Linked null (Function.update (Function.update next a (next x)) x a) p
      (before ++ x :: a :: after) := by
  induction before generalizing p with
  | nil =>
      have hx : x ∉ after := (List.nodup_cons.mp h.nodup).1
      obtain ⟨hp, hne, htail⟩ := h
      simp only [List.nil_append, List.mem_cons, not_or] at hnew
      have hahead := htail.insertHead ha hnew.2
      refine ⟨hp, hne, ?_⟩
      rw [Function.update_self]
      exact hahead.update (by simpa [Ne.symm hnew.1] using hx) a
  | cons y before ih =>
      have hy : y ≠ x := by
        rintro rfl
        have hmem : y ∈ before ++ y :: after := by simp
        exact (List.nodup_cons.mp h.nodup).1 hmem
      obtain ⟨hp, hne, htail⟩ := h
      rw [List.cons_append, List.mem_cons, not_or] at hnew
      refine ⟨hp, hne, ?_⟩
      rw [Function.update_of_ne hy, Function.update_of_ne (Ne.symm hnew.1)]
      exact ih htail hnew.2

end Linked

end MonoBus
