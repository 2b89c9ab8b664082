import Mathlib.Tactic
import Mathlib.Data.List.TakeWhile

/-!
# A queue that is drained in rounds

In each round some elements arrive at the end of a queue, and then elements are taken from its
front as long as a test accepts them.  If the tests only become weaker, what has been taken after a
round is the longest accepted part of all that has arrived (`Drains.taken_eq`): an element waits
for itself and for everything in front of it, and for nothing else.
-/

namespace MonoBus

variable {α : Type*}

/-- A round: what arrives, the test, and what is taken. -/
structure DrainRound (α : Type*) where
  arrived : List α
  test : α → Bool
  taken : List α

/-- Everything that arrives in some rounds. -/
def arrivals (rounds : List (DrainRound α)) : List α := rounds.flatMap DrainRound.arrived

/-- Everything that is taken in some rounds. -/
def takings (rounds : List (DrainRound α)) : List α := rounds.flatMap DrainRound.taken

@[simp] lemma arrivals_nil : arrivals ([] : List (DrainRound α)) = [] := rfl

@[simp] lemma takings_nil : takings ([] : List (DrainRound α)) = [] := rfl

@[simp] lemma arrivals_cons (r : DrainRound α) (rounds : List (DrainRound α)) :
    arrivals (r :: rounds) = r.arrived ++ arrivals rounds := rfl

@[simp] lemma takings_cons (r : DrainRound α) (rounds : List (DrainRound α)) :
    takings (r :: rounds) = r.taken ++ takings rounds := rfl

/-- Rounds that start from a queue. -/
inductive Drains : List α → List (DrainRound α) → Prop
  | nil (queue : List α) : Drains queue []
  | cons {queue : List α} {r : DrainRound α} {rounds : List (DrainRound α)} :
      r.taken = (queue ++ r.arrived).takeWhile r.test →
      Drains ((queue ++ r.arrived).dropWhile r.test) rounds →
      Drains queue (r :: rounds)

/-- What a test accepts is accepted by all later tests. -/
def Weakening (rounds : List (DrainRound α)) : Prop :=
  rounds.Pairwise fun r r' => ∀ a, r.test a = true → r'.test a = true

namespace Drains

variable {queue : List α} {rounds before after : List (DrainRound α)} {r : DrainRound α}

/-- **Rounds.**  After each round of a run, what has been taken is the longest part, from the front,
of all that has arrived that the test of the round accepts. -/
theorem taken_eq (h : Drains queue rounds) (hweak : Weakening rounds)
    (hrounds : rounds = before ++ r :: after) :
    takings (before ++ [r]) = (queue ++ arrivals (before ++ [r])).takeWhile r.test := by
  induction h generalizing before with
  | nil queue => exact absurd hrounds.symm (by simp)
  | @cons queue r₀ rounds htaken _ ih =>
      obtain ⟨hlater, hweak⟩ := List.pairwise_cons.mp hweak
      cases before with
      | nil =>
          obtain ⟨rfl, -⟩ := List.cons.inj hrounds
          simpa using htaken
      | cons r₁ before =>
          obtain ⟨rfl, hrest⟩ := List.cons.inj hrounds
          have hmem : r ∈ rounds := by
            rw [hrest]
            exact List.mem_append_right _ List.mem_cons_self
          -- what this round has taken is accepted by the later test as well
          have haccepts : ∀ a ∈ r₀.taken, r.test a = true := by
            intro a ha
            rw [htaken] at ha
            exact hlater r hmem a (List.mem_takeWhile_imp ha)
          have hsplit : queue ++ arrivals (r₀ :: before ++ [r]) =
              r₀.taken ++ ((queue ++ r₀.arrived).dropWhile r₀.test ++
                arrivals (before ++ [r])) := by
            rw [htaken, ← List.append_assoc (List.takeWhile _ _), List.takeWhile_append_dropWhile,
              List.cons_append, arrivals_cons, List.append_assoc]
          rw [hsplit, List.takeWhile_append_of_pos haccepts, ← ih hweak hrest, List.cons_append,
            takings_cons]

end Drains

end MonoBus
