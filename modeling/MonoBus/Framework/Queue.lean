import Mathlib.Tactic

/-!
# A queue drained from the front

A loop takes elements from the front of a queue as long as a test `p` accepts the next one.  The
elements that ought to go are those with `due`.  `drained_iff` says which queues the loop drains
right, for any test and any `due`: an element that the loop gets to must be due if the test
accepts it, and behind an element the test refuses nothing may be due.
-/

namespace MonoBus

variable {α : Type*} {p : α → Bool} {l : List α} {e : α}

/-- What the loop takes. -/
lemma mem_takeWhile_iff :
    e ∈ l.takeWhile p ↔
      ∃ pre post, l = pre ++ e :: post ∧ (∀ x ∈ pre, p x = true) ∧ p e = true := by
  induction l with
  | nil => simp
  | cons a l ih =>
      by_cases ha : p a = true
      · rw [List.takeWhile_cons_of_pos ha, List.mem_cons, ih]
        constructor
        · rintro (rfl | ⟨pre, post, rfl, hpre, he⟩)
          · exact ⟨[], l, rfl, by simp, ha⟩
          · exact ⟨a :: pre, post, rfl, by simpa [ha] using hpre, he⟩
        · rintro ⟨pre, post, hl, hpre, he⟩
          cases pre with
          | nil => exact .inl (List.cons.inj hl).1.symm
          | cons b pre =>
              obtain ⟨rfl, rfl⟩ := List.cons.inj hl
              exact .inr ⟨pre, post, rfl, fun x hx => hpre x (List.mem_cons_of_mem _ hx), he⟩
      · rw [List.takeWhile_cons_of_neg ha]
        refine iff_of_false (by simp) ?_
        rintro ⟨pre, post, hl, hpre, he⟩
        cases pre with
        | nil => exact ha ((List.cons.inj hl).1 ▸ he)
        | cons b pre =>
            obtain ⟨rfl, -⟩ := List.cons.inj hl
            exact ha (hpre a List.mem_cons_self)

/-- What the loop leaves. -/
lemma mem_dropWhile_iff :
    e ∈ l.dropWhile p ↔
      ∃ pre post, l = pre ++ e :: post ∧ ¬ ((∀ x ∈ pre, p x = true) ∧ p e = true) := by
  induction l with
  | nil => simp
  | cons a l ih =>
      by_cases ha : p a = true
      · rw [List.dropWhile_cons_of_pos ha, ih]
        constructor
        · rintro ⟨pre, post, rfl, hnot⟩
          exact ⟨a :: pre, post, rfl, by simpa [ha] using hnot⟩
        · rintro ⟨pre, post, hl, hnot⟩
          cases pre with
          | nil =>
              obtain ⟨rfl, rfl⟩ := List.cons.inj hl
              exact absurd ⟨by simp, ha⟩ hnot
          | cons b pre =>
              obtain ⟨rfl, rfl⟩ := List.cons.inj hl
              exact ⟨pre, post, rfl, by simpa [ha] using hnot⟩
      · rw [List.dropWhile_cons_of_neg ha]
        constructor
        · intro he
          obtain ⟨pre, post, hl⟩ := List.append_of_mem he
          refine ⟨pre, post, hl, ?_⟩
          rintro ⟨hpre, hpe⟩
          cases pre with
          | nil => exact ha ((List.cons.inj hl).1 ▸ hpe)
          | cons b pre =>
              obtain ⟨rfl, -⟩ := List.cons.inj hl
              exact ha (hpre a List.mem_cons_self)
        · rintro ⟨pre, post, hl, -⟩
          simp [hl]

/-- Nothing is taken before it is due. -/
def NothingEarly (p : α → Bool) (due : α → Prop) (l : List α) : Prop :=
  ∀ pre e post, l = pre ++ e :: post → (∀ x ∈ pre, p x = true) → p e = true → due e

/-- Nothing that is due is held back. -/
def NothingHeldBack (p : α → Bool) (due : α → Prop) (l : List α) : Prop :=
  ∀ pre e post, l = pre ++ e :: post → due e → (∀ x ∈ pre, p x = true) ∧ p e = true

/-- The loop takes exactly the elements that are due if and only if the queue holds nothing that
it takes early or holds back. -/
theorem drained_iff {due : α → Prop} :
    ((∀ e ∈ l.takeWhile p, due e) ∧ ∀ e ∈ l.dropWhile p, ¬ due e) ↔
      NothingEarly p due l ∧ NothingHeldBack p due l := by
  simp only [mem_takeWhile_iff, mem_dropWhile_iff]
  constructor
  · rintro ⟨htaken, hleft⟩
    refine ⟨fun pre e post hl hpre he => htaken e ⟨pre, post, hl, hpre, he⟩, ?_⟩
    intro pre e post hl hdue
    by_contra hnot
    exact hleft e ⟨pre, post, hl, hnot⟩ hdue
  · rintro ⟨hearly, hheld⟩
    refine ⟨?_, ?_⟩
    · rintro e ⟨pre, post, hl, hpre, he⟩
      exact hearly pre e post hl hpre he
    · rintro e ⟨pre, post, hl, hnot⟩ hdue
      exact hnot (hheld pre e post hl hdue)

end MonoBus
