import Mathlib.Data.List.Sort
import Mathlib.Tactic

/-!
# Insertion into a sorted list

An insertion stops at the first element that passes a test.  If only later elements pass it, the
new element always ends up behind those that are not later.  The list stays sorted exactly if the
first later element passes (`stableInsertion_orderedInsert_iff`).
-/

namespace MonoBus

variable {α β : Type*} [LinearOrder β]

/-- The list `l'` is sorted by `key` and is `l` with `a` put behind the elements of equal key. -/
structure StableInsertion (key : α → β) (l : List α) (a : α) (l' : List α) : Prop where
  sorted : l'.Pairwise fun x y => key x ≤ key y
  perm : l'.Perm (a :: l)
  split : ∃ before after,
    l = before ++ after ∧ l' = before ++ a :: after ∧ ∀ x ∈ after, key x ≠ key a

variable {key : α → β} {stop : α → α → Prop} [DecidableRel stop] {a : α} {l : List α}

/-- The first later element decides whether the list stays sorted. -/
lemma pairwise_orderedInsert_iff (hstop : ∀ x y, stop x y → key x < key y)
    (hl : l.Pairwise fun x y => key x ≤ key y) :
    ((l.orderedInsert stop a).Pairwise fun x y => key x ≤ key y) ↔
      ∀ x ∈ l.find? (fun x => decide (key a < key x)), stop a x := by
  induction l with
  | nil => simp
  | cons x l ih =>
      obtain ⟨hx, hl'⟩ := List.pairwise_cons.mp hl
      by_cases hlt : key a < key x
      · have hfind : (x :: l).find? (fun x => decide (key a < key x)) = some x :=
          List.find?_cons_of_pos (decide_eq_true hlt)
        simp only [hfind, Option.mem_some_iff, forall_eq']
        constructor
        · intro h
          by_contra hnot
          rw [List.orderedInsert_cons, if_neg hnot] at h
          have ha := (List.pairwise_cons.mp h).1 a (List.mem_orderedInsert stop |>.mpr (.inl rfl))
          exact absurd hlt (not_lt.mpr ha)
        · intro h
          rw [List.orderedInsert_cons, if_pos h]
          refine List.pairwise_cons.mpr ⟨fun y hy => ?_, hl⟩
          rcases List.mem_cons.mp hy with rfl | hy
          · exact hlt.le
          · exact hlt.le.trans (hx y hy)
      · have hnot : ¬ stop a x := fun h => hlt (hstop a x h)
        rw [List.orderedInsert_cons, if_neg hnot, List.find?_cons_of_neg (by simpa using hlt),
          List.pairwise_cons, ← ih hl']
        apply and_iff_right
        intro y hy
        rcases (List.mem_orderedInsert stop).mp hy with rfl | hy
        · exact not_lt.mp hlt
        · exact hx y hy

/-- No element of equal key stands behind the new one. -/
lemma split_orderedInsert (hstop : ∀ x y, stop x y → key x < key y)
    (hl : l.Pairwise fun x y => key x ≤ key y) :
    ∃ before after, l = before ++ after ∧ l.orderedInsert stop a = before ++ a :: after ∧
      ∀ x ∈ after, key x ≠ key a := by
  induction l with
  | nil => exact ⟨[], [], rfl, rfl, by simp⟩
  | cons x l ih =>
      obtain ⟨hx, hl'⟩ := List.pairwise_cons.mp hl
      by_cases h : stop a x
      · refine ⟨[], x :: l, rfl, by rw [List.orderedInsert_cons, if_pos h]; rfl, fun y hy => ?_⟩
        rcases List.mem_cons.mp hy with rfl | hy
        · exact (hstop a y h).ne'
        · exact ((hstop a x h).trans_le (hx y hy)).ne'
      · obtain ⟨before, after, hsplit, hinsert, hafter⟩ := ih hl'
        refine ⟨x :: before, after, by rw [hsplit, List.cons_append], ?_, hafter⟩
        rw [List.orderedInsert_cons, if_neg h, hinsert, List.cons_append]

/-- **Insertion with a test that only later elements pass.** -/
theorem stableInsertion_orderedInsert_iff (hstop : ∀ x y, stop x y → key x < key y)
    (hl : l.Pairwise fun x y => key x ≤ key y) :
    StableInsertion key l a (l.orderedInsert stop a) ↔
      ∀ x ∈ l.find? (fun x => decide (key a < key x)), stop a x := by
  rw [← pairwise_orderedInsert_iff hstop hl]
  constructor
  · exact fun h => h.sorted
  · intro h
    exact ⟨h, List.perm_orderedInsert stop a l, split_orderedInsert hstop hl⟩

end MonoBus
