import Mathlib.Tactic

/-!
# Single errors and check sums

`OneError l l' i` says that two lists of one length differ in position `i` and nowhere else.  The
sums of such lists under a commutative and associative operation differ as the two symbols do
(`checkSum_exchange`), so a sum catches every error in what it covers.
-/

namespace MonoBus

variable {α : Type*}

/-! ## Lists that differ in one position -/

/-- The lists differ in position `i` only. -/
structure OneError (l l' : List α) (i : ℕ) : Prop where
  length_eq : l'.length = l.length
  ne : l[i]? ≠ l'[i]?
  eq_of_ne : ∀ k, k ≠ i → l[k]? = l'[k]?

lemma OneError.lt_length {l l' : List α} {i : ℕ} (h : OneError l l' i) : i < l.length := by
  by_contra hi
  have hi' : ¬ i < l'.length := by rwa [h.length_eq]
  rw [not_lt] at hi hi'
  apply h.ne
  rw [List.getElem?_eq_none hi, List.getElem?_eq_none hi']

/-- The symbol that is replaced, and what stands around it. -/
lemma OneError.split {l l' : List α} {i : ℕ} (h : OneError l l' i) :
    ∃ u x y v, l = u ++ x :: v ∧ l' = u ++ y :: v ∧ u.length = i ∧ x ≠ y := by
  have hi := h.lt_length
  have hi' : i < l'.length := by rwa [h.length_eq]
  refine ⟨l.take i, l.get ⟨i, hi⟩, l'.get ⟨i, hi'⟩, l.drop (i + 1), ?_, ?_, ?_, ?_⟩
  · simp
  · apply List.ext_getElem?
    intro k
    rcases lt_trichotomy k i with hk | rfl | hk
    · rw [List.getElem?_append_left (by simp; omega), List.getElem?_take_of_lt hk]
      exact (h.eq_of_ne k hk.ne).symm
    · rw [List.getElem?_append_right (by simp)]
      simp [hi', min_eq_left hi.le]
    · rw [List.getElem?_append_right (by simp; omega), List.length_take, min_eq_left hi.le,
        List.getElem?_cons, if_neg (by omega), List.getElem?_drop, ← h.eq_of_ne k hk.ne']
      congr 1
      omega
  · simp [hi.le]
  · intro hxy
    apply h.ne
    rw [List.getElem?_eq_getElem hi, List.getElem?_eq_getElem hi']
    exact congrArg some hxy

/-- Replacing a symbol by another. -/
lemma OneError.of_split {x y : α} (u v : List α) (hxy : x ≠ y) :
    OneError (u ++ x :: v) (u ++ y :: v) u.length where
  length_eq := by simp
  ne := by simpa using hxy
  eq_of_ne := by
    intro k hk
    rcases lt_or_gt_of_ne hk with hk | hk
    · rw [List.getElem?_append_left hk, List.getElem?_append_left hk]
    · rw [List.getElem?_append_right hk.le, List.getElem?_append_right hk.le,
        List.getElem?_cons, List.getElem?_cons, if_neg (by omega), if_neg (by omega)]

/-! ## Check sums -/

section CheckSum

variable (op : α → α → α) (e : α)

/-- The sum of a list, from the first symbol to the last. -/
def checkSum (l : List α) : α := l.foldl op e

lemma checkSum_concat (l : List α) (x : α) :
    checkSum op e (l ++ [x]) = op (checkSum op e l) x := by
  rw [checkSum, List.foldl_append, checkSum, List.foldl_cons, List.foldl_nil]

variable [Std.Commutative op] [Std.Associative op]

/-- The position of a symbol does not matter. -/
lemma checkSum_insert (u v : List α) (x : α) :
    checkSum op e (u ++ x :: v) = op (checkSum op e (u ++ v)) x := by
  unfold checkSum
  rw [List.foldl_append, List.foldl_append, List.foldl_cons]
  generalize List.foldl op e u = s
  induction v generalizing s with
  | nil => rfl
  | cons y v ih =>
      rw [List.foldl_cons, List.foldl_cons, ← ih]
      congr 1
      ac_rfl

/-- The sums of two lists that differ in one symbol. -/
lemma checkSum_exchange (u v : List α) (x y : α) :
    op (checkSum op e (u ++ x :: v)) y = op (checkSum op e (u ++ y :: v)) x := by
  rw [checkSum_insert, checkSum_insert]
  ac_rfl

end CheckSum

end MonoBus
