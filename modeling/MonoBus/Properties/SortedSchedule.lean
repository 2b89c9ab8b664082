import MonoBus.Construction.SchedList
import MonoBus.Framework.SortedInsertion

/-!
# The schedule is sorted only by chance

The walk of `_sched_append` stops at an element that is later in both its seconds and its
nanoseconds.  In the order of times that is not every later element, so the new element can end
up behind one that is due after it.  It never ends up in front of an element of equal time.
-/

namespace MonoBus

/-- The time of an element, in the order of `tv_sec` and then `tv_nsec`. -/
def SchedHeap.time (h : SchedHeap) (ptr : ℕ) : ℤ ×ₗ ℕ :=
  toLex ((h.to_ ptr).sec, (h.to_ ptr).nsec)

namespace SchedList

/-- Each element is not later than the next. -/
def Sorted (l : SchedList) : Prop :=
  l.elements.Pairwise fun x y => l.heap.time x ≤ l.heap.time y

/-- The first element that is later than the new one, if there is one, has a larger `tv_sec` and
a larger `tv_nsec`. -/
def FirstLaterExceeds (l : SchedList) (new : l.New) : Prop :=
  ∀ x ∈ l.elements.find? (fun x => decide (l.heap.time new.elmnt < l.heap.time x)),
    (l.heap.to_ new.elmnt).sec < (l.heap.to_ x).sec ∧
      (l.heap.to_ new.elmnt).nsec < (l.heap.to_ x).nsec

lemma elements_eq {l l' : SchedList} (hheap : l.heap = l'.heap) (hhead : l.head = l'.head) :
    l.elements = l'.elements := by
  have hlinked := l.linked
  rw [hheap, hhead] at hlinked
  exact hlinked.unique l'.linked

end SchedList

/-! ## The test and the order -/

lemma time_lt_of_exceeds (h : SchedHeap) (elmnt x : ℕ)
    (hstop : (h.to_ x).Exceeds (h.to_ elmnt)) : h.time elmnt < h.time x :=
  Prod.Lex.toLex_lt_toLex.mpr (.inl hstop.1)

/-- `schedAppend` is an insertion that stops at the test. -/
lemma schedAppend_eq_orderedInsert (h : SchedHeap) (elmnt : ℕ) (xs : List ℕ) :
    schedAppend h.to_ xs elmnt =
      xs.orderedInsert (fun a x => (h.to_ x).Exceeds (h.to_ a)) elmnt := by
  induction xs with
  | nil => rfl
  | cons x xs ih => rw [schedAppend_cons, List.orderedInsert_cons, ih]

/-! ## Insertion -/

/-- A list of one element, two seconds after the start of 1970; every other address has the time
one second after it. -/
def dueAtTwo : SchedList where
  heap :=
    { next := fun _ => 0
      to_ := fun ptr => .ofTimetag (if ptr = 8 then 0x83aa7e8200000000 else 0x83aa7e8100000000) }
  head := 8
  elements := [8]
  linked := ⟨rfl, Nat.succ_ne_zero 7, rfl⟩

/-- An element one second after the start of 1970. -/
def dueAtOne : dueAtTwo.New where
  elmnt := 16
  ne_zero := Nat.succ_ne_zero 15
  notMem := by simp [dueAtTwo]

lemma dueAtTwo_sorted : dueAtTwo.Sorted := List.pairwise_singleton _ _

/-- **`_sched_append` as a stable sorted insertion.**  For every sorted list and every new
element, `_sched_append` returns a list in memory, which is sorted, consists of the old elements
and the new one, and has the new one behind those of equal time, exactly if the first later
element is later in both fields. -/
theorem schedAppend_stable_iff (l : SchedList) (new : l.New) (hsorted : l.Sorted) :
    ∃ l' : SchedList,
      (∀ fuel, l.elements.length < fuel →
        l.heap.schedAppend fuel l.head new.elmnt = .ok (l'.heap, l'.head)) ∧
      l'.heap.to_ = l.heap.to_ ∧
      (StableInsertion l.heap.time l.elements new.elmnt l'.elements ↔
        l.FirstLaterExceeds new) := by
  obtain ⟨l', hrun, hto, helements⟩ := schedAppend_linked l new
  refine ⟨l', hrun, hto, ?_⟩
  rw [helements, schedAppend_eq_orderedInsert]
  exact stableInsertion_orderedInsert_iff (time_lt_of_exceeds l.heap) hsorted

theorem schedAppend_stable_dueAtOne :
    ∃ l' : SchedList,
      (∀ fuel, 1 < fuel → dueAtTwo.heap.schedAppend fuel 8 16 = .ok (l'.heap, l'.head)) ∧
      l'.heap.to_ = dueAtTwo.heap.to_ ∧
      (StableInsertion dueAtTwo.heap.time [8] 16 l'.elements ↔
        dueAtTwo.FirstLaterExceeds dueAtOne) :=
  schedAppend_stable_iff dueAtTwo dueAtOne dueAtTwo_sorted

/-- The second of the two elements is the earlier one. -/
theorem schedAppend_unsorted :
    ¬ ∀ (l : SchedList) (new : l.New), l.Sorted →
      ∃ l' : SchedList,
        (∀ fuel, l.elements.length < fuel →
          l.heap.schedAppend fuel l.head new.elmnt = .ok (l'.heap, l'.head)) ∧
        StableInsertion l.heap.time l.elements new.elmnt l'.elements := by
  intro h
  obtain ⟨l', hrun, hstable⟩ := h dueAtTwo dueAtOne dueAtTwo_sorted
  obtain ⟨l'', hrun', -, helements⟩ := schedAppend_linked dueAtTwo dueAtOne
  have hsame := (hrun 2 Nat.one_lt_two).symm.trans (hrun' 2 Nat.one_lt_two)
  obtain ⟨hheap, hhead⟩ := Prod.mk.inj (Except.ok.inj hsame)
  have hl' : l'.elements = [8, 16] := by
    rw [SchedList.elements_eq hheap hhead, helements]
    decide
  have hle := hstable.sorted
  rw [hl', List.pairwise_pair] at hle
  exact absurd hle (by decide)

end MonoBus
