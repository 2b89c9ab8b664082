import MonoBus.Construction.Daemon
import MonoBus.Framework.LinkedList

/-!
# The list of scheduled messages in memory (`_sched_append`)

The elements are cells with a link, and `_sched_append` walks over them with a trailing pointer.
`schedAppend_linked` says that the cells it leaves are the list `schedAppend` returns.
-/

namespace MonoBus

/-- The fields `next` and `to` of the elements, by address. -/
structure SchedHeap where
  next : ℕ → ℕ
  to_ : ℕ → Timespec

namespace SchedHeap

/-- `ptr->next = q`. -/
def setNext (h : SchedHeap) (ptr q : ℕ) : SchedHeap where
  next := Function.update h.next ptr q
  to_ := h.to_

/-- The loop of `_sched_append`, which leaves `prev`. -/
def schedAppendLoop (h : SchedHeap) (elmnt : ℕ) : ℕ → ℕ → ℕ → Run ℕ
  | 0, _, _ => .error .outOfFuel
  | fuel + 1, prev, ptr =>
      if ptr = 0 then .ok prev
      else if (h.to_ ptr).sec > (h.to_ elmnt).sec ∧ (h.to_ ptr).nsec > (h.to_ elmnt).nsec then
        .ok prev
      else schedAppendLoop h elmnt fuel ptr (h.next ptr)

/-- `_sched_append`: the memory afterwards and the returned pointer. -/
def schedAppend (h : SchedHeap) (fuel list elmnt : ℕ) : Run (SchedHeap × ℕ) :=
  if list = 0 then .ok (h.setNext elmnt 0, elmnt)
  else do
    let prev ← h.schedAppendLoop elmnt fuel 0 list
    if prev = 0 then return (h.setNext elmnt list, elmnt)
    else return ((h.setNext elmnt (h.next prev)).setNext prev elmnt, list)

end SchedHeap

/-- A list in memory. -/
structure SchedList where
  heap : SchedHeap
  head : ℕ
  elements : List ℕ
  linked : Linked 0 heap.next head elements

/-- An element that is not in the list, as `malloc` returns it. -/
structure SchedList.New (l : SchedList) where
  elmnt : ℕ
  ne_zero : elmnt ≠ 0
  notMem : elmnt ∉ l.elements

/-! ## The walk -/

/-- The test at which the walk stops. -/
def Timespec.Exceeds (a b : Timespec) : Prop := a.sec > b.sec ∧ a.nsec > b.nsec

instance (a b : Timespec) : Decidable (a.Exceeds b) :=
  inferInstanceAs (Decidable (a.sec > b.sec ∧ a.nsec > b.nsec))

section Walk

variable {h : SchedHeap} {elmnt prev ptr fuel : ℕ} {xs : List ℕ}

/-- The list in front of the place where the walk stops. -/
def walked (h : SchedHeap) (elmnt : ℕ) (xs : List ℕ) : List ℕ :=
  xs.takeWhile fun x => ¬ (h.to_ x).Exceeds (h.to_ elmnt)

lemma schedAppendLoop_of_ne_zero (hptr : ptr ≠ 0) :
    h.schedAppendLoop elmnt (fuel + 1) prev ptr =
      if (h.to_ ptr).Exceeds (h.to_ elmnt) then .ok prev
      else h.schedAppendLoop elmnt fuel ptr (h.next ptr) := by
  rw [SchedHeap.schedAppendLoop, if_neg hptr]
  rfl

/-- The trailing pointer is the last element that was passed. -/
lemma schedAppendLoop_eq (hlinked : Linked 0 h.next ptr xs) (hfuel : xs.length < fuel) :
    h.schedAppendLoop elmnt fuel prev ptr =
      .ok ((walked h elmnt xs).getLast?.getD prev) := by
  induction xs generalizing ptr prev fuel with
  | nil =>
      obtain ⟨fuel, rfl⟩ := Nat.exists_eq_succ_of_ne_zero hfuel.ne'
      have hptr : ptr = 0 := hlinked
      rw [SchedHeap.schedAppendLoop, if_pos hptr]
      rfl
  | cons x xs ih =>
      obtain ⟨fuel, rfl⟩ := Nat.exists_eq_succ_of_ne_zero (Nat.ne_zero_of_lt hfuel)
      obtain ⟨rfl, hne, htail⟩ := hlinked
      rw [schedAppendLoop_of_ne_zero hne]
      by_cases hstop : (h.to_ ptr).Exceeds (h.to_ elmnt)
      · have hwalked : walked h elmnt (ptr :: xs) = [] :=
          List.takeWhile_cons_of_neg (by simpa using hstop)
        rw [if_pos hstop, hwalked]
        rfl
      · have hwalked : walked h elmnt (ptr :: xs) = ptr :: walked h elmnt xs :=
          List.takeWhile_cons_of_pos (by simpa using hstop)
        rw [if_neg hstop, hwalked, ih htail (Nat.lt_of_succ_lt_succ hfuel)]
        cases walked h elmnt xs with
        | nil => rfl
        | cons y ys => simp [List.getLast?_cons]

end Walk

/-! ## The list afterwards -/

/-- The new element stands where the walk stopped. -/
lemma schedAppend_cons (to_ : ℕ → Timespec) (x elmnt : ℕ) (xs : List ℕ) :
    schedAppend to_ (x :: xs) elmnt =
      if (to_ x).Exceeds (to_ elmnt) then elmnt :: x :: xs
      else x :: schedAppend to_ xs elmnt := rfl

lemma schedAppend_eq_append (h : SchedHeap) (elmnt : ℕ) (xs : List ℕ) :
    schedAppend h.to_ xs elmnt =
      walked h elmnt xs ++ elmnt ::
        xs.dropWhile fun x => ¬ (h.to_ x).Exceeds (h.to_ elmnt) := by
  induction xs with
  | nil => rfl
  | cons x xs ih =>
      rw [schedAppend_cons, walked]
      by_cases hstop : (h.to_ x).Exceeds (h.to_ elmnt)
      · rw [if_pos hstop, List.takeWhile_cons_of_neg (by simpa using hstop),
          List.dropWhile_cons_of_neg (by simpa using hstop), List.nil_append]
      · rw [if_neg hstop, List.takeWhile_cons_of_pos (by simpa using hstop),
          List.dropWhile_cons_of_pos (by simpa using hstop), ih, walked, List.cons_append]

/-- **The cells are the list.**  `_sched_append` returns, it leaves the times as they are, and its
cells are linked in the order of `schedAppend`. -/
theorem schedAppend_linked (l : SchedList) (new : l.New) :
    ∃ l' : SchedList,
      (∀ fuel, l.elements.length < fuel →
        l.heap.schedAppend fuel l.head new.elmnt = .ok (l'.heap, l'.head)) ∧
      l'.heap.to_ = l.heap.to_ ∧
      l'.elements = schedAppend l.heap.to_ l.elements new.elmnt := by
  obtain ⟨h, list, xs, hlinked⟩ := l
  obtain ⟨elmnt, hne, hnew⟩ := new
  dsimp only at hlinked hnew ⊢
  rw [schedAppend_eq_append]
  set after := xs.dropWhile fun x => ¬ (h.to_ x).Exceeds (h.to_ elmnt) with hafter
  have hsplit : walked h elmnt xs ++ after = xs := List.takeWhile_append_dropWhile
  rcases eq_or_ne list 0 with rfl | hlist
  · -- an empty list
    obtain rfl := hlinked.eq_nil
    refine ⟨⟨h.setNext elmnt 0, elmnt, [elmnt], hlinked.insertHead hne hnew⟩, ?_, rfl, rfl⟩
    intro fuel _
    rw [SchedHeap.schedAppend, if_pos rfl]
  · rcases List.eq_nil_or_concat (walked h elmnt xs) with hwalked | ⟨before, prev, hwalked⟩
    · -- the first element stops the walk
      rw [hwalked, List.nil_append] at hsplit ⊢
      rw [hsplit]
      refine ⟨⟨h.setNext elmnt list, elmnt, elmnt :: xs, hlinked.insertHead hne hnew⟩,
        ?_, rfl, rfl⟩
      intro fuel hfuel
      rw [SchedHeap.schedAppend, if_neg hlist, schedAppendLoop_eq hlinked hfuel, hwalked]
      rfl
    · -- the walk has passed `prev`
      rw [List.concat_eq_append] at hwalked
      rw [hwalked, List.append_assoc, List.singleton_append] at hsplit ⊢
      have hlinked' : Linked 0 h.next list (before ++ prev :: after) := by rwa [hsplit]
      have hprev : prev ≠ 0 := hlinked'.from_cell.2.1
      rw [← hsplit] at hnew
      refine ⟨⟨(h.setNext elmnt (h.next prev)).setNext prev elmnt, list,
        before ++ prev :: elmnt :: after, hlinked'.insertBehind hne hnew⟩, ?_, rfl, rfl⟩
      intro fuel hfuel
      rw [SchedHeap.schedAppend, if_neg hlist, schedAppendLoop_eq hlinked hfuel, hwalked,
        List.getLast?_concat, Option.getD_some, Run.ok_bind, if_neg hprev]
      rfl

end MonoBus
