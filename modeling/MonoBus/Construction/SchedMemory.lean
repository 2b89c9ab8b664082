import MonoBus.Construction.SchedList
import MonoBus.Framework.Ledger

/-!
# The scheduled messages as allocated elements

`SchedStore` is what the loops over `app->list` work on: elements at addresses, each with its link,
as long as `malloc` has handed them out and `free` has not got them back.  To touch any other
address is a fault.  `Holds` says that the store is a list of the abstract daemon and nothing else,
and every operation keeps it (`Holds.schedule`, `Holds.readList`, `Holds.schedDeinit`).
-/

namespace MonoBus

/-- Where `malloc` has put an element. -/
def Sched.address (elmnt : Sched) : ℕ := elmnt.buf.base - sizeofSched

/-- An element in memory. -/
structure SchedCell where
  next : ℕ
  elmnt : Sched

/-- The allocated elements by address, `app->list`, and the calls of `malloc` and `free`. -/
structure SchedStore where
  cells : ℕ → Option SchedCell
  list : ℕ
  trace : List (LedgerEvent ℕ)

namespace SchedStore

/-- Before the first message. -/
def empty : SchedStore where
  cells := fun _ => none
  list := 0
  trace := []

/-- The members of the element at an address. -/
def load (s : SchedStore) (ptr : ℕ) : Run SchedCell :=
  match s.cells ptr with
  | some cell => .ok cell
  | none => .error .outOfRange

/-- `ptr->next = q`. -/
def setNext (s : SchedStore) (ptr q : ℕ) : Run SchedStore := do
  let cell ← s.load ptr
  return { s with cells := Function.update s.cells ptr (some { cell with next := q }) }

/-- `malloc`, and the assignments to the new element. -/
def malloc (s : SchedStore) (elmnt : Sched) : SchedStore where
  cells := Function.update s.cells elmnt.address (some ⟨0, elmnt⟩)
  list := s.list
  trace := s.trace ++ [.acquire elmnt.address]

/-- `free`. -/
def free (s : SchedStore) (ptr : ℕ) : Run SchedStore := do
  let _ ← s.load ptr
  return {
    s with
    cells := Function.update s.cells ptr none
    trace := s.trace ++ [.release ptr] }

/-- The loop of `_sched_append`, which leaves `prev`. -/
def appendLoop (s : SchedStore) (elmnt : ℕ) : ℕ → ℕ → ℕ → Run ℕ
  | 0, _, _ => .error .outOfFuel
  | fuel + 1, prev, ptr =>
      if ptr = 0 then .ok prev
      else do
        let cell ← s.load ptr
        let new ← s.load elmnt
        if cell.elmnt.to_.sec > new.elmnt.to_.sec ∧ cell.elmnt.to_.nsec > new.elmnt.to_.nsec then
          return prev
        else appendLoop s elmnt fuel ptr cell.next

/-- `app->list = _sched_append(app->list, elmnt)`. -/
def append (s : SchedStore) (fuel elmnt : ℕ) : Run SchedStore :=
  if s.list = 0 then do
    let s ← s.setNext elmnt 0
    return { s with list := elmnt }
  else do
    let prev ← s.appendLoop elmnt fuel 0 s.list
    if prev = 0 then do
      let s ← s.setNext elmnt s.list
      return { s with list := elmnt }
    else do
      let cell ← s.load prev
      let s ← s.setNext elmnt cell.next
      s.setNext prev elmnt

/-- What `_handle_osc_packet` does to the store when `malloc` has answered. -/
def schedule (s : SchedStore) (fuel : ℕ) (elmnt : Sched) : Run SchedStore :=
  (s.malloc elmnt).append fuel elmnt.address

/-- `app->list = elmnt->next` and `free(elmnt)`. -/
def pop (s : SchedStore) (elmnt : ℕ) : Run SchedStore := do
  let cell ← s.load elmnt
  { s with list := cell.next }.free elmnt

/-- The loop of `_beat` over the list, with the messages it hands to `_handle_osc_packet`, which
reads `buf` and `len` of the element. -/
def readList (to_ : Timespec) : ℕ → SchedStore → Run (SchedStore × List Sched)
  | 0, _ => .error .outOfFuel
  | fuel + 1, s =>
      if s.list = 0 then .ok (s, [])
      else do
        let cell ← s.load s.list
        if to_.diff cell.elmnt.to_ < 0 then return (s, [])
        else do
          let handled ← s.load s.list
          let s ← s.pop s.list
          let (s, elmnts) ← readList to_ fuel s
          return (s, handled.elmnt :: elmnts)

/-- `_sched_deinit`. -/
def schedDeinit : ℕ → SchedStore → Run SchedStore
  | 0, _ => .error .outOfFuel
  | fuel + 1, s =>
      if s.list = 0 then .ok s
      else do
        let s ← s.pop s.list
        schedDeinit fuel s

lemma nsecs_pos : 0 < nsecs := by decide

/-- The links and times, wherever an element is. -/
def heap (s : SchedStore) : SchedHeap where
  next := fun a => ((s.cells a).map SchedCell.next).getD 0
  to_ := fun a => ((s.cells a).map fun cell => cell.elmnt.to_).getD ⟨0, 0, nsecs_pos⟩

/-- The element at an address. -/
def elmntAt (s : SchedStore) (a : ℕ) : Option Sched := (s.cells a).map SchedCell.elmnt

/-- A store that is a list of messages: its cells are those of the list, linked in its order, and
they are what `malloc` has handed out and not got back. -/
structure Holds (s : SchedStore) (list : List Sched) : Prop where
  linked : Linked 0 s.heap.next s.list (list.map Sched.address)
  elmntAt : ∀ elmnt ∈ list, s.elmntAt elmnt.address = some elmnt
  only : ∀ a, s.elmntAt a ≠ none → a ∈ list.map Sched.address
  ledger : settle 0 s.trace = some (list.map Sched.address : Multiset ℕ)

lemma holds_empty : empty.Holds [] where
  linked := rfl
  elmntAt _ h := absurd h List.not_mem_nil
  only _ h := absurd rfl h
  ledger := rfl

/-! ## One access -/

section Access

variable {s s' : SchedStore} {ptr q : ℕ} {cell : SchedCell}

lemma load_eq (h : s.cells ptr = some cell) : s.load ptr = .ok cell := by
  rw [load, h]

lemma exists_cell {elmnt : Sched} (h : s.elmntAt ptr = some elmnt) :
    s.cells ptr = some ⟨s.heap.next ptr, elmnt⟩ := by
  obtain ⟨cell, hcell, rfl⟩ := Option.map_eq_some_iff.mp h
  have hnext : s.heap.next ptr = cell.next := by simp [heap, hcell]
  rw [hcell, hnext]

lemma setNext_eq {elmnt : Sched} (h : s.elmntAt ptr = some elmnt) (q : ℕ) :
    ∃ s', s.setNext ptr q = .ok s' ∧ s'.heap = s.heap.setNext ptr q ∧ s'.elmntAt = s.elmntAt ∧
      s'.list = s.list ∧ s'.trace = s.trace := by
  have hcell := exists_cell h
  have hrun : s.setNext ptr q =
      .ok { s with cells := Function.update s.cells ptr (some ⟨q, elmnt⟩) } := by
    rw [setNext, load_eq hcell, Run.ok_bind, Run.pure_eq]
  refine ⟨_, hrun, ?_, ?_, rfl, rfl⟩
  · unfold heap SchedHeap.setNext
    congr 1 <;> funext a <;> rcases eq_or_ne a ptr with rfl | ha
    · simp
    · simp [Function.update_of_ne ha]
    · simp [hcell]
    · simp [Function.update_of_ne ha]
  · funext a
    unfold SchedStore.elmntAt
    rcases eq_or_ne a ptr with rfl | ha
    · simp [hcell]
    · simp [Function.update_of_ne ha]

end Access

/-! ## A new element -/

section Append

variable {s : SchedStore} {ptr prev elmnt fuel : ℕ} {new : Sched} {xs : List ℕ}

lemma heap_to {e : Sched} (h : s.elmntAt ptr = some e) : s.heap.to_ ptr = e.to_ := by
  obtain ⟨cell, hcell, rfl⟩ := Option.map_eq_some_iff.mp h
  simp [heap, hcell]

/-- The walk touches elements of the list and the new one. -/
lemma appendLoop_eq (hlinked : Linked 0 s.heap.next ptr xs)
    (hlive : ∀ x ∈ xs, s.elmntAt x ≠ none) (hnew : s.elmntAt elmnt = some new) :
    s.appendLoop elmnt fuel prev ptr = s.heap.schedAppendLoop elmnt fuel prev ptr := by
  induction fuel generalizing prev ptr xs with
  | zero => rfl
  | succ fuel ih =>
      rcases eq_or_ne ptr 0 with rfl | hptr
      · rfl
      · obtain ⟨ys, rfl, htail⟩ := hlinked.eq_cons hptr
        obtain ⟨e, he⟩ := Option.ne_none_iff_exists'.mp (hlive ptr List.mem_cons_self)
        have hih := @ih _ ptr _ htail fun x hx => hlive x (List.mem_cons_of_mem ptr hx)
        rw [appendLoop, SchedHeap.schedAppendLoop, if_neg hptr, if_neg hptr,
          load_eq (exists_cell he), load_eq (exists_cell hnew), heap_to he, heap_to hnew,
          Run.ok_bind, Run.ok_bind, hih]
        rfl

/-- The element the walk stops behind is one of the list. -/
lemma mem_of_schedAppendLoop {h : SchedHeap} (hlinked : Linked 0 h.next ptr xs)
    (hfuel : xs.length < fuel) (hloop : h.schedAppendLoop elmnt fuel 0 ptr = .ok prev)
    (hprev : prev ≠ 0) : prev ∈ xs := by
  rw [schedAppendLoop_eq hlinked hfuel] at hloop
  obtain rfl := Except.ok.inj hloop
  cases hlast : (walked h elmnt xs).getLast? with
  | none => exact absurd (by rw [hlast]; rfl) hprev
  | some x =>
      rw [Option.getD_some]
      exact (List.takeWhile_sublist _).subset (List.mem_of_getLast? hlast)

lemma append_eq (hlinked : Linked 0 s.heap.next s.list xs)
    (hlive : ∀ x ∈ xs, s.elmntAt x ≠ none) (hnew : s.elmntAt elmnt = some new)
    (hfuel : xs.length < fuel) {h' : SchedHeap} {head : ℕ}
    (hrun : s.heap.schedAppend fuel s.list elmnt = .ok (h', head)) :
    ∃ s', s.append fuel elmnt = .ok s' ∧ s'.heap = h' ∧ s'.list = head ∧
      s'.elmntAt = s.elmntAt ∧ s'.trace = s.trace := by
  unfold SchedHeap.schedAppend at hrun
  unfold append
  rw [appendLoop_eq hlinked hlive hnew]
  split_ifs at hrun ⊢ with hlist
  · obtain ⟨s', hset, hheap, helmnt, -, htrace⟩ := setNext_eq hnew 0
    obtain ⟨rfl, rfl⟩ := Prod.mk.inj (Except.ok.inj hrun)
    exact ⟨{ s' with list := elmnt }, by rw [hset]; rfl, hheap, rfl, helmnt, htrace⟩
  · obtain ⟨prev, hloop, hrun⟩ := Run.bind_eq_ok.mp hrun
    rw [hloop, Run.ok_bind]
    split_ifs at hrun ⊢ with hprev
    · obtain ⟨s', hset, hheap, helmnt, -, htrace⟩ := setNext_eq hnew s.list
      obtain ⟨rfl, rfl⟩ := Prod.mk.inj (Except.ok.inj hrun)
      exact ⟨{ s' with list := elmnt }, by rw [hset]; rfl, hheap, rfl, helmnt, htrace⟩
    · have hmem := mem_of_schedAppendLoop hlinked hfuel hloop hprev
      obtain ⟨e, he⟩ := Option.ne_none_iff_exists'.mp (hlive prev hmem)
      obtain ⟨s₁, hset₁, hheap₁, helmnt₁, hlist₁, htrace₁⟩ :=
        setNext_eq hnew (s.heap.next prev)
      obtain ⟨s₂, hset₂, hheap₂, helmnt₂, hlist₂, htrace₂⟩ :=
        setNext_eq (s := s₁) (helmnt₁ ▸ he) elmnt
      obtain ⟨rfl, rfl⟩ := Prod.mk.inj (Except.ok.inj hrun)
      refine ⟨s₂, ?_, by rw [hheap₂, hheap₁], hlist₂.trans hlist₁, helmnt₂.trans helmnt₁,
        htrace₂.trans htrace₁⟩
      rw [load_eq (exists_cell he), Run.ok_bind, hset₁, Run.ok_bind, hset₂]

/-- The new element stands where the abstract one stands. -/
lemma map_schedAppend {α : Type} (f : Sched → α) (to_ : α → Timespec) {list : List Sched}
    {e : Sched} (h : ∀ x ∈ e :: list, to_ (f x) = x.to_) :
    (schedAppend Sched.to_ list e).map f = schedAppend to_ (list.map f) (f e) := by
  induction list with
  | nil => rfl
  | cons x list ih =>
      have hx : to_ (f x) = x.to_ := h x (by simp)
      have he : to_ (f e) = e.to_ := h e (by simp)
      have htail := ih fun y hy => h y (by
        rw [List.mem_cons] at hy ⊢
        exact hy.imp_right (List.mem_cons_of_mem x))
      rw [List.map_cons, schedAppend, schedAppend, hx, he]
      split_ifs
      · rfl
      · rw [List.map_cons, htail]

end Append

/-! ## The operations -/

section Operations

variable {s : SchedStore} {list : List Sched} {e : Sched} {fuel : ℕ} {to_ : Timespec}

lemma elmntAt_malloc : (s.malloc e).elmntAt = Function.update s.elmntAt e.address (some e) := by
  funext a
  unfold SchedStore.elmntAt malloc
  rcases eq_or_ne a e.address with rfl | ha
  · simp
  · simp [Function.update_of_ne ha]

lemma heap_malloc : (s.malloc e).heap.next = Function.update s.heap.next e.address 0 := by
  funext a
  unfold heap malloc
  rcases eq_or_ne a e.address with rfl | ha
  · simp
  · simp [Function.update_of_ne ha]

/-- **A message is scheduled.**  It is the last one of the list. -/
theorem Holds.schedule (h : s.Holds list) (hne : e.address ≠ 0)
    (hnew : e.address ∉ list.map Sched.address) (hfuel : list.length < fuel) :
    ∃ s', s.schedule fuel e = .ok s' ∧ s'.Holds (list ++ [e]) := by
  have helmnt (x : Sched) (hx : x ∈ e :: list) :
      (s.malloc e).elmntAt x.address = some x := by
    rw [elmntAt_malloc]
    obtain rfl | hx := List.mem_cons.mp hx
    · rw [Function.update_self]
    · have hxe : x.address ≠ e.address := fun heq =>
        hnew (heq ▸ List.mem_map_of_mem hx)
      rw [Function.update_of_ne hxe, h.elmntAt x hx]
  have hlinked : Linked 0 (s.malloc e).heap.next (s.malloc e).list (list.map Sched.address) := by
    rw [heap_malloc]
    exact h.linked.update hnew 0
  obtain ⟨l', hrun, -, helements⟩ := schedAppend_linked ⟨(s.malloc e).heap, _, _, hlinked⟩
    ⟨e.address, hne, hnew⟩
  have hlength : (list.map Sched.address).length < fuel := by rwa [List.length_map]
  obtain ⟨s', happend, hheap, hlist, helmnt', htrace⟩ := append_eq hlinked
    (fun a ha => by
      obtain ⟨x, hx, rfl⟩ := List.mem_map.mp ha
      rw [helmnt x (List.mem_cons_of_mem e hx)]
      exact Option.some_ne_none x)
    (helmnt e List.mem_cons_self) hlength (hrun fuel hlength)
  refine ⟨s', happend, ?_, ?_, ?_, ?_⟩
  · rw [hheap, hlist, ← schedAppend_eq, map_schedAppend Sched.address (s.malloc e).heap.to_
      fun x hx => heap_to (helmnt x hx), ← helements]
    exact l'.linked
  · intro x hx
    rw [helmnt']
    exact helmnt x (by simpa [or_comm] using hx)
  · intro a ha
    rw [helmnt', elmntAt_malloc] at ha
    rw [List.map_append, List.mem_append]
    rcases eq_or_ne a e.address with rfl | hae
    · exact .inr (by simp)
    · rw [Function.update_of_ne hae] at ha
      exact .inl (h.only a ha)
  · rw [htrace]
    show settle 0 (s.trace ++ [.acquire e.address]) = _
    rw [settle_append, h.ledger, Option.bind_some, settle_acquire (by simpa using hnew), settle]
    rw [List.map_append, List.map_singleton, Multiset.cons_coe, Option.some_inj,
      Multiset.coe_eq_coe]
    exact (List.perm_append_singleton _ _).symm

lemma Holds.list_eq_zero_iff (h : s.Holds list) : s.list = 0 ↔ list = [] := by
  constructor
  · intro hzero
    have hlinked := h.linked
    rw [hzero] at hlinked
    exact List.map_eq_nil_iff.mp hlinked.eq_nil
  · rintro rfl
    exact h.linked

/-- A store of a list that is not empty points to its first message. -/
lemma Holds.head (h : s.Holds (e :: list)) :
    s.list = e.address ∧ s.cells e.address = some ⟨s.heap.next e.address, e⟩ :=
  ⟨h.linked.1, exists_cell (h.elmntAt e List.mem_cons_self)⟩

/-- **The first message is taken off and freed.** -/
theorem Holds.pop (h : s.Holds (e :: list)) :
    ∃ s', s.pop e.address = .ok s' ∧ s'.Holds list := by
  obtain ⟨-, hcell⟩ := h.head
  have hnodup := h.linked.nodup
  rw [List.map_cons, List.nodup_cons] at hnodup
  have hne (x : Sched) (hx : x ∈ list) : x.address ≠ e.address := fun heq =>
    hnodup.1 (heq ▸ List.mem_map_of_mem hx)
  let s' : SchedStore :=
    ⟨Function.update s.cells e.address none, s.heap.next e.address,
      s.trace ++ [.release e.address]⟩
  have hrun : s.pop e.address = .ok s' := by
    rw [SchedStore.pop, load_eq hcell, Run.ok_bind, free, load, hcell]
    rfl
  have hheap : s'.heap.next = Function.update s.heap.next e.address 0 := by
    funext a
    unfold heap
    rcases eq_or_ne a e.address with rfl | ha
    · simp [s']
    · simp [s', Function.update_of_ne ha]
  have hothers (a : ℕ) (ha : a ≠ e.address) : s'.elmntAt a = s.elmntAt a := by
    simp [SchedStore.elmntAt, s', Function.update_of_ne ha]
  refine ⟨s', hrun, ?_, ?_, ?_, ?_⟩
  · rw [hheap]
    exact h.linked.2.2.update hnodup.1 0
  · intro x hx
    rw [hothers _ (hne x hx)]
    exact h.elmntAt x (List.mem_cons_of_mem e hx)
  · intro a ha
    rcases eq_or_ne a e.address with rfl | hae
    · simp [SchedStore.elmntAt, s'] at ha
    · rw [hothers a hae] at ha
      have hmem := h.only a ha
      rw [List.map_cons] at hmem
      exact (List.mem_cons.mp hmem).resolve_left hae
  · show settle 0 (s.trace ++ [.release e.address]) = _
    rw [settle_append, h.ledger, Option.bind_some, settle_release (by simp), settle]
    simp

/-- **The loop of the beat.**  The store is drained as the abstract list is. -/
theorem Holds.readList (h : s.Holds list) (hfuel : list.length < fuel) :
    ∃ s', s.readList to_ fuel = .ok (s', list.takeWhile to_.reaches) ∧
      s'.Holds (list.dropWhile to_.reaches) := by
  induction list generalizing s fuel with
  | nil =>
      obtain ⟨fuel, rfl⟩ := Nat.exists_eq_succ_of_ne_zero (Nat.ne_zero_of_lt hfuel)
      exact ⟨s, by rw [SchedStore.readList, if_pos (h.list_eq_zero_iff.mpr rfl)]; rfl, h⟩
  | cons e list ih =>
      obtain ⟨fuel, rfl⟩ := Nat.exists_eq_succ_of_ne_zero (Nat.ne_zero_of_lt hfuel)
      obtain ⟨hlist, hcell⟩ := h.head
      have hne : s.list ≠ 0 := fun hzero => nomatch h.list_eq_zero_iff.mp hzero
      rw [SchedStore.readList, if_neg hne, hlist, load_eq hcell, Run.ok_bind]
      by_cases hdue : to_.diff e.to_ < 0
      · have hreaches : to_.reaches e = false := by simpa [Timespec.reaches] using hdue
        rw [if_pos hdue, List.takeWhile_cons_of_neg (by simp [hreaches]),
          List.dropWhile_cons_of_neg (by simp [hreaches])]
        exact ⟨s, rfl, h⟩
      · have hreaches : to_.reaches e = true := by simpa [Timespec.reaches] using hdue
        obtain ⟨s₁, hpop, hheld⟩ := h.pop
        obtain ⟨s', hrun, hheld'⟩ := ih hheld (Nat.lt_of_succ_lt_succ hfuel)
        rw [if_neg hdue, Run.ok_bind, hpop, Run.ok_bind, hrun,
          List.takeWhile_cons_of_pos hreaches, List.dropWhile_cons_of_pos hreaches]
        exact ⟨s', rfl, hheld'⟩

/-- **The end.**  Everything is freed. -/
theorem Holds.schedDeinit (h : s.Holds list) (hfuel : list.length < fuel) :
    ∃ s', s.schedDeinit fuel = .ok s' ∧ s'.Holds [] := by
  induction list generalizing s fuel with
  | nil =>
      obtain ⟨fuel, rfl⟩ := Nat.exists_eq_succ_of_ne_zero (Nat.ne_zero_of_lt hfuel)
      exact ⟨s, by rw [SchedStore.schedDeinit, if_pos (h.list_eq_zero_iff.mpr rfl)], h⟩
  | cons e list ih =>
      obtain ⟨fuel, rfl⟩ := Nat.exists_eq_succ_of_ne_zero (Nat.ne_zero_of_lt hfuel)
      have hne : s.list ≠ 0 := fun hzero => nomatch h.list_eq_zero_iff.mp hzero
      obtain ⟨s₁, hpop, hheld⟩ := h.pop
      rw [SchedStore.schedDeinit, if_neg hne, h.head.1, hpop, Run.ok_bind]
      exact ih hheld (Nat.lt_of_succ_lt_succ hfuel)

end Operations

end SchedStore

end MonoBus
