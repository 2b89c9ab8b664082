import Mathlib.Data.Multiset.AddSub
import Mathlib.Tactic

/-!
# Resources that are acquired and released

A trace records which resources a program acquires and releases.  What a cleanup has to achieve
is stated of the trace (`ReleasedOnce`, `NoStray`).  `settle` keeps a ledger of what is held: it
goes through if no resource is acquired while it is held or released while it is not.  A trace
that settles from nothing to nothing has both properties (`releasedOnce_of_settle`,
`noStray_of_settle`), and traces settle piece by piece (`settle_append`).
-/

namespace MonoBus

variable {α : Type*} [DecidableEq α]

/-- What happens to a resource. -/
inductive LedgerEvent (α : Type*)
  | acquire (x : α)
  | release (x : α)
  deriving DecidableEq

/-- What is held after one more event. -/
def LedgerEvent.apply (s : Multiset α) : LedgerEvent α → Multiset α
  | .acquire x => x ::ₘ s
  | .release x => s.erase x

/-- What is held after a trace. -/
def held (trace : List (LedgerEvent α)) : Multiset α := trace.foldl LedgerEvent.apply 0

/-- Every resource that is acquired is released exactly once, before it is acquired again. -/
def ReleasedOnce (trace : List (LedgerEvent α)) : Prop :=
  ∀ before x after, trace = before ++ .acquire x :: after →
    (after.takeWhile fun e => e ≠ .acquire x).count (.release x) = 1

/-- After the trace `past`, the resources of a kind are released only while they are held. -/
def NoStray (kind : α → Prop) (past trace : List (LedgerEvent α)) : Prop :=
  ∀ before x after, trace = before ++ .release x :: after → kind x → x ∈ held (past ++ before)

/-- The ledger after a trace, if every event of it is in order. -/
def settle : Multiset α → List (LedgerEvent α) → Option (Multiset α)
  | s, [] => some s
  | s, .acquire x :: trace => if x ∈ s then none else settle (x ::ₘ s) trace
  | s, .release x :: trace => if x ∈ s then settle (s.erase x) trace else none

variable {s t : Multiset α} {trace past : List (LedgerEvent α)} {x : α}

/-! ## The ledger -/

lemma settle_acquire (hx : x ∉ s) :
    settle s (.acquire x :: trace) = settle (x ::ₘ s) trace := by
  rw [settle, if_neg hx]

lemma settle_release (hx : x ∈ s) :
    settle s (.release x :: trace) = settle (s.erase x) trace := by
  rw [settle, if_pos hx]

lemma of_settle_acquire (h : settle s (.acquire x :: trace) = some t) :
    x ∉ s ∧ settle (x ::ₘ s) trace = some t := by
  rw [settle] at h
  split_ifs at h with hx
  exact ⟨hx, h⟩

lemma of_settle_release (h : settle s (.release x :: trace) = some t) :
    x ∈ s ∧ settle (s.erase x) trace = some t := by
  rw [settle] at h
  split_ifs at h with hx
  exact ⟨hx, h⟩

/-- One piece of a trace after the other. -/
lemma settle_append (s : Multiset α) (trace trace' : List (LedgerEvent α)) :
    settle s (trace ++ trace') = (settle s trace).bind fun t => settle t trace' := by
  induction trace generalizing s with
  | nil => rfl
  | cons e trace ih =>
      cases e with
      | acquire x =>
          rw [List.cons_append, settle, settle]
          split_ifs
          · rfl
          · exact ih _
      | release x =>
          rw [List.cons_append, settle, settle]
          split_ifs
          · exact ih _
          · rfl

lemma of_settle_append {trace' : List (LedgerEvent α)} (h : settle s (trace ++ trace') = some t) :
    ∃ r, settle s trace = some r ∧ settle r trace' = some t := by
  rw [settle_append] at h
  exact Option.bind_eq_some_iff.mp h

/-- The ledger is what is held. -/
lemma foldl_apply_of_settle (h : settle s trace = some t) :
    trace.foldl LedgerEvent.apply s = t := by
  induction trace generalizing s with
  | nil => exact Option.some_inj.mp h
  | cons e trace ih =>
      cases e with
      | acquire x => exact ih (of_settle_acquire h).2
      | release x => exact ih (of_settle_release h).2

lemma held_of_settle (h : settle 0 trace = some s) : held trace = s := foldl_apply_of_settle h

/-- Nothing is held twice. -/
lemma nodup_of_settle (hs : s.Nodup) (h : settle s trace = some t) : t.Nodup := by
  induction trace generalizing s with
  | nil => exact Option.some_inj.mp h ▸ hs
  | cons e trace ih =>
      cases e with
      | acquire x =>
          obtain ⟨hx, h⟩ := of_settle_acquire h
          exact ih (Multiset.nodup_cons.mpr ⟨hx, hs⟩) h
      | release x => exact ih (hs.erase x) (of_settle_release h).2

/-! ## What a settled trace has done -/

/-- What is not held is not released before it is acquired. -/
lemma count_release_of_notMem (hx : x ∉ s) (h : settle s trace = some t) :
    (trace.takeWhile fun e => e ≠ .acquire x).count (.release x) = 0 := by
  induction trace generalizing s with
  | nil => rfl
  | cons e trace ih =>
      cases e with
      | acquire y =>
          obtain ⟨-, h⟩ := of_settle_acquire h
          by_cases hyx : y = x
          · rw [List.takeWhile_cons_of_neg (by simp [hyx]), List.count_nil]
          · rw [List.takeWhile_cons_of_pos (by simpa using hyx),
              List.count_cons_of_ne (by simp)]
            exact ih (by simp [Ne.symm hyx, hx]) h
      | release y =>
          obtain ⟨hy, h⟩ := of_settle_release h
          have hyx : y ≠ x := fun hyx => hx (hyx ▸ hy)
          rw [List.takeWhile_cons_of_pos (by simp), List.count_cons_of_ne (by simpa using hyx)]
          exact ih (fun hmem => hx (Multiset.mem_of_mem_erase hmem)) h

/-- What is held and not held in the end has been released once. -/
lemma count_release_of_mem (hs : s.Nodup) (hx : x ∈ s) (hxt : x ∉ t)
    (h : settle s trace = some t) :
    (trace.takeWhile fun e => e ≠ .acquire x).count (.release x) = 1 := by
  induction trace generalizing s with
  | nil => exact absurd (Option.some_inj.mp h ▸ hx) hxt
  | cons e trace ih =>
      cases e with
      | acquire y =>
          obtain ⟨hy, h⟩ := of_settle_acquire h
          have hyx : y ≠ x := fun hyx => hy (hyx ▸ hx)
          rw [List.takeWhile_cons_of_pos (by simpa using hyx), List.count_cons_of_ne (by simp)]
          exact ih (Multiset.nodup_cons.mpr ⟨hy, hs⟩) (Multiset.mem_cons_of_mem hx) h
      | release y =>
          obtain ⟨-, h⟩ := of_settle_release h
          by_cases hyx : y = x
          · subst hyx
            rw [List.takeWhile_cons_of_pos (by simp), List.count_cons_self,
              count_release_of_notMem hs.notMem_erase h]
          · rw [List.takeWhile_cons_of_pos (by simp),
              List.count_cons_of_ne (by simpa using hyx)]
            exact ih (hs.erase y) ((Multiset.mem_erase_of_ne (Ne.symm hyx)).mpr hx) h

/-- **A trace that ends with nothing held.** -/
theorem releasedOnce_of_settle (h : settle 0 trace = some 0) : ReleasedOnce trace := by
  rintro before x after rfl
  obtain ⟨s, hs, h⟩ := of_settle_append h
  obtain ⟨hx, h⟩ := of_settle_acquire h
  have hnodup : (x ::ₘ s).Nodup :=
    Multiset.nodup_cons.mpr ⟨hx, nodup_of_settle Multiset.nodup_zero hs⟩
  exact count_release_of_mem hnodup (Multiset.mem_cons_self x s) (Multiset.notMem_zero x) h

/-- **A trace that settles behind another.** -/
theorem noStray_of_settle {kind : α → Prop} (h : settle 0 (past ++ trace) = some s) :
    NoStray kind past trace := by
  rintro before x after rfl -
  rw [← List.append_assoc] at h
  obtain ⟨t, ht, h⟩ := of_settle_append h
  rw [held_of_settle ht]
  exact (of_settle_release h).1

end MonoBus
