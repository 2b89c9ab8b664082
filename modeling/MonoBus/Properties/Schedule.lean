import MonoBus.Construction.Daemon
import MonoBus.Framework.Queue

/-!
# When scheduled messages are handled

A message should be handled by the first beat whose deadline is not before its timetag.  The
daemon drops the fraction of a timetag and appends every message at the end of its list, so a
message is early within its last second, and a message that is due waits behind one of a later
second.  `Drain.onTime_iff` says exactly from which lists a beat takes the right messages, and
`beats_onTime_iff` that in any run all beats do if and only if they all start from such a list.
-/

namespace MonoBus

/-! ## Time in nanoseconds -/

/-- A point in time in nanoseconds since 1970. -/
def Timespec.toNsecs (t : Timespec) : ℤ := t.sec * nsecs + t.nsec

/-- A timetag in nanoseconds since 1970: 32 bits of seconds since 1900 and 32 bits of
fraction. -/
def ntpNsecs (timetag : UInt64) : ℤ :=
  ((timetag >>> 32).toNat - jan1970) * nsecs + (timetag.toNat % 2 ^ 32 * nsecs / 2 ^ 32 : ℕ)

/-- A message is due. -/
def Sched.Due (to_ : Timespec) (elmnt : Sched) : Prop := ntpNsecs elmnt.timetag ≤ to_.toNsecs

instance (to_ : Timespec) (elmnt : Sched) : Decidable (elmnt.Due to_) :=
  inferInstanceAs (Decidable (_ ≤ _))

lemma Sched.sec_eq (elmnt : Sched) :
    elmnt.to_.sec = (elmnt.timetag >>> 32).toNat - jan1970 := by
  rw [elmnt.to_eq]
  rfl

/-- The loop looks at seconds only. -/
lemma reaches_iff (to_ : Timespec) (elmnt : Sched) :
    to_.reaches elmnt = true ↔ elmnt.to_.sec ≤ to_.sec := by
  have hnsec : elmnt.to_.nsec = 0 := by rw [elmnt.to_eq, Timespec.ofTimetag_nsec]
  have hlt := to_.nsec_lt
  rw [Timespec.reaches, Timespec.diff, hnsec, decide_eq_true_iff]
  unfold nsecs at *
  omega

/-- The timetag of an element lies in the second that starts at its `to`. -/
lemma ntpNsecs_bounds (elmnt : Sched) :
    elmnt.to_.sec * nsecs ≤ ntpNsecs elmnt.timetag ∧
      ntpNsecs elmnt.timetag < (elmnt.to_.sec + 1) * nsecs := by
  have hfraction : elmnt.timetag.toNat % 2 ^ 32 * nsecs / 2 ^ 32 < nsecs := by
    rw [Nat.div_lt_iff_lt_mul (by decide), mul_comm]
    exact Nat.mul_lt_mul_of_pos_left (Nat.mod_lt _ (by decide)) (by decide)
  rw [ntpNsecs, ← elmnt.sec_eq]
  unfold nsecs at *
  omega

lemma reaches_of_due {to_ : Timespec} {elmnt : Sched} (h : elmnt.Due to_) :
    to_.reaches elmnt = true := by
  have hlow := (ntpNsecs_bounds elmnt).1
  have hlt := to_.nsec_lt
  rw [reaches_iff]
  unfold Sched.Due Timespec.toNsecs at h
  unfold nsecs at *
  omega

lemma due_of_sec_lt {to_ : Timespec} {elmnt : Sched} (h : elmnt.to_.sec < to_.sec) :
    elmnt.Due to_ := by
  have hhigh := (ntpNsecs_bounds elmnt).2
  unfold Sched.Due Timespec.toNsecs
  unfold nsecs at *
  omega

/-! ## One beat -/

/-- The list of the daemon before and after the draining loop of a beat with deadline `to`, and
the state that the loop starts from and ends with. -/
structure Drain (σ : Type) where
  to_ : Timespec
  before : List Sched
  after : List Sched
  start : σ
  final : σ

namespace Drain

variable {σ : Type}

def dispatched (d : Drain σ) : List Sched := d.before.take (d.before.length - d.after.length)

/-- Messages are on time: those dispatched are due, and those that remain are not. -/
def OnTime (d : Drain σ) : Prop :=
  (∀ elmnt ∈ d.dispatched, elmnt.Due d.to_) ∧ ∀ elmnt ∈ d.after, ¬ elmnt.Due d.to_

/-- The list before the beat is in order for its deadline.  A message of the deadline's second
with a later fraction stands behind a message of a later second, and a message that is due does
not. -/
structure InOrder (d : Drain σ) : Prop where
  fraction : ∀ pre elmnt post, d.before = pre ++ elmnt :: post →
    (∀ ptr ∈ pre, ptr.to_.sec ≤ d.to_.sec) → elmnt.to_.sec = d.to_.sec → elmnt.Due d.to_
  order : ∀ pre elmnt post, d.before = pre ++ elmnt :: post → elmnt.Due d.to_ →
    ∀ ptr ∈ pre, ptr.to_.sec ≤ d.to_.sec

lemma inOrder_iff (d : Drain σ) :
    d.InOrder ↔ NothingEarly d.to_.reaches (Sched.Due d.to_) d.before ∧
      NothingHeldBack d.to_.reaches (Sched.Due d.to_) d.before := by
  constructor
  · rintro ⟨hfraction, horder⟩
    refine ⟨?_, ?_⟩
    · intro pre elmnt post hbefore hpre helmnt
      simp only [reaches_iff] at hpre helmnt
      rcases helmnt.lt_or_eq with hlt | heq
      · exact due_of_sec_lt hlt
      · exact hfraction pre elmnt post hbefore hpre heq
    · intro pre elmnt post hbefore hdue
      refine ⟨fun ptr hptr => ?_, reaches_of_due hdue⟩
      exact (reaches_iff _ _).mpr (horder pre elmnt post hbefore hdue ptr hptr)
  · rintro ⟨hearly, hheld⟩
    refine ⟨?_, ?_⟩
    · intro pre elmnt post hbefore hpre heq
      refine hearly pre elmnt post hbefore (fun ptr hptr => ?_) ?_
      · exact (reaches_iff _ _).mpr (hpre ptr hptr)
      · exact (reaches_iff _ _).mpr heq.le
    · intro pre elmnt post hbefore hdue ptr hptr
      exact (reaches_iff _ _).mp ((hheld pre elmnt post hbefore hdue).1 ptr hptr)

lemma dispatched_eq {d : Drain σ} (h : d.after = d.before.dropWhile d.to_.reaches) :
    d.dispatched = d.before.takeWhile d.to_.reaches := by
  have hlength := congrArg List.length
    (@List.takeWhile_append_dropWhile _ d.to_.reaches d.before)
  rw [List.length_append, ← h] at hlength
  rw [dispatched, ← hlength, Nat.add_sub_cancel, ← List.prefix_iff_eq_take.mp]
  exact List.takeWhile_prefix _

/-- A beat that takes the messages it reaches is on time exactly if its list is in order. -/
lemma onTime_iff {d : Drain σ} (h : d.after = d.before.dropWhile d.to_.reaches) :
    d.OnTime ↔ d.InOrder := by
  rw [OnTime, dispatched_eq h, h, inOrder_iff]
  exact drained_iff

end Drain

/-! ## Runs -/

section Runs

variable {σ : Type} (draw : σ → Call → Run σ) (libc : Libc)

/-- Beats, one after another.  Each takes its packets from the ring buffer and then drains the
list. -/
inductive Beats : App σ → List (Drain σ) → Prop
  | nil (app : App σ) : Beats app []
  | cons {app mid app' : App σ} {fuel : ℕ} {packets : List Memory} {to_ : Timespec}
      {drains : List (Drain σ)} :
      readRing draw libc fuel app packets = .ok mid →
      readList draw libc fuel to_ mid = .ok app' →
      Beats app' drains →
      Beats app (⟨to_, mid.list, app'.list, mid.state, app'.state⟩ :: drains)

variable {draw libc}

/-- What a draining loop does: it takes what it reaches, and calls the handler with it. -/
structure Drain.Drained (draw : σ → Call → Run σ) (libc : Libc) (d : Drain σ) : Prop where
  handled : (d.before.takeWhile d.to_.reaches).foldlM (Sched.handle draw libc) d.start =
    .ok d.final
  after : d.after = d.before.dropWhile d.to_.reaches

/-- In a run the list holds messages only, and every beat takes what it reaches. -/
lemma Beats.drained {app : App σ} {drains : List (Drain σ)} (h : Beats draw libc app drains)
    (hlist : app.ListsMessages) : ∀ d ∈ drains, d.Drained draw libc := by
  induction h with
  | nil app => simp
  | @cons app mid app' fuel packets to_ drains hring hread hrest ih =>
      have hmid := readRing_listsMessages hring hlist
      obtain ⟨hhandled, hleft⟩ := readList_eq_ok hmid hread
      intro d hd
      rcases List.mem_cons.mp hd with rfl | hd
      · exact ⟨hhandled, hleft⟩
      · refine ih (fun elmnt helmnt => hmid elmnt ?_) d hd
        rw [hleft] at helmnt
        exact (List.dropWhile_suffix _).subset helmnt

/-- **Timed messages.**  Each beat of a run takes messages off the front of the list and calls the
handler with these and no others, and the beats are on time if and only if each starts from a list
that is in order for its deadline. -/
theorem beats_onTime_iff (state : σ) (allocs : ℕ) (drains : List (Drain σ))
    (h : Beats draw libc ⟨state, [], allocs⟩ drains) :
    (∀ d ∈ drains, d.before = d.dispatched ++ d.after ∧
        d.dispatched.foldlM (Sched.handle draw libc) d.start = .ok d.final) ∧
      ((∀ d ∈ drains, d.OnTime) ↔ ∀ d ∈ drains, d.InOrder) := by
  have hdrained := h.drained (by simp [App.ListsMessages])
  refine ⟨fun d hd => ?_, forall₂_congr fun d hd => Drain.onTime_iff (hdrained d hd).after⟩
  obtain ⟨hhandled, hafter⟩ := hdrained d hd
  rw [Drain.dispatched_eq hafter]
  exact ⟨by rw [hafter, List.takeWhile_append_dropWhile], hhandled⟩

end Runs

/-! ## A message between two seconds -/

/-- A message that no entry of the tables matches. -/
def strayMessage : List UInt8 := ['/', 'a'].map Char.toUInt8 ++ [0, 0, ','.toUInt8, 0, 0, 0]

/-- A bundle with that message, for half a second after second 5. -/
def halfPastFive : List UInt8 :=
  OscReader.bundleLiteral ++ be64 0x83aa7e8580000000 ++ be32 8 ++ strayMessage

def halfPastFiveElmnt : Sched := .plenty 0x83aa7e8580000000 strayMessage (by decide)

/-- One beat that receives the bundle and takes the message at once. -/
def halfPastFiveDrain (to_ : Timespec) : Drain State where
  to_ := to_
  before := [halfPastFiveElmnt]
  after := []
  start := State.zero
  final := State.zero

lemma beats_halfPastFive {to_ : Timespec} (h : to_.reaches halfPastFiveElmnt = true) :
    Beats Call.exec .simple ⟨State.zero, [], 0⟩ [halfPastFiveDrain to_] := by
  have hdiff : ¬ to_.diff halfPastFiveElmnt.to_ < 0 := by
    simpa [Timespec.reaches] using h
  refine @Beats.cons _ _ _ _ ⟨State.zero, [halfPastFiveElmnt], 1⟩ ⟨State.zero, [], 1⟩ 5
    [(Packet.placed halfPastFive (by decide)).mem] _ _ ?_ ?_ (.nil _)
  · rfl
  · rw [readList]
    dsimp only
    rw [if_neg hdiff]
    rfl

/-- A beat at second 6 is on time. -/
theorem beats_onTime_iff_six : (halfPastFiveDrain ⟨6, 0, by decide⟩).InOrder := by
  have hrun := @beats_halfPastFive ⟨6, 0, by decide⟩ (by decide)
  refine (beats_onTime_iff State.zero 0 _ hrun).2.mp ?_ _ List.mem_cons_self
  simp only [List.forall_mem_singleton, Drain.OnTime]
  exact ⟨by decide, by decide⟩

/-- A beat at second 5 dispatches the message half a second early. -/
theorem beats_onTime_counterexample :
    ¬ ∀ drains, Beats Call.exec .simple ⟨State.zero, [], 0⟩ drains → ∀ d ∈ drains, d.OnTime := by
  intro h
  have hrun := @beats_halfPastFive ⟨5, 0, by decide⟩ (by decide)
  have hdue := (h _ hrun _ List.mem_cons_self).1 halfPastFiveElmnt List.mem_cons_self
  exact absurd hdue (by decide)

end MonoBus
