import MonoBus.Construction.Lifecycle

/-!
# Stop requests

A call of `_loop` clears `done` when the thread of `_beat` already runs.  What was stored before
is lost: a signal and a failed transmission during start-up, and a flag left over from the last
connection that the thread has already seen.  A run loses no stop request exactly if at every
such store nothing of the kind has happened (`stop_kept_iff`).
-/

namespace MonoBus

namespace Lifecycle

def Polling (s : Lifecycle) : Prop := s.main = .loadDone ∨ s.main = .pollin

/-- Since the call of `_loop` began no handler has ended and no transmission failed, and the thread
of `_beat` has not left its loop. -/
def NoStop (s : Lifecycle) : Prop :=
  s.beat.left = false ∧ s.signalled = false ∧ s.failed = false

/-- No stop request has been lost: while `main` goes on polling there was none. -/
def StopKept (s : Lifecycle) : Prop := s.Polling → s.done = false → s.NoStop

/-- If a step stores false into `done`, there has been no stop request. -/
def ClearsInTime (s t : Lifecycle) : Prop :=
  s.main = .clearDone → t.main = .loadDone → s.NoStop

end Lifecycle

open Lifecycle

/-- A handler that ends sets `done`. -/
lemma SigStep.stopKept {s t : Lifecycle} (h : SigStep s t) (hs : s.StopKept) : t.StopKept := by
  cases h with
  | clearReconnect => exact hs
  | setDone => intro _ hdone; cases hdone

/-- So does a transmission that fails, and the thread leaves its loop only when `done` is set. -/
lemma BeatStep.stopKept {s t : Lifecycle} (h : BeatStep s t) (hs : s.StopKept) : t.StopKept := by
  cases h with
  | @sent phase command commands hbeat =>
      intro hpoll hdone
      obtain ⟨hleft, hrest⟩ := hs hpoll hdone
      refine ⟨?_, hrest⟩
      rw [hbeat] at hleft
      cases phase with
      | final => cases hleft
      | _ => rfl
  | failed => intro _ hdone; cases hdone
  | @next phase hbeat =>
      intro hpoll hdone
      obtain ⟨hleft, hrest⟩ := hs hpoll hdone
      refine ⟨?_, hrest⟩
      rw [hbeat] at hleft
      cases phase with
      | final => cases hleft
      | _ => rfl
  | interrupted => exact hs
  | enter => exact fun hpoll hdone => ⟨rfl, (hs hpoll hdone).2⟩
  | leave _ hset => exact fun _ hdone => absurd (hset.symm.trans hdone) Bool.true_eq_false.mp

/-- `main` comes to the polling loop by the store only. -/
lemma MainStep.stopKept {s t : Lifecycle} (h : MainStep s t) (hs : s.StopKept)
    (hclear : ClearsInTime s t) : t.StopKept := by
  have hother {u : Lifecycle} (hu : ¬ u.Polling) : u.StopKept := fun hpoll => absurd hpoll hu
  cases h with
  | clearDone hmain => exact fun _ _ => hclear hmain rfl
  | goOn hmain => exact fun _ hdone => hs (.inl hmain) hdone
  | polled hmain => exact fun _ hdone => hs (.inr hmain) hdone
  | init i => cases i <;> exact hother (by simp [Polling, LoopInit.succeed])
  | _ => exact hother (by simp [Polling])

/-- The store leads to the polling loop with `done` cleared. -/
lemma clearsInTime_of_stopKept {s t : Lifecycle} (h : lifecycle.step s t) (ht : t.StopKept) :
    ClearsInTime s t := by
  intro hs hmain
  obtain h | h | h := h
  · cases h <;> exact absurd (hs.symm.trans hmain) (by simp)
  · cases h <;> exact absurd (hs.symm.trans hmain) (by simp)
  · cases h with
    | clearDone => exact ht (.inl rfl) rfl
    | init i hpc => cases i <;> exact absurd (hs.symm.trans hpc) (by simp [LoopInit.pc])
    | initFailed i hpc => cases i <;> exact absurd (hs.symm.trans hpc) (by simp [LoopInit.pc])
    | _ => simp_all

/-- **Stop requests.**  In all states of a run in which `main` polls and `done` is false, no stop
request has been made since the call of `_loop` began, if and only if the same holds whenever
`_loop` stores false into `done`. -/
theorem stop_kept_iff {path : List Lifecycle} (h : lifecycle.IsRun path) :
    (∀ s ∈ path, s.StopKept) ↔ System.Takes ClearsInTime path := by
  refine h.forall_iff (I := StopKept) ?_ ?_ (fun s hs => hs) ?_
  · rintro s ⟨reconnect, rfl⟩ (hpoll | hpoll) <;> cases hpoll
  · rintro s t hs (hst | hst | hst) hclear
    · exact hst.stopKept hs
    · exact hst.stopKept hs
    · exact hst.stopKept hs hclear
  · exact fun s t hst ht => clearsInTime_of_stopKept hst ht

/-! ## A signal during start-up -/

/-- `main` has created the thread and not yet cleared `done`. -/
def threadCreated : Lifecycle :=
  { Lifecycle.start false with
    main := .clearDone
    beat := .xmit .setup BeatPhase.setup.commands }

def startUp : List Lifecycle :=
  [threadCreated, { Lifecycle.start false with main := .threadInit },
    { Lifecycle.start false with main := .ftdiInit },
    { Lifecycle.start false with main := .oscInit }, .start false]

lemma isRun_startUp : lifecycle.IsRun startUp := by
  refine .step (.step (.step (.step (.init ⟨false, rfl⟩) ?_) ?_) ?_) ?_
  · exact .inr (.inr (.call _ rfl))
  · exact .inr (.inr (.init _ .osc rfl))
  · exact .inr (.inr (.init _ .ftdi rfl))
  · exact .inr (.inr (.init _ .thread rfl))

/-- A signal that comes when `main` polls is kept. -/
theorem stop_kept_iff_polling :
    List.Forall StopKept
      ({ threadCreated with main := .loadDone, done := true, signalled := true } ::
        { threadCreated with main := .loadDone, handlers := 1 } ::
        { threadCreated with main := .loadDone } :: startUp) := by
  refine List.forall_iff_forall_mem.mpr ?_
  refine (stop_kept_iff (.step (.step (.step isRun_startUp ?_) ?_) ?_)).mpr ?_
  · exact .inr (.inr (.clearDone _ rfl))
  · exact .inl (.clearReconnect _)
  · exact .inl (.setDone _ (by decide))
  · simp [System.Takes, ClearsInTime, NoStop, threadCreated, Lifecycle.start, BeatPc.left]

/-- A signal that comes before is lost: `main` polls, `done` is false, and a handler has ended. -/
theorem stop_kept_counterexample :
    ¬ ∀ path, lifecycle.IsRun path → ∀ s ∈ path, s.StopKept := by
  intro h
  have hrun : lifecycle.IsRun ({ threadCreated with main := .loadDone, signalled := true } ::
      { threadCreated with done := true, signalled := true } ::
      { threadCreated with handlers := 1 } :: startUp) := by
    refine .step (.step (.step isRun_startUp ?_) ?_) ?_
    · exact .inl (.clearReconnect _)
    · exact .inl (.setDone _ (by decide))
    · exact .inr (.inr (.clearDone _ rfl))
  obtain ⟨-, hsignalled, -⟩ := h _ hrun _ List.mem_cons_self (.inl rfl) rfl
  cases hsignalled

end MonoBus
