import Mathlib.Tactic

/-!
# Transition systems

A system has initial states and steps.  What an invariant says of every reachable state follows
from the initial states and from one step (`System.Reachable.invariant`).  Where a property
rests on how certain steps are taken, a run keeps it in all its states exactly if it takes those
steps in the permitted way (`System.IsRun.forall_iff`).
-/

namespace MonoBus

/-- Initial states and steps. -/
structure System (σ : Type*) where
  init : σ → Prop
  step : σ → σ → Prop

namespace System

variable {σ : Type*} {sys : System σ}

/-- The states that runs come to. -/
inductive Reachable (sys : System σ) : σ → Prop
  | init {s : σ} : sys.init s → Reachable sys s
  | step {s t : σ} : Reachable sys s → sys.step s t → Reachable sys t

/-- What holds at the start and is kept by every step holds in every reachable state. -/
theorem Reachable.invariant {I : σ → Prop} (hinit : ∀ s, sys.init s → I s)
    (hstep : ∀ s t, I s → sys.step s t → I t) {s : σ} (h : sys.Reachable s) : I s := by
  induction h with
  | init hs => exact hinit _ hs
  | step _ hst ih => exact hstep _ _ ih hst

/-- A run: a list of states that starts in an initial state, each a step from the one before. -/
inductive IsRun (sys : System σ) : List σ → Prop
  | init {s : σ} : sys.init s → IsRun sys [s]
  | step {s t : σ} {path : List σ} :
      IsRun sys (s :: path) → sys.step s t → IsRun sys (t :: s :: path)

/-- All steps of a run are of one kind. -/
def Takes (good : σ → σ → Prop) (path : List σ) : Prop := path.IsChain fun t s => good s t

/-- **Runs and permitted steps.**  An invariant that good steps keep implies a property, and a
step into a state with that property is good: then a run has the property in all its states
exactly if all its steps are good. -/
theorem IsRun.forall_iff {good : σ → σ → Prop} {I P : σ → Prop}
    (hinit : ∀ s, sys.init s → I s)
    (hstep : ∀ s t, I s → sys.step s t → good s t → I t)
    (hP : ∀ s, I s → P s)
    (hgood : ∀ s t, sys.step s t → P t → good s t) {path : List σ} (h : sys.IsRun path) :
    (∀ s ∈ path, P s) ↔ Takes good path := by
  constructor
  · intro hall
    induction h with
    | init hs => exact .singleton _
    | step hrun hst ih =>
        refine List.IsChain.cons_cons (hgood _ _ hst (hall _ List.mem_cons_self)) ?_
        exact ih fun s hs => hall s (List.mem_cons_of_mem _ hs)
  · intro htakes
    have hinv : ∀ s ∈ path, I s := by
      induction h with
      | init hs => simpa using hinit _ hs
      | step hrun hst ih =>
          obtain ⟨hlast, hrest⟩ := List.isChain_cons_cons.mp htakes
          have hall := ih hrest
          intro s hs
          rcases List.mem_cons.mp hs with rfl | hs
          · exact hstep _ _ (hall _ List.mem_cons_self) hst hlast
          · exact hall s hs
    exact fun s hs => hP s (hinv s hs)

end System

end MonoBus
