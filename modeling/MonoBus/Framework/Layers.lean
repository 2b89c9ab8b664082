import Mathlib.Tactic
import Mathlib.Data.Fintype.Basic
import Mathlib.Data.Finset.Max

/-!
# Stacked layers

A stack of layers indexed by a finite linear order; each layer is a partial map from positions
to values.  Painting overwrites one layer on a region, erasing removes it there, and what is
seen at a position is the value of the highest layer defined at it.
-/

namespace MonoBus

/-- Partial maps from positions `κ` to values `β`, one for each layer in `ι`. -/
abbrev Layers (ι κ β : Type*) := ι → κ → Option β

namespace Layers

variable {ι κ β : Type*}

/-- No layer is defined anywhere. -/
def empty : Layers ι κ β := fun _ _ => none

section Update

variable [DecidableEq ι]

/-- Overwrite layer `i` on the region `R`. -/
def paint (L : Layers ι κ β) (i : ι) (R : κ → Prop) [DecidablePred R] (v : κ → β) :
    Layers ι κ β :=
  fun j k => if j = i ∧ R k then some (v k) else L j k

/-- Remove layer `i` on the region `R`. -/
def erase (L : Layers ι κ β) (i : ι) (R : κ → Prop) [DecidablePred R] : Layers ι κ β :=
  fun j k => if j = i ∧ R k then none else L j k

/-- The value a layer is painted with matters on the region only. -/
lemma paint_congr (L : Layers ι κ β) (i : ι) (R : κ → Prop) [DecidablePred R] {v w : κ → β}
    (h : ∀ k, R k → v k = w k) : L.paint i R v = L.paint i R w := by
  funext j k
  unfold paint
  split_ifs with hR
  · rw [h k hR.2]
  · rfl

end Update

section Top

variable [Fintype ι]

/-- The layers defined at a position. -/
def definedAt (L : Layers ι κ β) (k : κ) : Finset ι :=
  Finset.univ.filter fun i => (L i k).isSome

lemma mem_definedAt {L : Layers ι κ β} {k : κ} {i : ι} :
    i ∈ L.definedAt k ↔ (L i k).isSome := by
  simp [definedAt]

variable [LinearOrder ι]

/-- The value seen at a position: that of the highest layer defined there. -/
def top (L : Layers ι κ β) (k : κ) : Option β :=
  if h : (L.definedAt k).Nonempty then L ((L.definedAt k).max' h) k else none

lemma top_eq_none {L : Layers ι κ β} {k : κ} (h : ∀ i, L i k = none) : L.top k = none := by
  rw [top, dif_neg]
  rw [Finset.not_nonempty_iff_eq_empty, definedAt, Finset.filter_eq_empty_iff]
  simp [h]

/-- A layer with no defined layer above it is the one that is seen. -/
lemma top_eq_of_highest {L : Layers ι κ β} {k : κ} {i : ι} (hi : (L i k).isSome)
    (habove : ∀ j, i < j → L j k = none) : L.top k = L i k := by
  have hne : (L.definedAt k).Nonempty := ⟨i, mem_definedAt.mpr hi⟩
  have hmax : (L.definedAt k).max' hne = i := by
    apply le_antisymm
    · refine Finset.max'_le _ _ _ (fun j hj => ?_)
      by_contra hlt
      have hnone := habove j (not_le.mp hlt)
      have hsome := mem_definedAt.mp hj
      simp [hnone] at hsome
    · exact Finset.le_max' _ _ (mem_definedAt.mpr hi)
  rw [top, dif_pos hne, hmax]

end Top

end Layers

end MonoBus
