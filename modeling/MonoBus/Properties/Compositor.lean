import MonoBus.Framework.Layers
import MonoBus.Framework.Simulation
import MonoBus.Construction.Display

/-!
# The mask and bit words implement 32 independent layers

`Represents` relates the array of word pairs to a stack of partial maps: a mask bit says that
the layer is defined, and the value bit counts only then.  A clear leaves the value bit behind,
which the relation allows.  Each call preserves the relation, so every run does, and in related
states the scan of `monobusd.c` shows the highest layer.
-/

namespace MonoBus

/-! ## The reference model -/

/-- The reference stack: 32 partial maps from display positions to bits. -/
abbrev RefLayers := Layers Prio Coord Bool

/-- A call on the reference stack: the rectangle is clipped in exact integers. -/
def refStep (L : RefLayers) : Call → RefLayers
  | .setPixels prio offx offy width height blob =>
      L.paint prio (inRect offx offy width height) (readBit offx offy width blob)
  | .clrPixels prio offx offy width height => L.erase prio (inRect offx offy width height)

/-- The calls the layer model covers: offsets from `-2^30` on, and for a set a blob of
`stride * height` bytes. -/
def Call.Covered : Call → Prop
  | .setPixels _ offx offy width height blob =>
      -2 ^ 30 ≤ offx.toInt ∧ -2 ^ 30 ≤ offy.toInt ∧
        (0 < width.toInt → 0 < height.toInt →
          blob.Holds ((monobusStrideForWidth width.toUInt32).toNat * height.toInt.toNat))
  | .clrPixels _ offx offy _ _ => -2 ^ 30 ≤ offx.toInt ∧ -2 ^ 30 ≤ offy.toInt

/-! ## The simulation relation -/

/-- The array holds the stack: mask bits mark the defined layers, and the value bit of a
defined layer is its value. -/
def Represents (state : State) (L : RefLayers) : Prop :=
  ∀ c p, (state c).defined p = (L p c).isSome ∧ ∀ b, L p c = some b → (state c).value p = b

lemma represents_zero : Represents State.zero Layers.empty := by
  intro c p
  refine ⟨?_, fun b h => by simp [Layers.empty] at h⟩
  simp [State.zero, Pixel.defined, Layers.empty]

lemma represents_paint {state : State} {L : RefLayers} (h : Represents state L) (prio : Prio)
    (R : Coord → Prop) [DecidablePred R] (v : Coord → Bool) :
    Represents (fun c => if R c then (state c).paint prio (v c) else state c)
      (L.paint prio R v) := by
  intro c p
  obtain ⟨hdef, hval⟩ := h c p
  simp only [Layers.paint]
  by_cases hR : R c
  · by_cases hp : p = prio
    · simp [hR, hp]
    · simpa [hR, hp, hdef] using hval
  · simpa [hR, hdef] using hval

lemma represents_erase {state : State} {L : RefLayers} (h : Represents state L) (prio : Prio)
    (R : Coord → Prop) [DecidablePred R] :
    Represents (fun c => if R c then (state c).erase prio else state c) (L.erase prio R) := by
  intro c p
  obtain ⟨hdef, hval⟩ := h c p
  simp only [Layers.erase]
  by_cases hR : R c
  · by_cases hp : p = prio
    · simp [hR, hp]
    · simpa [hR, hp, hdef] using hval
  · simpa [hR, hdef] using hval

/-- One call: it succeeds, and the states stay related. -/
lemma exec_represents {state : State} {L : RefLayers} (call : Call) (h : Represents state L)
    (hcall : call.Covered) :
    ∃ state', call.exec state = .ok state' ∧ Represents state' (refStep L call) := by
  cases call with
  | setPixels prio offx offy width height blob =>
      obtain ⟨hcoveredx, hcoveredy, hblob⟩ := hcall
      have hoffx := @clip_fits widthNet _ (by norm_num) hcoveredx
      have hoffy := @clip_fits heightNet _ (by norm_num) hcoveredy
      have hbit : ∀ c, touches offx offy width height c →
          blobBit offx offy width blob c = .ok (readBit offx offy width blob c) := by
        intro c hc
        obtain ⟨b, hb⟩ := exists_blobBit hoffx hoffy hblob
          ((touches_iff_inRect hoffx hoffy c).mp hc)
        rw [readBit, hb]
      refine ⟨_, setPixels_eq hbit, ?_⟩
      simp only [touches_iff_inRect hoffx hoffy]
      exact represents_paint h prio _ _
  | clrPixels prio offx offy width height =>
      obtain ⟨hcoveredx, hcoveredy⟩ := hcall
      have hoffx := @clip_fits widthNet _ (by norm_num) hcoveredx
      have hoffy := @clip_fits heightNet _ (by norm_num) hcoveredy
      refine ⟨_, clrPixels_eq state prio offx offy width height, ?_⟩
      simp only [touches_iff_inRect hoffx hoffy]
      exact represents_erase h prio _

/-- Related states show the same: the scan finds the top of the stack. -/
lemma displayBit_of_represents {state : State} {L : RefLayers} (h : Represents state L)
    (c : Coord) : displayBit state c = (L.top c).getD false := by
  by_cases hne : (L.definedAt c).Nonempty
  · -- the highest defined layer, and nothing above it
    set p := (L.definedAt c).max' hne with hp
    have hsome : (L p c).isSome := Layers.mem_definedAt.mp (Finset.max'_mem _ hne)
    have habove : ∀ j, p < j → L j c = none := by
      intro j hj
      by_contra hsomej
      have hmem : j ∈ L.definedAt c :=
        Layers.mem_definedAt.mpr (Option.isSome_iff_ne_none.mpr hsomej)
      exact absurd (Finset.le_max' _ j hmem) (not_le.mpr hj)
    obtain ⟨b, hb⟩ := Option.isSome_iff_exists.mp hsome
    rw [displayBit_of_highest (p := p) (by rw [(h c p).1, hsome])
      (fun j hj => by rw [(h c j).1, habove j hj]; rfl), (h c p).2 b hb,
      Layers.top_eq_of_highest hsome habove, hb]
    rfl
  · have hnone : ∀ p, L p c = none := by
      intro p
      by_contra hsome
      exact hne ⟨p, Layers.mem_definedAt.mpr (Option.isSome_iff_ne_none.mpr hsome)⟩
    rw [displayBit_of_undefined (fun p => by rw [(h c p).1, hnone p]; rfl),
      Layers.top_eq_none hnone]
    rfl

/-- **The compositor refines 32 independent layers.**  Every run of covered calls from the
zeroed state succeeds, and the display then shows at each position the bit of the
highest-numbered layer defined there, and no light where none is. -/
theorem compositor_refines_layers (calls : List Call) (hcalls : ∀ call ∈ calls, call.Covered) :
    ∃ state, calls.foldlM Call.exec State.zero = .ok state ∧
      ∀ c, displayBit state c = ((calls.foldl refStep Layers.empty).top c).getD false := by
  obtain ⟨state, hrun, hrep⟩ := foldlM_simulates (R := Represents) (P := Call.Covered)
    (fun s L call h hcall => exec_represents call h hcall) calls represents_zero hcalls
  exact ⟨state, hrun, displayBit_of_represents hrep⟩

/-- A bitmap of two rows of nine pixels. -/
def twoRows : Ptr where
  mem := .placed [0xff, 0x80, 0x01, 0x00] (by decide)
  addr := 4096

/-- The run theorem at a bitmap that leaves the display on the left, and a clear of part of
it. -/
theorem compositor_refines_layers_twoRows :
    ∃ state, [Call.setPixels 5 (-2) 3 9 2 twoRows, .clrPixels 5 0 3 1 1].foldlM Call.exec
        State.zero = .ok state ∧
      ∀ c, displayBit state c =
        (([Call.setPixels 5 (-2) 3 9 2 twoRows, .clrPixels 5 0 3 1 1].foldl refStep
          Layers.empty).top c).getD false := by
  refine compositor_refines_layers _ (fun call hcall => ?_)
  rcases List.mem_cons.mp hcall with rfl | hcall
  · refine ⟨by decide, by decide, fun _ _ => ?_⟩
    have hheld : twoRows.mem.Holds twoRows.addr 4 := by decide
    exact hheld
  · rw [List.mem_singleton.mp hcall]
    exact ⟨by decide, by decide⟩

end MonoBus
