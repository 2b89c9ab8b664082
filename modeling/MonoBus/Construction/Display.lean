import MonoBus.Construction.Pixels

/-!
# What the display shows (`_get_bit` of `monobusd.c`)

The scan runs from bit 31 down and stops at the first layer defined at the pixel.
-/

namespace MonoBus

/-- The loop of `_get_bit` with `n` layers left to look at, `mask` standing at the highest. -/
def scanLayers (pixel : Pixel) : ℕ → UInt32 → Bool
  | 0, _ => false
  | n + 1, mask =>
      if pixel.mask &&& mask ≠ 0 then decide (pixel.bits &&& mask ≠ 0)
      else scanLayers pixel n (mask >>> 1)

/-- `_get_bit` of `monobusd.c`. -/
def displayBit (state : State) (c : Coord) : Bool :=
  let pixel := state c
  if pixel.mask ≠ 0 then scanLayers pixel 32 0x80000000 else false

/-! ## The scan returns the highest layer -/

lemma and_layerMask_ne_zero (w : UInt32) (p : Prio) :
    w &&& layerMask p ≠ 0 ↔ w.toBitVec.getLsbD p = true := by
  have hbit : ∀ i : Prio, (w &&& layerMask p).toBitVec.getLsbD i =
      (w.toBitVec.getLsbD i && decide (i = p)) := fun i => by
    rw [UInt32.toBitVec_and, BitVec.getLsbD_and, Pixel.getLsbD_layerMask]
  constructor
  · intro hne
    by_contra hp
    apply hne
    apply UInt32.toBitVec_inj.mp
    apply BitVec.eq_of_getLsbD_eq
    intro i hi
    have hi' := hbit ⟨i, hi⟩
    by_cases hip : (⟨i, hi⟩ : Prio) = p
    · rw [hip, Bool.eq_false_of_not_eq_true hp] at hi'
      have hval : i = (p : ℕ) := congrArg Fin.val hip
      simpa [hval] using hi'
    · simpa [hip] using hi'
  · intro hp hzero
    have hself := hbit p
    rw [hzero, hp] at hself
    simp at hself

lemma mask_and_layerMask_ne_zero (pixel : Pixel) (p : Prio) :
    pixel.mask &&& layerMask p ≠ 0 ↔ pixel.defined p = true :=
  and_layerMask_ne_zero pixel.mask p

lemma bits_and_layerMask_ne_zero (pixel : Pixel) (p : Prio) :
    pixel.bits &&& layerMask p ≠ 0 ↔ pixel.value p = true :=
  and_layerMask_ne_zero pixel.bits p

lemma layerMask_shiftRight (p : Fin 31) : layerMask p.succ >>> 1 = layerMask p.castSucc := by
  revert p
  decide

lemma scanLayers_succ (pixel : Pixel) (n : ℕ) (hn : n + 1 < 32) :
    scanLayers pixel (n + 2) (layerMask ⟨n + 1, hn⟩) =
      if pixel.defined ⟨n + 1, hn⟩ then pixel.value ⟨n + 1, hn⟩
      else scanLayers pixel (n + 1) (layerMask ⟨n, by omega⟩) := by
  have hshift : layerMask ⟨n + 1, hn⟩ >>> 1 = layerMask ⟨n, by omega⟩ :=
    layerMask_shiftRight ⟨n, by omega⟩
  rw [scanLayers, hshift]
  simp only [mask_and_layerMask_ne_zero, bits_and_layerMask_ne_zero, Bool.decide_eq_true]

lemma scanLayers_one (pixel : Pixel) :
    scanLayers pixel 1 (layerMask 0) = if pixel.defined 0 then pixel.value 0 else false := by
  rw [scanLayers]
  simp only [mask_and_layerMask_ne_zero, bits_and_layerMask_ne_zero, Bool.decide_eq_true]
  by_cases h : pixel.defined 0 = true <;> simp [h, scanLayers]

/-- From layer `n` down, the scan finds the value of the highest defined layer. -/
lemma scanLayers_of_highest (pixel : Pixel) (p : Prio) (hp : pixel.defined p = true) :
    ∀ (n : ℕ) (hn : n < 32), (p : ℕ) ≤ n →
      (∀ j : Prio, p < j → (j : ℕ) ≤ n → pixel.defined j = false) →
      scanLayers pixel (n + 1) (layerMask ⟨n, hn⟩) = pixel.value p := by
  intro n
  induction n with
  | zero =>
      intro hn hle _
      have hp0 : p = 0 := Fin.ext (by simpa using hle)
      subst hp0
      rw [show (⟨0, hn⟩ : Prio) = 0 from rfl, scanLayers_one, if_pos hp]
  | succ n ih =>
      intro hn hle habove
      rw [scanLayers_succ]
      rcases hle.eq_or_lt with heq | hlt
      · have hpn : (⟨n + 1, hn⟩ : Prio) = p := Fin.ext heq.symm
        rw [hpn, if_pos hp]
      · rw [habove ⟨n + 1, hn⟩ hlt le_rfl, if_neg (by simp)]
        exact ih (by omega) (by omega) (fun j hj hjn => habove j hj (by omega))

lemma mask_eq_zero_iff (pixel : Pixel) :
    pixel.mask = 0 ↔ ∀ p : Prio, pixel.defined p = false := by
  constructor
  · intro h p
    simp [Pixel.defined, h]
  · intro h
    apply UInt32.toBitVec_inj.mp
    apply BitVec.eq_of_getLsbD_eq
    intro i hi
    simpa [Pixel.defined] using h ⟨i, hi⟩

/-- `_get_bit` shows the value of the highest layer defined at the pixel. -/
theorem displayBit_of_highest {state : State} {c : Coord} {p : Prio}
    (hp : (state c).defined p = true) (habove : ∀ j, p < j → (state c).defined j = false) :
    displayBit state c = (state c).value p := by
  have hmask : (state c).mask ≠ 0 := fun h => by
    simp [(mask_eq_zero_iff _).mp h p] at hp
  rw [displayBit, if_pos hmask]
  exact scanLayers_of_highest (state c) p hp 31 (by omega) (by omega)
    (fun j hj _ => habove j hj)

/-- `_get_bit` shows nothing where no layer is defined. -/
theorem displayBit_of_undefined {state : State} {c : Coord}
    (h : ∀ p, (state c).defined p = false) : displayBit state c = false := by
  rw [displayBit, if_neg (by simpa using (mask_eq_zero_iff _).mpr h)]

end MonoBus
