import MonoBus.Construction.Clipping

/-!
# Clipping to the display

A call should touch the pixels of its rectangle that are on the display, each once, and compute
nothing that does not fit an `int32_t`.  It does, unless the offset is so far to the left or to
the top that the distance from there to the other edge of the display does not fit
(`clipping_exact_iff`).
-/

namespace MonoBus

/-- The two functions touch exactly the pixels of the rectangle that are on the display, each
once, and no signed operation overflows. -/
structure ClipsExactly (offx offy width height : Int32) (pixels : List (Int32 × Int32)) :
    Prop where
  no_overflow : visited offx offy width height = some pixels
  once : pixels.Nodup
  exact_rect : ∀ X Y : ℤ, (∃ p ∈ pixels, p.1.toInt = Y ∧ p.2.toInt = X) ↔
    (0 ≤ X ∧ X < 112 ∧ 0 ≤ Y ∧ Y < 16) ∧
      (offx.toInt ≤ X ∧ X < offx.toInt + width.toInt) ∧
        offy.toInt ≤ Y ∧ Y < offy.toInt + height.toInt
  clr : ∀ (state : State) (prio : Prio),
    clrPixels state prio offx offy width height = pixels.foldlM (fun state p => do
      let c ← pixelIndex p.1 p.2
      pure (Function.update state c ((state c).erase prio))) state
  set : ∀ (state : State) (prio : Prio) (blob : Ptr),
    (0 < width.toInt → 0 < height.toInt →
      blob.Holds ((monobusStrideForWidth width.toUInt32).toNat * height.toInt.toNat)) →
    (setPixels state prio offx offy width height blob = pixels.foldlM (fun state p => do
      let c ← pixelIndex p.1 p.2
      let bit ← getBit blob (p.1 - offy).toUInt32 (p.2 - offx).toUInt32 width.toUInt32
      pure (Function.update state c ((state c).paint prio bit))) state) ∧
      ∃ state', setPixels state prio offx offy width height blob = .ok state'

section Exact

variable {offx offy width height : Int32}

/-- The index a pair of loop values stands for. -/
def indexOf (offx offy : Int32) (k : Int32 × Int32) : Int32 × Int32 := (offy + k.1, offx + k.2)

lemma indexOf_injective (offx offy : Int32) : Function.Injective (indexOf offx offy) := by
  rintro ⟨y, x⟩ ⟨y', x'⟩ h
  obtain ⟨hy, hx⟩ := Prod.mk.inj h
  have hy' : y = y' := by simpa using hy
  have hx' : x = x' := by simpa using hx
  rw [hy', hx']

/-- The loop values whose sums with an offset are on the display. -/
lemma exists_mem_axis_iff {size : ℕ} {off len : Int32} (hsize : size ≤ 112)
    (hoff : size - 2 ^ 31 < off.toInt) (X : ℤ) :
    (∃ k ∈ axis size off len, (off + k).toInt = X) ↔
      (0 ≤ X ∧ X < size) ∧ off.toInt ≤ X ∧ X < off.toInt + len.toInt := by
  constructor
  · rintro ⟨k, hk, rfl⟩
    obtain ⟨hlo, hhi⟩ := axis_index hsize hk
    refine ⟨⟨hlo, hhi⟩, ?_⟩
    have hX : (off + k).toInt.toNat < size := by omega
    have hback : Int32.ofNat (off + k).toInt.toNat - off = k := by
      have hnat : Int32.ofNat (off + k).toInt.toNat = off + k := by
        apply Int32.toInt_inj.mp
        rw [Int32.toInt_ofNat_of_lt (by omega), Int.toNat_of_nonneg hlo]
      rw [hnat, int32_add_sub_self]
    rw [← hback] at hk
    have hrange := (mem_axis_iff hsize hoff hX).mp hk
    rwa [Int.toNat_of_nonneg hlo] at hrange
  · rintro ⟨⟨hlo, hhi⟩, hrange⟩
    obtain ⟨n, rfl⟩ := Int.eq_ofNat_of_zero_le hlo
    have hn : n < size := by omega
    refine ⟨_, (mem_axis_iff hsize hoff hn).mpr hrange, ?_⟩
    rw [int32_add_sub_other]
    exact Int32.toInt_ofNat_of_lt (by omega)

lemma clipsExactly_rectKeys (hoffx : widthNet - 2 ^ 31 < offx.toInt)
    (hoffy : heightNet - 2 ^ 31 < offy.toInt) :
    ClipsExactly offx offy width height
      ((rectKeys offx offy width height).map (indexOf offx offy)) where
  no_overflow := visited_eq hoffx hoffy
  once := by
    apply List.Nodup.map (indexOf_injective offx offy)
    exact List.Nodup.product (nodup_int32UpTo _ _) (nodup_int32UpTo _ _)
  exact_rect := by
    intro X Y
    have hy := @exists_mem_axis_iff heightNet offy height (by norm_num) hoffy Y
    have hx := @exists_mem_axis_iff widthNet offx width (by norm_num) hoffx X
    constructor
    · rintro ⟨p, hp, rfl, rfl⟩
      obtain ⟨k, hk, rfl⟩ := List.mem_map.mp hp
      obtain ⟨hky, hkx⟩ := mem_rectKeys.mp hk
      obtain ⟨hYd, hYr⟩ := hy.mp ⟨k.1, hky, rfl⟩
      obtain ⟨hXd, hXr⟩ := hx.mp ⟨k.2, hkx, rfl⟩
      exact ⟨⟨hXd.1, hXd.2, hYd.1, hYd.2⟩, hXr, hYr⟩
    · rintro ⟨⟨hX0, hX1, hY0, hY1⟩, hXr, hYr⟩
      obtain ⟨y, hymem, hyY⟩ := hy.mpr ⟨⟨hY0, hY1⟩, hYr⟩
      obtain ⟨x, hxmem, hxX⟩ := hx.mpr ⟨⟨hX0, hX1⟩, hXr⟩
      have hk : (y, x) ∈ rectKeys offx offy width height := mem_rectKeys.mpr ⟨hymem, hxmem⟩
      exact ⟨indexOf offx offy (y, x), List.mem_map_of_mem hk, hyY, hxX⟩
  clr := by
    intro state prio
    rw [clrPixels, foldlM_product, List.foldlM_map]
    rfl
  set := by
    intro state prio blob hblob
    refine ⟨?_, ?_⟩
    · rw [setPixels, foldlM_product, List.foldlM_map]
      refine foldlM_congr_mem (fun s k _ => ?_) state
      simp only [indexOf, int32_add_sub_self]
    · have hbit : ∀ c, touches offx offy width height c →
          blobBit offx offy width blob c = .ok (readBit offx offy width blob c) := fun c hc =>
        readBit_eq (exists_blobBit hoffx hoffy hblob ((touches_iff_inRect hoffx hoffy c).mp hc))
      exact ⟨_, setPixels_eq hbit⟩

end Exact

/-- **Clipping.**  The functions touch exactly the pixels of a rectangle that are on the display,
each once and without an overflow, if and only if `WIDTH_NET - offx` and `HEIGHT_NET - offy` fit
an `int32_t`. -/
theorem clipping_exact_iff (offx offy width height : Int32) :
    (∃ pixels, ClipsExactly offx offy width height pixels) ↔
      widthNet - 2 ^ 31 < offx.toInt ∧ heightNet - 2 ^ 31 < offy.toInt := by
  constructor
  · rintro ⟨pixels, hclips⟩
    by_contra hoff
    have hnone := hclips.no_overflow
    rw [visited_eq_none hoff] at hnone
    cases hnone
  · rintro ⟨hoffx, hoffy⟩
    exact ⟨_, clipsExactly_rectKeys hoffx hoffy⟩

/-- A single row far above the display: its distance to the lower edge does not fit, and where
the arithmetic wraps the call touches the display. -/
theorem clipping_exact_counterexample :
    (¬ ∃ pixels, ClipsExactly 0 (-2147483648) 8 1 pixels) ∧
      touches 0 (-2147483648) 8 1 (0, 0) ∧ ¬ inRect 0 (-2147483648) 8 1 (0, 0) := by
  refine ⟨?_, ?_, by decide⟩
  · rintro ⟨pixels, hclips⟩
    have hnone : visited 0 (-2147483648) 8 1 = none := visited_eq_none (by decide)
    rw [hclips.no_overflow] at hnone
    cases hnone
  · rw [touches, mem_rectKeys]
    exact ⟨by decide, by decide⟩

end MonoBus
