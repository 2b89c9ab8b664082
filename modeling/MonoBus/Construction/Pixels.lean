import MonoBus.Framework.Memory
import MonoBus.Framework.Sweep

/-!
# The layered bitmap (`state_t`, `_set_pixels`, `_clr_pixels`, `_get_bit` of `monobus.c`)

Each display pixel carries two words: bit `prio` of `mask` says whether layer `prio` is defined
there, bit `prio` of `bits` is its value.  Setting and clearing are double loops over a
rectangle clipped to the display; all arithmetic is that of `int32_t` and `unsigned`, so it
wraps where the source's does.

The loops are rewritten as sweeps (`setPixels_eq_sweep`, `clrPixels_eq_sweep`): the clipping
keeps every index inside the array and sends distinct loop values to distinct pixels, for any
offsets and sizes whatsoever (`axis_index`).  What a call leaves behind is then read off pixel
by pixel.
-/

namespace MonoBus

/-! ## `monobus.h` -/

/-- `WIDTH_SER`. -/
abbrev widthSer : ℕ := 16

/-- `HEIGHT_SER`. -/
abbrev heightSer : ℕ := 112

/-- `WIDTH_NET`. -/
abbrev widthNet : ℕ := heightSer

/-- `HEIGHT_NET`. -/
abbrev heightNet : ℕ := widthSer

/-- `pixel_t`. -/
structure Pixel where
  mask : UInt32
  bits : UInt32
  deriving DecidableEq, Repr

/-- A position in the array of `state_t`: row and column. -/
abbrev Coord := Fin heightNet × Fin widthNet

instance : NeZero heightNet := ⟨by decide⟩

instance : NeZero widthNet := ⟨by decide⟩

/-- `state_t`, which has the pixel array as its only member. -/
abbrev State := Coord → Pixel

/-- The state `memset` to zero. -/
def State.zero : State := fun _ => ⟨0, 0⟩

/-- The 32 layers of `tree_priority`. -/
abbrev Prio := Fin 32

namespace Pixel

/-- Whether layer `p` is defined at the pixel. -/
def defined (px : Pixel) (p : Prio) : Bool := px.mask.toBitVec.getLsbD p

/-- The bit of layer `p`, stale where the layer is not defined. -/
def value (px : Pixel) (p : Prio) : Bool := px.bits.toBitVec.getLsbD p

end Pixel

/-! ## Reading a bitmap -/

/-- `monobus_stride_for_width`. -/
def monobusStrideForWidth (width : UInt32) : UInt32 :=
  ((width + 7) &&& ~~~7) / 8

/-- The index `row_offset + col_offset` of `_get_bit`. -/
def getBitIndex (y x width : UInt32) : UInt32 :=
  let x := width - x - 1
  let stride := monobusStrideForWidth width
  let rowOffset := y * stride
  let colOffset := stride - x / 8 - 1
  rowOffset + colOffset

/-- `_get_bit` of `monobus.c`. -/
def getBit (blob : Ptr) (y x width : UInt32) : Run Bool := do
  let byte ← blob.index (getBitIndex y x width).toNat
  let x := width - x - 1
  let mask : UInt8 := 1 <<< (x % 8).toUInt8
  return byte &&& mask ≠ 0

/-! ## Setting and clearing a rectangle -/

/-- `MAX`, which is the smaller of the two. -/
def maxMacro (a b : Int32) : Int32 := if a > b then b else a

/-- The first loop value on an axis: `off < 0 ? -off : 0`. -/
def clipFrom (off : Int32) : Int32 := if off < 0 then -off else 0

/-- The end of the loop on an axis of `size` pixels: `MAX(len, size - off)`. -/
def clipTo (size : ℕ) (off len : Int32) : Int32 := maxMacro len (Int32.ofNat size - off)

/-- The loop values on one axis. -/
def axis (size : ℕ) (off len : Int32) : List Int32 :=
  int32UpTo (clipFrom off) (clipTo size off len)

/-- `&state->pixels[row][col]`. -/
def pixelIndex (row col : Int32) : Run Coord :=
  if h : (0 ≤ row.toInt ∧ row.toInt < heightNet) ∧ (0 ≤ col.toInt ∧ col.toInt < widthNet) then
    .ok (⟨row.toInt.toNat, by omega⟩, ⟨col.toInt.toNat, by omega⟩)
  else .error .outOfRange

/-- `1 << prio`. -/
def layerMask (prio : Prio) : UInt32 := 1 <<< UInt32.ofNat prio

/-- The pixel after `_set_pixels` has visited it. -/
def Pixel.paint (prio : Prio) (bit : Bool) (px : Pixel) : Pixel where
  mask := px.mask ||| layerMask prio
  bits := if bit then px.bits ||| layerMask prio else px.bits &&& ~~~layerMask prio

/-- The pixel after `_clr_pixels` has visited it. -/
def Pixel.erase (prio : Prio) (px : Pixel) : Pixel where
  mask := px.mask &&& ~~~layerMask prio
  bits := px.bits

/-- `_set_pixels`. -/
def setPixels (state : State) (prio : Prio) (offx offy width height : Int32) (blob : Ptr) :
    Run State :=
  (axis heightNet offy height).foldlM (fun state y =>
    (axis widthNet offx width).foldlM (fun state x => do
      let c ← pixelIndex (offy + y) (offx + x)
      let bit ← getBit blob y.toUInt32 x.toUInt32 width.toUInt32
      pure (Function.update state c ((state c).paint prio bit))) state) state

/-- `_clr_pixels`. -/
def clrPixels (state : State) (prio : Prio) (offx offy width height : Int32) : Run State :=
  (axis heightNet offy height).foldlM (fun state y =>
    (axis widthNet offx width).foldlM (fun state x => do
      let c ← pixelIndex (offy + y) (offx + x)
      pure (Function.update state c ((state c).erase prio))) state) state

/-! ## One pixel, one layer -/

namespace Pixel

lemma getLsbD_layerMask (prio p : Prio) :
    (layerMask prio).toBitVec.getLsbD p = decide (p = prio) := by
  have hp := p.isLt
  have hprio := prio.isLt
  simp only [layerMask, UInt32.toBitVec_shiftLeft, UInt32.toBitVec_ofNat', UInt32.toBitVec_ofNat,
    BitVec.shiftLeft_eq', BitVec.toNat_umod, BitVec.toNat_ofNat]
  rw [Nat.mod_eq_of_lt (show (prio : ℕ) < 2 ^ 32 by omega),
    show (BitVec.toNat (32 : BitVec 32)) = 32 from rfl, Nat.mod_eq_of_lt hprio]
  simp only [BitVec.getLsbD_shiftLeft, BitVec.getLsbD_one, Fin.ext_iff]
  rcases lt_trichotomy (p : ℕ) prio with hlt | heq | hgt
  · simp [hlt, hlt.ne]
  · simp [heq]
  · simp [hgt.ne', hgt.not_gt, Nat.sub_ne_zero_of_lt hgt]

@[simp] lemma defined_paint (prio p : Prio) (bit : Bool) (px : Pixel) :
    (px.paint prio bit).defined p = (px.defined p || decide (p = prio)) := by
  simp only [defined, paint, UInt32.toBitVec_or, BitVec.getLsbD_or, getLsbD_layerMask]

@[simp] lemma value_paint (prio p : Prio) (bit : Bool) (px : Pixel) :
    (px.paint prio bit).value p = if p = prio then bit else px.value p := by
  have hp := p.isLt
  cases bit
  · simp only [value, paint, Bool.false_eq_true, if_false, UInt32.toBitVec_and,
      UInt32.toBitVec_not, BitVec.getLsbD_and, BitVec.getLsbD_not, getLsbD_layerMask, hp,
      decide_true, Bool.true_and]
    split_ifs with h <;> simp [h]
  · simp only [value, paint, if_true, UInt32.toBitVec_or, BitVec.getLsbD_or, getLsbD_layerMask]
    split_ifs with h <;> simp [h]

@[simp] lemma defined_erase (prio p : Prio) (px : Pixel) :
    (px.erase prio).defined p = (px.defined p && !decide (p = prio)) := by
  simp only [defined, erase, UInt32.toBitVec_and, UInt32.toBitVec_not, BitVec.getLsbD_and,
    BitVec.getLsbD_not, getLsbD_layerMask, p.isLt, decide_true, Bool.true_and]

@[simp] lemma value_erase (prio p : Prio) (px : Pixel) :
    (px.erase prio).value p = px.value p := rfl

end Pixel

/-! ## The loops visit pixels of the display, each once -/

section Axis

variable {size : ℕ} {off len k : Int32}

lemma toInt_clipFrom (off : Int32) :
    (clipFrom off).toInt = if off.toInt < 0 then wrap32 (-off.toInt) else 0 := by
  unfold clipFrom
  split_ifs with h h' h'
  · exact int32_toInt_neg off
  · exact absurd (Int32.lt_iff_toInt_lt.mp h) h'
  · exact absurd (Int32.lt_iff_toInt_lt.mpr h') h
  · rfl

lemma toInt_clipTo (hsize : size ≤ 112) (off len : Int32) :
    (clipTo size off len).toInt = min len.toInt (wrap32 (size - off.toInt)) := by
  have hnat : (Int32.ofNat size).toInt = size := Int32.toInt_ofNat_of_lt (by omega)
  have hsub : (Int32.ofNat size - off).toInt = wrap32 (size - off.toInt) := by
    rw [int32_toInt_sub, hnat]
  unfold clipTo maxMacro
  rw [← hsub]
  split_ifs with h
  · have := Int32.lt_iff_toInt_lt.mp h
    omega
  · have : ¬ _ := fun h' => h (Int32.lt_iff_toInt_lt.mpr h')
    omega

/-- Whatever the offset and the length, wrapping included, a loop value lands inside the
array. -/
lemma axis_index (hsize : size ≤ 112) (hk : k ∈ axis size off len) :
    0 ≤ (off + k).toInt ∧ (off + k).toInt < size := by
  have hk' := mem_int32UpTo.mp hk
  rw [toInt_clipFrom, toInt_clipTo hsize] at hk'
  have hoff := int32_toInt_bounds off
  have hkb := int32_toInt_bounds k
  rw [int32_toInt_add]
  unfold wrap32 at *
  split at hk' <;> omega

/-- Offsets in the middle of the `int32_t` range are far from an overflow. -/
lemma clip_fits (hsize : size ≤ 112) (hoff : -2 ^ 30 ≤ off.toInt) :
    size - 2 ^ 31 < off.toInt := by omega

/-- Where `size - off` does not overflow the clipping is exact. -/
lemma mem_axis_iff {X : ℕ} (hsize : size ≤ 112) (hoff : size - 2 ^ 31 < off.toInt)
    (hX : X < size) :
    Int32.ofNat X - off ∈ axis size off len ↔
      off.toInt ≤ X ∧ (X : ℤ) < off.toInt + len.toInt := by
  have hoff' := int32_toInt_bounds off
  have hlen := int32_toInt_bounds len
  have hkey : (Int32.ofNat X - off).toInt = wrap32 (X - off.toInt) := by
    rw [int32_toInt_sub, Int32.toInt_ofNat_of_lt (by omega)]
  rw [axis, mem_int32UpTo, toInt_clipFrom, toInt_clipTo hsize, hkey]
  unfold wrap32
  split <;> omega

/-- The loop value that reaches `X`, as an exact difference. -/
lemma toInt_key {X : ℕ} (hsize : size ≤ 112) (hoff : size - 2 ^ 31 < off.toInt) (hX : X < size) :
    (Int32.ofNat X - off).toInt = X - off.toInt := by
  have hoff' := int32_toInt_bounds off
  rw [int32_toInt_sub, Int32.toInt_ofNat_of_lt (by omega), wrap32_of_range (by omega) (by omega)]

end Axis

/-- The pixel a pair of loop values stands for. -/
def cellOf (offx offy : Int32) (k : Int32 × Int32) : Coord :=
  (Fin.ofNat heightNet (offy + k.1).toInt.toNat, Fin.ofNat widthNet (offx + k.2).toInt.toNat)

/-- The pair of loop values that reaches a pixel, if any does. -/
def keyOf (offx offy : Int32) (c : Coord) : Int32 × Int32 :=
  (Int32.ofNat c.1 - offy, Int32.ofNat c.2 - offx)

/-- The pairs of loop values of a call, in the order it takes them. -/
def rectKeys (offx offy width height : Int32) : List (Int32 × Int32) :=
  axis heightNet offy height ×ˢ axis widthNet offx width

/-- Whether a call visits the pixel. -/
def touches (offx offy width height : Int32) (c : Coord) : Prop :=
  keyOf offx offy c ∈ rectKeys offx offy width height

instance (offx offy width height : Int32) (c : Coord) :
    Decidable (touches offx offy width height c) := by
  unfold touches; infer_instance

section Rect

variable {offx offy width height : Int32} {k : Int32 × Int32}

lemma mem_rectKeys :
    k ∈ rectKeys offx offy width height ↔
      k.1 ∈ axis heightNet offy height ∧ k.2 ∈ axis widthNet offx width :=
  List.mem_product

lemma pixelIndex_eq_cellOf (hk : k ∈ rectKeys offx offy width height) :
    pixelIndex (offy + k.1) (offx + k.2) = .ok (cellOf offx offy k) := by
  obtain ⟨hy, hx⟩ := mem_rectKeys.mp hk
  have hrow := axis_index (by norm_num) hy
  have hcol := axis_index (by norm_num) hx
  unfold pixelIndex cellOf
  rw [dif_pos ⟨hrow, hcol⟩]
  congr 1
  ext
  · simp only [Fin.ofNat, Nat.mod_eq_of_lt (show (offy + k.1).toInt.toNat < heightNet by omega)]
  · simp only [Fin.ofNat, Nat.mod_eq_of_lt (show (offx + k.2).toInt.toNat < widthNet by omega)]

/-- Going from a loop value to its pixel and back is the identity. -/
lemma keyOf_cellOf (hk : k ∈ rectKeys offx offy width height) :
    keyOf offx offy (cellOf offx offy k) = k := by
  obtain ⟨hy, hx⟩ := mem_rectKeys.mp hk
  have hrow := axis_index (by norm_num) hy
  have hcol := axis_index (by norm_num) hx
  have hback : ∀ (a b : Int32) (n : ℕ), 0 ≤ (a + b).toInt → (a + b).toInt < n → n < 2 ^ 31 →
      Int32.ofNat ((a + b).toInt.toNat % n) - a = b := by
    intro a b n hlo hhi hn
    rw [Nat.mod_eq_of_lt (by omega)]
    apply Int32.toInt_inj.mp
    rw [int32_toInt_sub, Int32.toInt_ofNat_of_lt (by omega), Int.toNat_of_nonneg hlo,
      int32_toInt_add]
    have ha := int32_toInt_bounds a
    have hb := int32_toInt_bounds b
    unfold wrap32
    omega
  exact Prod.ext (hback _ _ _ hrow.1 hrow.2 (by norm_num))
    (hback _ _ _ hcol.1 hcol.2 (by norm_num))

/-- Going from a pixel to loop values and back is the identity. -/
lemma cellOf_keyOf (c : Coord) : cellOf offx offy (keyOf offx offy c) = c := by
  have hback : ∀ (n : ℕ) [NeZero n] (a : Int32) (i : Fin n), n < 2 ^ 31 →
      Fin.ofNat n (a + (Int32.ofNat i - a)).toInt.toNat = i := by
    intro n _ a i hn
    have hi := i.isLt
    have hsum : (a + (Int32.ofNat i - a)).toInt = i := by
      rw [int32_toInt_add, int32_toInt_sub, Int32.toInt_ofNat_of_lt (by omega)]
      unfold wrap32
      omega
    ext
    rw [hsum, Int.toNat_natCast]
    exact Nat.mod_eq_of_lt hi
  exact Prod.ext (hback _ _ _ (by norm_num)) (hback _ _ _ (by norm_num))

lemma nodup_cells (offx offy width height : Int32) :
    ((rectKeys offx offy width height).map (cellOf offx offy)).Nodup := by
  refine List.Nodup.map_on ?_ (List.Nodup.product (nodup_int32UpTo _ _) (nodup_int32UpTo _ _))
  intro k hk k' hk' h
  rw [← keyOf_cellOf hk, ← keyOf_cellOf hk', h]

lemma mem_cells_iff {c : Coord} :
    c ∈ (rectKeys offx offy width height).map (cellOf offx offy) ↔
      touches offx offy width height c := by
  constructor
  · intro h
    obtain ⟨k, hk, rfl⟩ := List.mem_map.mp h
    unfold touches
    rwa [keyOf_cellOf hk]
  · exact fun h => List.mem_map.mpr ⟨_, h, cellOf_keyOf c⟩

/-- The pixels of a rectangle in exact integer arithmetic. -/
def inRect (offx offy width height : Int32) (c : Coord) : Prop :=
  (offy.toInt ≤ (c.1 : ℕ) ∧ ((c.1 : ℕ) : ℤ) < offy.toInt + height.toInt) ∧
    (offx.toInt ≤ (c.2 : ℕ) ∧ ((c.2 : ℕ) : ℤ) < offx.toInt + width.toInt)

instance (offx offy width height : Int32) : DecidablePred (inRect offx offy width height) :=
  fun _ => inferInstanceAs (Decidable (_ ∧ _))

lemma touches_iff_inRect (hoffx : widthNet - 2 ^ 31 < offx.toInt)
    (hoffy : heightNet - 2 ^ 31 < offy.toInt) (c : Coord) :
    touches offx offy width height c ↔ inRect offx offy width height c := by
  have hrow := c.1.isLt
  have hcol := c.2.isLt
  rw [touches, mem_rectKeys, keyOf, inRect]
  exact and_congr (mem_axis_iff (by norm_num) hoffy hrow) (mem_axis_iff (by norm_num) hoffx hcol)

end Rect

/-! ## The bits of a blob that is long enough -/

lemma toNat_monobusStrideForWidth {width : UInt32} (h : width.toNat < 2 ^ 31) :
    (monobusStrideForWidth width).toNat = (width.toNat + 7) / 8 := by
  have hadd : (width + 7).toNat = width.toNat + 7 := by
    rw [UInt32.toNat_add]
    exact Nat.mod_eq_of_lt (show width.toNat + 7 < 2 ^ 32 by omega)
  have hmask : (~~~7 : UInt32).toNat = 0xfffffff8 := rfl
  rw [monobusStrideForWidth, UInt32.toNat_div, UInt32.toNat_and, hadd, hmask,
    and_mask_eight (by omega)]
  exact Nat.mul_div_cancel _ (by norm_num)

/-- Inside the image, `_get_bit` reads byte `y * stride + col` of the blob, with `col` counted
from the right end of the row, before reduction to 32 bits. -/
lemma toNat_getBitIndex {y x width : UInt32} (hw : width.toNat < 2 ^ 31)
    (hx : x.toNat < width.toNat) :
    (getBitIndex y x width).toNat =
      (y.toNat * ((width.toNat + 7) / 8) +
        ((width.toNat + 7) / 8 - 1 - (width.toNat - 1 - x.toNat) / 8)) % 2 ^ 32 := by
  have hstride := toNat_monobusStrideForWidth hw
  have hflip : (width - x - 1).toNat = width.toNat - 1 - x.toNat := by
    have h₁ := uint32_toNat_sub (width - x) 1
    have h₂ := uint32_toNat_sub width x
    have hone : (1 : UInt32).toNat = 1 := rfl
    omega
  have hcol : (monobusStrideForWidth width - (width - x - 1) / 8 - 1).toNat =
      (width.toNat + 7) / 8 - 1 - (width.toNat - 1 - x.toNat) / 8 := by
    have hdiv : ((width - x - 1) / 8).toNat = (width.toNat - 1 - x.toNat) / 8 := by
      rw [UInt32.toNat_div, hflip]
      rfl
    have h₁ := uint32_toNat_sub (monobusStrideForWidth width - (width - x - 1) / 8) 1
    have h₂ := uint32_toNat_sub (monobusStrideForWidth width) ((width - x - 1) / 8)
    have hone : (1 : UInt32).toNat = 1 := rfl
    omega
  simp only [getBitIndex]
  rw [UInt32.toNat_add, UInt32.toNat_mul, hcol, hstride, Nat.mod_add_mod]

/-- Every byte of the image is one of its `stride * height` bytes. -/
lemma getBitIndex_lt (y x width : UInt32) (height : ℕ) (hw : width.toNat < 2 ^ 31)
    (hx : x.toNat < width.toNat) (hy : y.toNat < height) :
    (getBitIndex y x width).toNat < (monobusStrideForWidth width).toNat * height := by
  rw [toNat_getBitIndex hw hx, toNat_monobusStrideForWidth hw]
  set stride := (width.toNat + 7) / 8 with hstride
  have hpos : 0 < stride := by omega
  have hrow : y.toNat * stride + stride ≤ stride * height := by
    calc y.toNat * stride + stride = (y.toNat + 1) * stride := by ring
      _ ≤ height * stride := Nat.mul_le_mul_right _ hy
      _ = stride * height := Nat.mul_comm _ _
  calc _ ≤ y.toNat * stride + (stride - 1 - (width.toNat - 1 - x.toNat) / 8) := Nat.mod_le _ _
    _ < stride * height := by omega

/-- The loop value that reaches `X` is a position inside the image. -/
lemma toNat_key {size X : ℕ} {off len : Int32} (hsize : size ≤ 112)
    (hoff : size - 2 ^ 31 < off.toInt) (hX : X < size) (hlo : off.toInt ≤ X)
    (hhi : (X : ℤ) < off.toInt + len.toInt) :
    ((Int32.ofNat X - off).toUInt32.toNat : ℤ) = X - off.toInt ∧
      (len.toUInt32.toNat : ℤ) = len.toInt := by
  have hlen := int32_toInt_bounds len
  rw [int32_toNat_toUInt32, int32_toNat_toUInt32, toInt_key hsize hoff hX]
  omega

/-! ## What a call leaves behind -/

section Calls

variable {state : State} {prio : Prio} {offx offy width height : Int32} {blob : Ptr}

/-- The bit `_set_pixels` reads for a pixel of the display. -/
def blobBit (offx offy width : Int32) (blob : Ptr) (c : Coord) : Run Bool :=
  let k := keyOf offx offy c
  getBit blob k.1.toUInt32 k.2.toUInt32 width.toUInt32

/-- That bit as a value, `false` where the read faults. -/
def readBit (offx offy width : Int32) (blob : Ptr) (c : Coord) : Bool :=
  match blobBit offx offy width blob c with
  | .ok b => b
  | .error _ => false

lemma readBit_eq {c : Coord} (h : ∃ b, blobBit offx offy width blob c = .ok b) :
    blobBit offx offy width blob c = .ok (readBit offx offy width blob c) := by
  obtain ⟨b, hb⟩ := h
  rw [readBit, hb]

/-- A blob of `stride * height` bytes holds every bit the loops ask for. -/
lemma exists_blobBit (hoffx : widthNet - 2 ^ 31 < offx.toInt)
    (hoffy : heightNet - 2 ^ 31 < offy.toInt)
    (hblob : 0 < width.toInt → 0 < height.toInt →
      blob.Holds ((monobusStrideForWidth width.toUInt32).toNat * height.toInt.toNat))
    {c : Coord} (hc : inRect offx offy width height c) :
    ∃ b, blobBit offx offy width blob c = .ok b := by
  have hrow : (c.1 : ℕ) < 16 := c.1.isLt
  have hcol : (c.2 : ℕ) < 112 := c.2.isLt
  obtain ⟨⟨hylo, hyhi⟩, hxlo, hxhi⟩ := hc
  obtain ⟨hy, -⟩ := toNat_key (by norm_num) hoffy hrow hylo hyhi
  obtain ⟨hx, hw⟩ := toNat_key (by norm_num) hoffx hcol hxlo hxhi
  have hwidth := int32_toInt_bounds width
  obtain ⟨byte, hbyte⟩ := Ptr.exists_index (hblob (by omega) (by omega))
    (getBitIndex_lt (Int32.ofNat c.1 - offy).toUInt32 (Int32.ofNat c.2 - offx).toUInt32
      width.toUInt32 height.toInt.toNat (by omega) (by omega) (by omega))
  simp only [blobBit, keyOf, getBit, hbyte]
  exact ⟨_, rfl⟩

lemma setPixels_eq_sweep :
    setPixels state prio offx offy width height blob =
      sweep (cellOf offx offy)
        (fun k => getBit blob k.1.toUInt32 k.2.toUInt32 width.toUInt32)
        (fun _ bit px => px.paint prio bit) (rectKeys offx offy width height) state := by
  rw [setPixels, foldlM_product]
  refine foldlM_congr_mem (fun s k hk => ?_) state
  rw [pixelIndex_eq_cellOf hk]
  rfl

lemma clrPixels_eq_sweep :
    clrPixels state prio offx offy width height =
      sweep (cellOf offx offy) (fun _ => (.ok () : Run Unit))
        (fun _ _ px => px.erase prio) (rectKeys offx offy width height) state := by
  rw [clrPixels, foldlM_product]
  refine foldlM_congr_mem (fun s k hk => ?_) state
  rw [pixelIndex_eq_cellOf hk]
  rfl

/-- A clear never fails, and erases layer `prio` on the pixels it visits. -/
theorem clrPixels_eq (state : State) (prio : Prio) (offx offy width height : Int32) :
    clrPixels state prio offx offy width height =
      .ok fun c => if touches offx offy width height c then (state c).erase prio else state c := by
  obtain ⟨s', hrun, hin, hout⟩ := sweep_ok (cellOf offx offy)
    (fun _ => (.ok () : Run Unit)) (fun _ _ px => Pixel.erase prio px)
    (fun _ => ()) (rectKeys offx offy width height) state
    (fun _ _ => rfl) (nodup_cells offx offy width height)
  rw [clrPixels_eq_sweep, hrun]
  congr 1
  funext c
  split_ifs with hc
  · have := hin _ hc
    rwa [cellOf_keyOf] at this
  · exact hout c (fun h => hc (mem_cells_iff.mp h))

/-- A set all of whose bits can be read paints layer `prio` on the pixels it visits. -/
theorem setPixels_eq {bit : Coord → Bool}
    (hbit : ∀ c, touches offx offy width height c →
      blobBit offx offy width blob c = .ok (bit c)) :
    setPixels state prio offx offy width height blob =
      .ok fun c => if touches offx offy width height c then (state c).paint prio (bit c)
        else state c := by
  obtain ⟨s', hrun, hin, hout⟩ := sweep_ok (cellOf offx offy)
    (fun k => getBit blob k.1.toUInt32 k.2.toUInt32 width.toUInt32)
    (fun _ bit px => Pixel.paint prio bit px)
    (fun k => bit (cellOf offx offy k)) (rectKeys offx offy width height) state
    (fun k hk => by
      have := hbit (cellOf offx offy k) (mem_cells_iff.mp (List.mem_map_of_mem hk))
      rwa [blobBit, keyOf_cellOf hk] at this)
    (nodup_cells offx offy width height)
  rw [setPixels_eq_sweep, hrun]
  congr 1
  funext c
  split_ifs with hc
  · have := hin _ hc
    rwa [cellOf_keyOf] at this
  · exact hout c (fun h => hc (mem_cells_iff.mp h))

/-- A set that succeeds has read the bit of every pixel it visits. -/
lemma blobBit_ok_of_setPixels {s' : State}
    (h : setPixels state prio offx offy width height blob = .ok s') (c : Coord)
    (hc : touches offx offy width height c) : ∃ b, blobBit offx offy width blob c = .ok b := by
  rw [setPixels_eq_sweep] at h
  exact read_ok_of_sweep_ok h _ hc

/-- The only way for a set to fail is a read beyond the object. -/
lemma error_of_setPixels {e : Stop}
    (h : setPixels state prio offx offy width height blob = .error e) : e = .outOfRange := by
  rw [setPixels_eq_sweep] at h
  obtain ⟨k, -, hk⟩ := exists_read_error_of_sweep_error h
  rw [getBit] at hk
  cases hbyte : blob.index (getBitIndex k.1.toUInt32 k.2.toUInt32 width.toUInt32).toNat with
  | ok b => rw [hbyte] at hk; simp at hk
  | error e' =>
      rw [hbyte] at hk
      have he : e' = e := by simpa using hk
      rw [← he]
      exact Ptr.error_of_index hbyte

end Calls

/-! ## The two operations as values -/

/-- A call of `_set_pixels` or of `_clr_pixels`. -/
inductive Call
  | setPixels (prio : Prio) (offx offy width height : Int32) (blob : Ptr)
  | clrPixels (prio : Prio) (offx offy width height : Int32)

/-- Perform a call. -/
def Call.exec (state : State) : Call → Run State
  | .setPixels prio offx offy width height blob =>
      MonoBus.setPixels state prio offx offy width height blob
  | .clrPixels prio offx offy width height =>
      MonoBus.clrPixels state prio offx offy width height

end MonoBus
