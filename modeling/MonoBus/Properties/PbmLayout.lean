import MonoBus.Construction.LayerEffects
import Mathlib.Data.Nat.Bitwise

/-!
# The bit a bitmap pixel is drawn from

A PBM row holds its pixels from the left, most significant bit first, and ends with padding
bits.  `_get_bit` counts bits and bytes from the right end of the row, so it takes the padding
to stand on the left: the pixel at `x` is drawn from the bit at `x + pad`.  The two agree for
widths that are a multiple of eight, and otherwise only for rows that happen to look the same
after the shift.
-/

namespace MonoBus

/-! ## Bits of a byte -/

/-- `byte & (1 << k)` tests bit `k`. -/
lemma decide_and_mask (byte : UInt8) {k : UInt8} (hk : k.toNat < 8) :
    decide (byte &&& (1 <<< k) ≠ 0) = byte.toNat.testBit k.toNat := by
  have hmask : ((1 : UInt8) <<< k).toNat = 2 ^ k.toNat := by
    have hpow : 2 ^ k.toNat < 2 ^ 8 := Nat.pow_lt_pow_right (by norm_num) hk
    rw [UInt8.toNat_shiftLeft, Nat.mod_eq_of_lt hk, Nat.shiftLeft_eq]
    simp only [UInt8.toNat_one, one_mul]
    exact Nat.mod_eq_of_lt hpow
  have hand : (byte &&& (1 <<< k)).toNat = (byte.toNat.testBit k.toNat).toNat * 2 ^ k.toNat := by
    rw [UInt8.toNat_and, hmask, Nat.and_two_pow]
  rw [Bool.eq_iff_iff, decide_eq_true_iff, ne_eq, ← UInt8.toNat_inj, hand]
  cases byte.toNat.testBit k.toNat <;> simp

/-! ## Bitmaps -/

/-- A message that sets a bitmap of positive size, at an offset that does not wrap, with a blob
that holds all of its rows. -/
structure PbmMessage where
  offx : Int32
  offy : Int32
  width : Int32
  height : Int32
  blob : OscBlob
  width_pos : 1 ≤ width.toInt
  height_pos : 1 ≤ height.toInt
  offx_abs : |offx.toInt| ≤ 2 ^ 30
  offy_abs : |offy.toInt| ≤ 2 ^ 30
  size_lt : (width.toInt.toNat + 7) / 8 * height.toInt.toNat < 2 ^ 31
  size_le : (width.toInt.toNat + 7) / 8 * height.toInt.toNat ≤ blob.data.length

namespace PbmMessage

variable (m : PbmMessage)

def stride : ℕ := (m.width.toInt.toNat + 7) / 8

/-- The number of padding bits in a row. -/
def pad : ℕ := 8 * m.stride - m.width.toInt.toNat

/-- Bit `i` of row `y`, most significant bit first. -/
def rowBit (y i : ℕ) : Bool :=
  (m.blob.data.getD (y * m.stride + i / 8) 0).toNat.testBit (7 - i % 8)

/-- The PBM value of pixel `(x, y)`. -/
def pbmBit (x y : ℕ) : Bool := m.rowBit y x

/-- The image pixel `(x, y)` lands on the display at `c`. -/
def LandsAt (x y : ℕ) (c : Coord) : Prop :=
  (x : ℤ) < m.width.toInt ∧ (y : ℤ) < m.height.toInt ∧
    ((c.2 : ℕ) : ℤ) = m.offx.toInt + x ∧ ((c.1 : ℕ) : ℤ) = m.offy.toInt + y

abbrev args : List OscArgument := setArgs m.offx m.offy m.width m.height m.blob

/-- Each image pixel that lands on the display is drawn with its PBM value. -/
def DrawnAsPbm (prio : Prio) (state : State) : Prop :=
  ∀ x y c, m.LandsAt x y c →
    (state c).defined prio = true ∧ (state c).value prio = m.pbmBit x y

/-- The shift by the padding does not show: there is none, or the bits it exchanges agree. -/
def PaddingInvisible : Prop :=
  8 ∣ m.width.toInt ∨ ∀ x y c, m.LandsAt x y c → m.rowBit y (x + m.pad) = m.rowBit y x

/-! ## What the handler draws -/

lemma sizeCheck : SizeCheck m.width m.height m.blob := by
  have hw := m.width_pos
  have hh := m.height_pos
  have hwb := int32_toInt_bounds m.width
  have hwu := int32_toNat_toUInt32 m.width
  have hstride :
      (monobusStrideForWidth m.width.toUInt32).toNat = (m.width.toInt.toNat + 7) / 8 := by
    rw [toNat_monobusStrideForWidth (by omega)]
    omega
  refine (sizeCheck_iff_le (by omega) ?_).mpr ?_
  · rw [hstride]
    exact m.size_lt
  · rw [hstride]
    exact m.size_le

variable {m}

/-- The loop values of a pixel that lands on the display are its image coordinates. -/
lemma LandsAt.toNat_key {x y : ℕ} {c : Coord} (h : m.LandsAt x y c) :
    (keyOf m.offx m.offy c).1.toUInt32.toNat = y ∧
      (keyOf m.offx m.offy c).2.toUInt32.toNat = x := by
  obtain ⟨hx, hy, hcol, hrow⟩ := h
  have hoffx := abs_le.mp m.offx_abs
  have hoffy := abs_le.mp m.offy_abs
  have hc₁ : (c.1 : ℕ) < 16 := c.1.isLt
  have hc₂ : (c.2 : ℕ) < 112 := c.2.isLt
  have hky : (Int32.ofNat c.1 - m.offy).toInt = (c.1 : ℕ) - m.offy.toInt :=
    toInt_key (by norm_num) (clip_fits (by norm_num) hoffy.1) c.1.isLt
  have hkx : (Int32.ofNat c.2 - m.offx).toInt = (c.2 : ℕ) - m.offx.toInt :=
    toInt_key (by norm_num) (clip_fits (by norm_num) hoffx.1) c.2.isLt
  have hyu := int32_toNat_toUInt32 (Int32.ofNat c.1 - m.offy)
  have hxu := int32_toNat_toUInt32 (Int32.ofNat c.2 - m.offx)
  simp only [keyOf]
  omega

lemma LandsAt.touches {x y : ℕ} {c : Coord} (h : m.LandsAt x y c) :
    touches m.offx m.offy m.width m.height c := by
  obtain ⟨hx, hy, hcol, hrow⟩ := h
  have hoffx := abs_le.mp m.offx_abs
  have hoffy := abs_le.mp m.offy_abs
  apply (touches_iff_inRect (clip_fits (by norm_num) hoffx.1)
    (clip_fits (by norm_num) hoffy.1) c).mpr
  exact ⟨⟨by omega, by omega⟩, by omega, by omega⟩

lemma LandsAt.blobBit_eq {x y : ℕ} {c : Coord} (h : m.LandsAt x y c) {p : Ptr}
    (hblob : p.mem.At p.addr m.blob.data) :
    blobBit m.offx m.offy m.width p c = .ok (m.rowBit y (x + m.pad)) := by
  obtain ⟨hky, hkx⟩ := h.toNat_key
  obtain ⟨hx, hy, -, -⟩ := h
  have hsize := m.size_lt
  have hdata := m.size_le
  have hwb := int32_toInt_bounds m.width
  have hwu := int32_toNat_toUInt32 m.width
  set w := m.width.toUInt32 with hw
  set ku := (keyOf m.offx m.offy c).1.toUInt32
  set kv := (keyOf m.offx m.offy c).2.toUInt32
  have hwn : w.toNat = m.width.toInt.toNat := by omega
  have hstride : (w.toNat + 7) / 8 = m.stride := by rw [hwn, stride]
  -- the byte and the bit the code takes, counted from the right end of the row
  have hrow : y * m.stride + m.stride ≤ m.stride * m.height.toInt.toNat := by
    calc y * m.stride + m.stride = (y + 1) * m.stride := by ring
      _ ≤ m.height.toInt.toNat * m.stride := Nat.mul_le_mul_right _ (by omega)
      _ = m.stride * m.height.toInt.toNat := Nat.mul_comm _ _
  have hbyteAt : (x + m.pad) / 8 = m.stride - 1 - (w.toNat - 1 - x) / 8 := by
    rw [pad, stride]
    omega
  have hbitAt : 7 - (x + m.pad) % 8 = (w.toNat - 1 - x) % 8 := by
    rw [pad, stride]
    omega
  rw [← stride] at hsize hdata
  have hindex : (getBitIndex ku kv w).toNat = y * m.stride + (x + m.pad) / 8 := by
    rw [toNat_getBitIndex (by omega) (by omega), hstride, hky, hkx, hbyteAt]
    exact Nat.mod_eq_of_lt (by omega)
  have hflip : ((w - kv - 1) % 8).toUInt8.toNat = 7 - (x + m.pad) % 8 := by
    have h₁ := uint32_toNat_sub (w - kv) 1
    have h₂ := uint32_toNat_sub w kv
    have hone : (1 : UInt32).toNat = 1 := rfl
    have hmod : ((w - kv - 1) % 8).toNat = (w - kv - 1).toNat % 8 := by
      rw [UInt32.toNat_mod]
      rfl
    rw [UInt32.toNat_toUInt8, hmod, hbitAt]
    omega
  have hbyte := Ptr.index_of_at hblob (i := y * m.stride + (x + m.pad) / 8) (by omega)
  rw [blobBit, getBit, hindex, hbyte, Run.ok_bind, Run.pure_eq]
  congr 1
  have hbit : ((w - kv - 1) % 8).toUInt8.toNat < 8 := by omega
  rw [rowBit, ← hflip]
  exact decide_and_mask _ hbit

lemma exists_landsAt {c : Coord} (h : MonoBus.touches m.offx m.offy m.width m.height c) :
    ∃ x y, m.LandsAt x y c := by
  have hoffx := abs_le.mp m.offx_abs
  have hoffy := abs_le.mp m.offy_abs
  obtain ⟨⟨hylo, hyhi⟩, hxlo, hxhi⟩ := (touches_iff_inRect (clip_fits (by norm_num) hoffx.1)
    (clip_fits (by norm_num) hoffy.1) c).mp h
  exact ⟨((c.2 : ℕ) - m.offx.toInt).toNat, ((c.1 : ℕ) - m.offy.toInt).toNat, by omega, by omega,
    by omega, by omega⟩

variable (m)

/-- **What the handler draws.**  Each image pixel on the display is drawn from the bit `pad`
places to its right. -/
theorem handleMessage_drawn (fn : Fnmatch) (prio : Prio)
    (pkt : Packet (messageTo (.ofPrio prio) m.args).encode) (state : State) :
    ∃ state', pkt.handleMessage Call.exec fn state = .ok state' ∧
      ∀ x y c, m.LandsAt x y c →
        (state' c).layer prio = (true, m.rowBit y (x + m.pad)) := by
  have hop : messageOps m.args = [.set m.offx m.offy m.width m.height 20] := by
    rw [args, messageOps_setArgs, if_pos m.sizeCheck]
  set blob : Ptr := ⟨pkt.mem, pkt.argAddr + 20⟩ with hblobdef
  have hblob : blob.mem.At blob.addr m.blob.data := pkt.at_blob
  have hread : ∀ op ∈ [LayerOp.set m.offx m.offy m.width m.height 20],
      op.Readable pkt.mem pkt.argAddr := by
    intro op hmem
    rw [List.mem_singleton.mp hmem]
    intro c hc
    obtain ⟨x, y, hxy⟩ := m.exists_landsAt hc
    exact ⟨_, hxy.blobBit_eq hblob⟩
  obtain ⟨state', hrun, hlayer⟩ := drawOps_ok prio state hread
  refine ⟨state', ?_, fun x y c hc => ?_⟩
  · rw [handleMessage_ofPrio, hop, hrun]
  · have hpaint : (LayerOp.set m.offx m.offy m.width m.height 20).Paints c := hc.touches
    have hbit : readBit m.offx m.offy m.width blob c = m.rowBit y (x + m.pad) := by
      rw [readBit, hc.blobBit_eq hblob]
    rw [hlayer, if_pos rfl]
    simp [actAll, LayerOp.act, hpaint, LayerOp.bit, ← hblobdef, hbit]

/-- **PBM layout.**  The message draws its bitmap as PBM payload if and only if the shift by
the padding does not show. -/
theorem pbmLayout_iff (fn : Fnmatch) (prio : Prio)
    (pkt : Packet (messageTo (.ofPrio prio) m.args).encode) (state : State) :
    (∃ state', pkt.handleMessage Call.exec fn state = .ok state' ∧ m.DrawnAsPbm prio state') ↔
      m.PaddingInvisible := by
  obtain ⟨state', hrun, hdrawn⟩ := m.handleMessage_drawn fn prio pkt state
  have hbits : m.DrawnAsPbm prio state' ↔
      ∀ x y c, m.LandsAt x y c → m.rowBit y (x + m.pad) = m.rowBit y x := by
    refine forall₄_congr fun x y c hc => ?_
    have hlayer := hdrawn x y c hc
    rw [Pixel.layer, Prod.mk.injEq] at hlayer
    rw [hlayer.1, hlayer.2, pbmBit]
    simp
  have hpad : 8 ∣ m.width.toInt → m.pad = 0 := by
    intro h
    have hw := m.width_pos
    rw [pad, stride]
    omega
  constructor
  · rintro ⟨state₂, hrun₂, hpbm⟩
    rw [hrun, Except.ok.injEq] at hrun₂
    exact .inr (hbits.mp (hrun₂ ▸ hpbm))
  · rintro (hdvd | hsame)
    · refine ⟨state', hrun, hbits.mpr fun x y c _ => ?_⟩
      rw [hpad hdvd, Nat.add_zero]
    · exact ⟨state', hrun, hbits.mpr hsame⟩

end PbmMessage

/-! ## A bitmap of one pixel -/

/-- One pixel, lit, for the top left corner. -/
def onePixel : PbmMessage where
  offx := 0
  offy := 0
  width := 1
  height := 1
  blob := .ofByte 0x80
  width_pos := by decide
  height_pos := by decide
  offx_abs := by decide
  offy_abs := by decide
  size_lt := by decide
  size_le := by decide

/-- The pixel is not drawn as lit: bit 0 of the byte is read instead of bit 7. -/
theorem pbmLayout_counterexample :
    ¬ ∃ state', (Packet.placed (messageTo (.ofPrio 0) onePixel.args).encode
        (by decide)).handleMessage Call.exec .wildcard State.zero = .ok state' ∧
      onePixel.DrawnAsPbm 0 state' := by
  rintro ⟨state₂, hrun₂, hpbm⟩
  obtain ⟨state', hrun, hdrawn⟩ := onePixel.handleMessage_drawn .wildcard 0
    (Packet.placed (messageTo (.ofPrio 0) onePixel.args).encode (by decide)) State.zero
  have hcorner : onePixel.LandsAt 0 0 (0, 0) := by
    refine ⟨?_, ?_, ?_, ?_⟩ <;> decide
  rw [hrun, Except.ok.injEq] at hrun₂
  have hlit := (hpbm 0 0 _ hcorner).2
  rw [← hrun₂, (Prod.mk.inj (hdrawn 0 0 _ hcorner)).2] at hlit
  exact absurd hlit (by decide)

end MonoBus
