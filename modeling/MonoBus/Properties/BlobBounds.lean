import MonoBus.Construction.MessageCalls

/-!
# Which bytes of a blob the loops read

The size check of `_priority` compares the blob size with a product reduced to `int32_t`, while
`_get_bit` computes its index modulo `2^32`.  Within one row the loops read consecutive bytes
(`rowFirst` and `rowSpan`), so the reads stay inside the blob exactly if each visible row does.
Without wrapping the size check implies this; with it, the check can pass for any blob.
-/

namespace MonoBus

/-! ## The reads of a call -/

/-- The indices at which a call reads its blob. -/
def Call.readIndices : Call → List ℕ
  | .setPixels _ offx offy width height _ =>
      (rectKeys offx offy width height).map fun k =>
        (getBitIndex k.1.toUInt32 k.2.toUInt32 width.toUInt32).toNat
  | .clrPixels .. => []

/-- The first byte of a row that the loop reads. -/
def rowFirst (offx width : Int32) (y : Int32) : ℕ :=
  (getBitIndex y.toUInt32 (clipFrom offx).toUInt32 width.toUInt32).toNat

/-- How many bytes behind the first one it reads in each row. -/
def rowSpan (offx width : Int32) : ℕ :=
  ((width.toInt - 1 - (clipFrom offx).toInt) / 8 -
    (width.toInt - (clipTo widthNet offx width).toInt) / 8).toNat

/-- Each visible row lies in a blob of `size` bytes. -/
def RowsInBlob (offx offy width height : Int32) (size : ℕ) : Prop :=
  axis widthNet offx width ≠ [] → ∀ y ∈ axis heightNet offy height,
    rowFirst offx width y + rowSpan offx width < size

/-- No arithmetic wraps: the offsets can be negated, and the size of the bitmap is an
`int32_t`. -/
def NoWrap (offx offy width height : Int32) : Prop :=
  -2 ^ 31 < offx.toInt ∧ -2 ^ 31 < offy.toInt ∧
    (monobusStrideForWidth width.toUInt32).toNat * height.toInt.toNat < 2 ^ 31

/-! ## One row -/

section Row

variable {offx offy width height x y : Int32}

/-- The bit distance from the right end of the row, which never wraps. -/
lemma toNat_flip (hx : x.toInt < width.toInt) :
    ((width.toUInt32 - x.toUInt32 - 1).toNat : ℤ) = width.toInt - 1 - x.toInt := by
  have hw := int32_toInt_bounds width
  have hxb := int32_toInt_bounds x
  have h₁ := uint32_toNat_sub (width.toUInt32 - x.toUInt32) 1
  have h₂ := uint32_toNat_sub width.toUInt32 x.toUInt32
  have hone : (1 : UInt32).toNat = 1 := rfl
  have hwu := int32_toNat_toUInt32 width
  have hxu := int32_toNat_toUInt32 x
  omega

/-- The index of a byte, up to wrapping, falls with the distance from the right end. -/
lemma getBitIndex_mod (hx : x.toInt < width.toInt) :
    ((getBitIndex y.toUInt32 x.toUInt32 width.toUInt32).toNat : ℤ) =
      ((y.toUInt32 * monobusStrideForWidth width.toUInt32).toNat +
        (monobusStrideForWidth width.toUInt32).toNat - 1 -
          (width.toInt - 1 - x.toInt) / 8) % 2 ^ 32 := by
  set stride := monobusStrideForWidth width.toUInt32 with hstride
  have hflip := toNat_flip hx
  have hdiv : (((width.toUInt32 - x.toUInt32 - 1) / 8).toNat : ℤ) =
      (width.toInt - 1 - x.toInt) / 8 := by
    rw [← hflip, UInt32.toNat_div]
    rfl
  have h₁ := uint32_toNat_sub (stride - (width.toUInt32 - x.toUInt32 - 1) / 8) 1
  have h₂ := uint32_toNat_sub stride ((width.toUInt32 - x.toUInt32 - 1) / 8)
  have hone : (1 : UInt32).toNat = 1 := rfl
  simp only [getBitIndex, ← hstride]
  rw [UInt32.toNat_add]
  omega

lemma forall_row_lt_iff {size : ℕ} (hsize : size < 2 ^ 32)
    (hne : axis widthNet offx width ≠ []) :
    (∀ x ∈ axis widthNet offx width,
      (getBitIndex y.toUInt32 x.toUInt32 width.toUInt32).toNat < size) ↔
      rowFirst offx width y + rowSpan offx width < size := by
  set lo := (clipFrom offx).toInt with hlo
  set hi := (clipTo widthNet offx width).toInt with hhi
  have hmem : ∀ x, x ∈ axis widthNet offx width ↔ lo ≤ x.toInt ∧ x.toInt < hi :=
    fun x => mem_int32UpTo
  have hhiw : hi ≤ width.toInt := by
    rw [hhi, toInt_clipTo (by norm_num)]
    exact min_le_left _ _
  have hlohi : lo < hi := by
    obtain ⟨x, hx⟩ := List.exists_mem_of_ne_nil _ hne
    have := (hmem x).mp hx
    omega
  have hlob := int32_toInt_bounds (clipFrom offx)
  have hwb := int32_toInt_bounds width
  -- the index at `x`, from the one at the first byte
  have hindex : ∀ x : Int32, lo ≤ x.toInt → x.toInt < hi →
      ((getBitIndex y.toUInt32 x.toUInt32 width.toUInt32).toNat : ℤ) =
        (rowFirst offx width y + ((width.toInt - 1 - lo) / 8 -
          (width.toInt - 1 - x.toInt) / 8)) % 2 ^ 32 := by
    intro x hx hx'
    have hfirst := @getBitIndex_mod width (clipFrom offx) y (by omega)
    rw [getBitIndex_mod (by omega), rowFirst, hfirst]
    omega
  have hspan : (rowSpan offx width : ℤ) =
      (width.toInt - 1 - lo) / 8 - (width.toInt - hi) / 8 := by
    rw [rowSpan, ← hlo, ← hhi]
    omega
  constructor
  · intro h
    by_contra hge
    have hfirst : rowFirst offx width y < size :=
      h _ ((hmem _).mpr ⟨le_refl lo, hlohi⟩)
    -- the last pixel of the byte at index `size`, which the row reaches
    set t := (width.toInt - 1 - lo) / 8 - (size - rowFirst offx width y : ℕ) with ht
    have hx : (Int32.ofInt (width.toInt - 1 - (8 * t + 7))).toInt =
        width.toInt - 1 - (8 * t + 7) := by
      rw [int32_toInt_ofInt, wrap32_of_range (by omega) (by omega)]
    have hbad := h _ ((hmem _).mpr (by rw [hx]; omega))
    have hat := hindex (Int32.ofInt (width.toInt - 1 - (8 * t + 7))) (by omega) (by omega)
    omega
  · intro h x hx
    obtain ⟨hxlo, hxhi⟩ := (hmem x).mp hx
    have := hindex x hxlo hxhi
    omega

end Row

/-! ## The whole bitmap -/

section Bitmap

variable {offx offy width height : Int32} {blob : OscBlob}

lemma forall_readIndices_iff (prio : Prio) (p : Ptr) {size : ℕ} (hsize : size < 2 ^ 32) :
    (∀ i ∈ (Call.setPixels prio offx offy width height p).readIndices, i < size) ↔
      RowsInBlob offx offy width height size := by
  have hkeys : (∀ i ∈ (Call.setPixels prio offx offy width height p).readIndices, i < size) ↔
      ∀ y ∈ axis heightNet offy height, ∀ x ∈ axis widthNet offx width,
        (getBitIndex y.toUInt32 x.toUInt32 width.toUInt32).toNat < size := by
    simp only [Call.readIndices, List.forall_mem_map, Prod.forall, mem_rectKeys]
    exact ⟨fun h y hy x hx => h y x ⟨hy, hx⟩, fun h y x hk => h y hk.1 x hk.2⟩
  rw [hkeys, RowsInBlob]
  constructor
  · exact fun h hne y hy => (forall_row_lt_iff hsize hne).mp (h y hy)
  · intro h y hy x hx
    have hne : axis widthNet offx width ≠ [] := List.ne_nil_of_mem hx
    exact (forall_row_lt_iff hsize hne).mpr (h hne y hy) x hx

/-- A loop value of an axis whose offset can be negated is a position inside the image. -/
lemma mem_axis_bounds {size : ℕ} {off len k : Int32} (hsize : size ≤ 112)
    (hoff : -2 ^ 31 < off.toInt) (hk : k ∈ axis size off len) :
    0 ≤ k.toInt ∧ k.toInt < len.toInt := by
  have hk' := mem_int32UpTo.mp hk
  rw [toInt_clipFrom, toInt_clipTo hsize] at hk'
  have hb := int32_toInt_bounds off
  unfold wrap32 at hk'
  split at hk' <;> omega

/-- Without wrapping a blob that passes the size check holds every row. -/
lemma rowsInBlob_of_noWrap (hcheck : SizeCheck width height blob)
    (h : NoWrap offx offy width height) :
    RowsInBlob offx offy width height blob.data.length := by
  have hlt := blob.data_lt
  obtain ⟨hoffx, hoffy, hsize⟩ := h
  rw [← forall_readIndices_iff 0 ⟨(Packet.placed [] (by decide)).mem, 0⟩ (by omega)]
  intro i hi
  obtain ⟨k, hk, rfl⟩ := List.mem_map.mp hi
  obtain ⟨hy, hx⟩ := mem_rectKeys.mp hk
  have hyb := mem_axis_bounds (by norm_num) hoffy hy
  have hxb := mem_axis_bounds (by norm_num) hoffx hx
  have hyu := int32_toNat_toUInt32 k.1
  have hxu := int32_toNat_toUInt32 k.2
  have hwu := int32_toNat_toUInt32 width
  have hwb := int32_toInt_bounds width
  have hindex := getBitIndex_lt k.1.toUInt32 k.2.toUInt32 width.toUInt32 height.toInt.toNat
    (by omega) (by omega) (by omega)
  exact hindex.trans_le ((sizeCheck_iff_le (by omega) hsize).mp hcheck)

end Bitmap

/-- The condition under which a message that sets a bitmap reads its blob in range. -/
def BlobReadsInRange (offx offy width height : Int32) (blob : OscBlob) : Prop :=
  ¬ SizeCheck width height blob ∨ NoWrap offx offy width height ∨
    RowsInBlob offx offy width height blob.data.length

/-- **Blob reads.**  A message that sets a bitmap makes one call, and every byte of the blob
this call reads lies in the blob if and only if the size check refuses the blob, or nothing
wraps, or each visible row lies in the blob all the same. -/
theorem blobReads_iff (fn : Fnmatch) (prio : Prio) (offx offy width height : Int32)
    (blob : OscBlob)
    (pkt : Packet (messageTo (.ofPrio prio) (setArgs offx offy width height blob)).encode) :
    ∃ call, pkt.handleMessage record fn [] = .ok [call] ∧
      (∀ state, pkt.handleMessage Call.exec fn state = call.exec state) ∧
      ((∀ i ∈ call.readIndices, i < blob.data.length) ↔
        BlobReadsInRange offx offy width height blob) := by
  have hlt := blob.data_lt
  rw [BlobReadsInRange]
  simp only [handleMessage_ofPrio, drawOps_record, drawOps_exec, messageOps_setArgs]
  by_cases hcheck : SizeCheck width height blob
  · rw [if_pos hcheck]
    refine ⟨_, rfl, fun state => by simp, ?_⟩
    rw [LayerOp.call, forall_readIndices_iff _ _ (by omega)]
    constructor
    · exact fun h => .inr (.inr h)
    · rintro (hrefuse | hwrap | hrows)
      · exact absurd hcheck hrefuse
      · exact rowsInBlob_of_noWrap hcheck hwrap
      · exact hrows
  · rw [if_neg hcheck]
    refine ⟨_, rfl, fun state => by simp, ?_⟩
    exact iff_of_true (by simp [LayerOp.call, Call.readIndices]) (.inl hcheck)

def emptyBlob : OscBlob where
  data := []
  pad := []
  data_lt := by decide
  length_pad := by decide

/-- At width 112 and height `2^31 - 1` the product is `-14` as an `int32_t`: the empty blob
passes the size check, and the first byte read is not in it. -/
theorem blobReads_counterexample :
    ∃ call, (Packet.placed (messageTo (.ofPrio 0)
        (setArgs 0 0 112 0x7fffffff emptyBlob)).encode (by decide)).handleMessage record
          .wildcard [] = .ok [call] ∧
      ¬ ∀ i ∈ call.readIndices, i < emptyBlob.data.length := by
  have hcheck : SizeCheck 112 0x7fffffff emptyBlob := by decide
  have hcorner : ((0 : Int32), (0 : Int32)) ∈ rectKeys 0 0 112 0x7fffffff := by
    rw [mem_rectKeys]
    constructor <;> exact mem_int32UpTo.mpr (by decide)
  simp only [handleMessage_ofPrio, drawOps_record, messageOps_setArgs, if_pos hcheck]
  refine ⟨_, rfl, fun h => ?_⟩
  have hread := h _ (List.mem_map_of_mem hcorner)
  exact absurd hread (by decide)

end MonoBus
