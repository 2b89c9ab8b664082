import MonoBus.Framework.Scatter
import MonoBus.Properties.Compositor
import MonoBus.Properties.PbmLayout

/-!
# Messages as drawings on the reference stack

What a message means for the display, said without memory: it paints its image on a layer, or
clears a rectangle of it.  `Drawing` is a message whose images come with all of their bytes;
wherever its bytes stand, the handler does to the bitmap what the drawing does to the reference
stack (`handleOscMessage_draws`).
-/

namespace MonoBus

/-! ## Images -/

/-- Pixel `(x, y)` of an image whose rows stand at the right end of whole bytes. -/
def imageBit (data : List UInt8) (width y x : ℕ) : Bool :=
  byteBit (data.getD (y * ((width + 7) / 8) + ((width + 7) / 8 - 1 - (width - 1 - x) / 8)) 0)
    ((width - 1 - x) % 8)

lemma getBit_eq {mem : Memory} {a : ℕ} {data : List UInt8} {y x width : UInt32} {height : ℕ}
    (h : mem.At a data) (hw : width.toNat < 2 ^ 31) (hx : x.toNat < width.toNat)
    (hy : y.toNat < height) (hlt : (width.toNat + 7) / 8 * height < 2 ^ 31)
    (hle : (width.toNat + 7) / 8 * height ≤ data.length) :
    getBit ⟨mem, a⟩ y x width = .ok (imageBit data width.toNat y.toNat x.toNat) := by
  set stride := (width.toNat + 7) / 8 with hstride
  have hrow : y.toNat * stride + stride ≤ stride * height := by
    calc y.toNat * stride + stride = (y.toNat + 1) * stride := by ring
      _ ≤ height * stride := Nat.mul_le_mul_right _ (by omega)
      _ = stride * height := Nat.mul_comm _ _
  have hindex : (getBitIndex y x width).toNat =
      y.toNat * stride + (stride - 1 - (width.toNat - 1 - x.toNat) / 8) := by
    rw [toNat_getBitIndex hw hx, ← hstride]
    exact Nat.mod_eq_of_lt (by omega)
  have hflip : ((width - x - 1) % 8).toUInt8.toNat = (width.toNat - 1 - x.toNat) % 8 := by
    have h₁ := uint32_toNat_sub (width - x) 1
    have h₂ := uint32_toNat_sub width x
    have hone : (1 : UInt32).toNat = 1 := rfl
    have hmod : ((width - x - 1) % 8).toNat = (width - x - 1).toNat % 8 := by
      rw [UInt32.toNat_mod]
      rfl
    rw [UInt32.toNat_toUInt8, hmod]
    omega
  have hbyte := Ptr.index_of_at h
    (i := y.toNat * stride + (stride - 1 - (width.toNat - 1 - x.toNat) / 8)) (by omega)
  rw [getBit, hindex, hbyte, Run.ok_bind, Run.pure_eq, imageBit, ← hstride, ← hflip]
  exact congrArg Except.ok (decide_and_mask _ (by omega))

/-! ## Operations -/

namespace LayerOp

/-- An operation on the reference stack, with the argument data of its message. -/
def draw (data : List UInt8) (prio : Prio) (L : RefLayers) : LayerOp → RefLayers
  | .set offx offy width height blob =>
      L.paint prio (inRect offx offy width height) fun c =>
        imageBit (data.drop blob) width.toInt.toNat ((c.1 : ℕ) - offy.toInt).toNat
          ((c.2 : ℕ) - offx.toInt).toNat
  | .clr offx offy width height => L.erase prio (inRect offx offy width height)

/-- The offsets are far from an overflow, and the image has all of its bytes. -/
def Tame (n : ℕ) : LayerOp → Prop
  | .set offx offy width height blob =>
      -2 ^ 30 ≤ offx.toInt ∧ -2 ^ 30 ≤ offy.toInt ∧
        (width.toInt.toNat + 7) / 8 * height.toInt.toNat < 2 ^ 31 ∧
        blob + (width.toInt.toNat + 7) / 8 * height.toInt.toNat ≤ n
  | .clr offx offy _ _ => -2 ^ 30 ≤ offx.toInt ∧ -2 ^ 30 ≤ offy.toInt

instance (n : ℕ) : (op : LayerOp) → Decidable (op.Tame n)
  | .set .. => inferInstanceAs (Decidable (_ ∧ _ ∧ _ ∧ _))
  | .clr .. => inferInstanceAs (Decidable (_ ∧ _))

end LayerOp

/-- The loop values of a pixel in a rectangle, as numbers. -/
lemma toNat_keyOf {offx offy width height : Int32} (hoffx : -2 ^ 30 ≤ offx.toInt)
    (hoffy : -2 ^ 30 ≤ offy.toInt) {c : Coord} (hc : inRect offx offy width height c) :
    (keyOf offx offy c).1.toUInt32.toNat = ((c.1 : ℕ) - offy.toInt).toNat ∧
      (keyOf offx offy c).2.toUInt32.toNat = ((c.2 : ℕ) - offx.toInt).toNat ∧
      width.toUInt32.toNat = width.toInt.toNat := by
  obtain ⟨⟨hylo, hyhi⟩, hxlo, hxhi⟩ := hc
  obtain ⟨hkx, hw⟩ := toNat_key (by norm_num) (clip_fits (by norm_num) hoffx) c.2.isLt hxlo hxhi
  obtain ⟨hky, -⟩ := toNat_key (by norm_num) (clip_fits (by norm_num) hoffy) c.1.isLt hylo hyhi
  simp only [keyOf]
  omega

section Exec

variable {mem : Memory} {a : ℕ} {data : List UInt8}

/-- The bit an operation reads is that of its image. -/
lemma blobBit_eq_imageBit (h : mem.At a data) {offx offy width height : Int32} {blob : ℕ}
    (htame : (LayerOp.set offx offy width height blob).Tame data.length) {c : Coord}
    (hc : inRect offx offy width height c) :
    blobBit offx offy width ⟨mem, a + blob⟩ c =
      .ok (imageBit (data.drop blob) width.toInt.toNat ((c.1 : ℕ) - offy.toInt).toNat
        ((c.2 : ℕ) - offx.toInt).toNat) := by
  obtain ⟨hoffx, hoffy, hlt, hle⟩ := htame
  obtain ⟨hky, hkx, hw⟩ := toNat_keyOf hoffx hoffy hc
  obtain ⟨⟨hylo, hyhi⟩, hxlo, hxhi⟩ := hc
  have hwb := int32_toInt_bounds width
  have hdrop : mem.At (a + blob) (data.drop blob) := by
    have hright : mem.At (a + (data.take blob).length) (data.drop blob) :=
      Memory.At.right (by rwa [List.take_append_drop])
    rwa [List.length_take_of_le (by omega)] at hright
  have hbit := @getBit_eq mem (a + blob) _ (keyOf offx offy c).1.toUInt32
    (keyOf offx offy c).2.toUInt32 width.toUInt32 height.toInt.toNat hdrop (by omega) (by omega)
    (by omega) (by rwa [hw]) (by rw [hw, List.length_drop]; omega)
  rwa [hky, hkx, hw] at hbit

/-- An operation is covered, and its call does to the reference stack what it draws. -/
lemma refStep_call (h : mem.At a data) (prio : Prio) (L : RefLayers) {op : LayerOp}
    (htame : op.Tame data.length) :
    (op.call prio mem a).Covered ∧ refStep L (op.call prio mem a) = op.draw data prio L := by
  cases op with
  | clr offx offy width height => exact ⟨htame, rfl⟩
  | set offx offy width height blob =>
      have hbit : ∀ c, inRect offx offy width height c →
          blobBit offx offy width ⟨mem, a + blob⟩ c = _ := fun c hc =>
        blobBit_eq_imageBit h htame hc
      refine ⟨⟨htame.1, htame.2.1, fun hwidth hheight => ?_⟩, ?_⟩
      · obtain ⟨-, -, -, hle⟩ := htame
        have hend := h.end_le
        have hwb := int32_toInt_bounds width
        have hwu := int32_toNat_toUInt32 width
        have hw : width.toUInt32.toNat = width.toInt.toNat := by omega
        refine ⟨h.base_le.trans (Nat.le_add_right a blob), ?_⟩
        rw [toNat_monobusStrideForWidth (by omega), hw]
        dsimp only
        omega
      · refine Layers.paint_congr L prio _ fun c hc => ?_
        simp only [readBit, hbit c hc]

end Exec

/-! ## Messages -/

/-- A message to a path `/monobus/segment` whose operations are all tame. -/
structure Drawing where
  segment : PathSegment
  args : List OscArgument
  tame : ∀ op ∈ messageOps args, op.Tame (args.flatMap OscArgument.encode).length

namespace Drawing

/-- The message. -/
abbrev message (d : Drawing) : OscMessage := messageTo d.segment d.args

/-- Its argument data. -/
abbrev data (d : Drawing) : List UInt8 := d.args.flatMap OscArgument.encode

/-- What a message does to the reference stack: the first layer whose name it matches gets its
operations, and all others that it matches are cleared. -/
def draw (fn : Fnmatch) (L : RefLayers) (d : Drawing) : RefLayers :=
  match matchingPrios fn d.segment with
  | [] => L
  | prio :: prios =>
      prios.foldl (fun L prio => L.erase prio fun _ => True)
        ((messageOps d.args).foldl (LayerOp.draw d.data prio) L)

end Drawing

section Draws

variable {mem : Memory} {a : ℕ}

lemma drawOps_represents {data : List UInt8} (h : mem.At a data) (prio : Prio)
    {ops : List LayerOp} (htame : ∀ op ∈ ops, op.Tame data.length) {state : State}
    {L : RefLayers} (hrep : Represents state L) :
    ∃ state', drawOps Call.exec prio mem a ops state = .ok state' ∧
      Represents state' (ops.foldl (LayerOp.draw data prio) L) := by
  refine foldlM_simulates (P := fun op => op.Tame data.length) ?_ ops hrep htame
  intro state L op hrep hop
  obtain ⟨hcovered, hstep⟩ := refStep_call h prio L hop
  rw [← hstep]
  exact exec_represents _ hrep hcovered

/-- The rectangle of a message without arguments is the display. -/
lemma inRect_display (c : Coord) :
    inRect 0 0 (Int32.ofNat widthNet) (Int32.ofNat heightNet) c := by
  have hrow : (c.1 : ℕ) < 16 := c.1.isLt
  have hcol : (c.2 : ℕ) < 112 := c.2.isLt
  have hzero : (0 : Int32).toInt = 0 := rfl
  have hwidth : (Int32.ofNat widthNet).toInt = 112 := rfl
  have hheight : (Int32.ofNat heightNet).toInt = 16 := rfl
  unfold inRect
  omega

lemma clears_represents (prios : List Prio) {state : State} {L : RefLayers}
    (hrep : Represents state L) :
    ∃ state', prios.foldlM (fun state prio => Call.exec state
        (.clrPixels prio 0 0 (Int32.ofNat widthNet) (Int32.ofNat heightNet))) state = .ok state' ∧
      Represents state' (prios.foldl (fun L prio => L.erase prio fun _ => True) L) := by
  refine foldlM_simulates (P := fun _ => True) ?_ prios hrep fun _ _ => trivial
  intro state L prio hrep _
  obtain ⟨state', hexec, hrep'⟩ := exec_represents
    (.clrPixels prio 0 0 (Int32.ofNat widthNet) (Int32.ofNat heightNet)) hrep
    ⟨by decide, by decide⟩
  have hall : (L.erase prio fun _ => True) =
      L.erase prio (inRect 0 0 (Int32.ofNat widthNet) (Int32.ofNat heightNet)) := by
    funext p c
    simp only [Layers.erase, inRect_display]
  refine ⟨state', hexec, ?_⟩
  rw [hall]
  exact hrep'

/-- **Messages as drawings.**  Wherever the bytes of a drawing stand, the handler succeeds and the
bitmap represents what has been drawn. -/
theorem handleOscMessage_draws (d : Drawing) (fn : Fnmatch) (h : mem.At a d.message.encode)
    {state : State} {L : RefLayers} (hrep : Represents state L) :
    ∃ state', handleOscMessage Call.exec fn
        (OscReader.initializeAt mem a d.message.encode.length) d.message.encode.length state =
          .ok state' ∧
      Represents state' (d.draw fn L) := by
  rw [handleOscMessage_eq rfl (OscReader.rest_initializeAt h)]
  have hdata : mem.At (a + (OscMessage.header d.message.path
      (d.message.args.map OscArgument.oscType)).length) d.data := h.right
  unfold Drawing.draw dispatchOps
  cases matchingPrios fn d.segment with
  | nil => exact ⟨state, rfl, hrep⟩
  | cons prio prios =>
      obtain ⟨state₁, hdraw, hrep₁⟩ := drawOps_represents hdata prio d.tame hrep
      obtain ⟨state₂, hclear, hrep₂⟩ := clears_represents prios hrep₁
      refine ⟨state₂, ?_, hrep₂⟩
      dsimp only [OscReader.initializeAt]
      rw [hdraw]
      exact hclear

end Draws

end MonoBus
