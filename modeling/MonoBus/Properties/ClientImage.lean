import MonoBus.Construction.PbmFile

/-!
# The image the client sends

The client reads an image of many rows as one row of `width*height` pixels.  In the raw format
this leaves the rows where they are, but clears every bit behind the first `width*height`,
counting the padding; in the plain format it packs the rows without padding between them.
`client_image_iff` says for which images nothing is lost by it.
-/

namespace MonoBus

structure PbmImage where
  width : Int32
  height : Int32
  pixel : ℕ → ℕ → Bool
  width_pos : 1 ≤ width.toInt
  height_pos : 1 ≤ height.toInt

/-- The bits of a file in the order they stand in it. -/
def PbmFile.bit : PbmFile → ℕ → Bool
  | .raw bytes => packedBit bytes
  | .plain digits => fun p => digits.getD p false

namespace PbmImage

variable (img : PbmImage)

def cols : ℕ := img.width.toInt.toNat

def rows : ℕ := img.height.toInt.toNat

def stride : ℕ := (img.cols + 7) / 8

/-- Where pixel `(x, y)` stands among the bits of packed rows. -/
def position (x y : ℕ) : ℕ := 8 * (y * img.stride) + x

/-- The image stands at the start of a file: in packed rows with any padding, or as digits. -/
def StoredIn : PbmFile → Prop
  | .raw bytes => img.stride * img.rows ≤ bytes.length ∧
      ∀ x < img.cols, ∀ y < img.rows, packedBit bytes (img.position x y) = img.pixel x y
  | .plain digits => img.cols * img.rows ≤ digits.length ∧
      ∀ x < img.cols, ∀ y < img.rows, digits.getD (y * img.cols + x) false = img.pixel x y

/-- The PBM payload: pixel `(x, y)` is bit `7 - x % 8` of byte `y * stride + x / 8`. -/
def Payload (bitmap : List UInt8) : Prop :=
  bitmap.length = img.stride * img.rows ∧
    ∀ x < img.cols, ∀ y < img.rows,
      byteBit (bitmap.getD (y * img.stride + x / 8) 0) (7 - x % 8) = img.pixel x y

/-- The client reads the payload of the image from the file, and the message it sends has it for a
blob.  It is sent if it is shorter than the chunk, and is refused otherwise. -/
def SentFrom (netpbm : Netpbm) (fin : PbmFile) : Prop :=
  ∃ bitmap, Client.readBitmap netpbm img.width img.height fin = some bitmap ∧
    img.Payload bitmap ∧
    ∀ (c : Client) (chunk : WriteChunk) (mem : Memory), c.clr = false → mem.bytes = bitmap →
      ∃ blob : OscBlob, blob.data = bitmap ∧
        let message :=
          (messageTo (.ofPrio c.prio) (setArgs c.xoff c.yoff img.width img.height blob)).encode
        c.send img.width img.height ⟨mem, mem.base⟩ chunk =
          .ok (if message.length < chunk.size then some message else none)

/-- One row of all pixels looks like the rows of the image.  Of packed rows, no black pixel stands
behind the first `width*height` bits; of digits, each pixel is the one that comes to stand in
its place. -/
def SameAsOneRow : PbmFile → Prop
  | .raw _ => ∀ x < img.cols, ∀ y < img.rows,
      img.cols * img.rows ≤ img.position x y → img.pixel x y = false
  | .plain _ => ∀ x < img.cols, ∀ y < img.rows, img.pixel x y =
      (decide (img.position x y < img.cols * img.rows) &&
        img.pixel (img.position x y % img.cols) (img.position x y / img.cols))

/-! ## What the client reads -/

variable {img}

lemma cols_pos : 0 < img.cols := by
  have h := img.width_pos
  unfold cols
  omega

lemma toInt_mul : img.width.toInt * img.height.toInt = ((img.cols * img.rows : ℕ) : ℤ) := by
  have hw := img.width_pos
  have hh := img.height_pos
  rw [cols, rows, Nat.cast_mul, Int.toNat_of_nonneg (by omega), Int.toNat_of_nonneg (by omega)]

lemma toNat_stride : (monobusStrideForWidth img.width.toUInt32).toNat = img.stride := by
  have hpos := img.width_pos
  have hbounds := int32_toInt_bounds img.width
  have hmod := int32_toNat_toUInt32 img.width
  rw [toNat_monobusStrideForWidth (by omega), stride, cols]
  omega

/-- Rows take at most as many bytes as pixels, and at least as many as one row of them all. -/
lemma stride_mul_bounds : (img.cols * img.rows + 7) / 8 ≤ img.stride * img.rows ∧
    img.stride * img.rows ≤ img.cols * img.rows := by
  have hpos := @cols_pos img
  have hstride : img.cols ≤ 8 * img.stride := by unfold stride; omega
  have hle : img.stride ≤ img.cols := by unfold stride; omega
  have hbits : img.cols * img.rows ≤ 8 * (img.stride * img.rows) := by
    rw [← Nat.mul_assoc]
    exact Nat.mul_le_mul_right _ hstride
  exact ⟨by omega, Nat.mul_le_mul_right _ hle⟩

lemma toNat_len (hlt : img.cols * img.rows < 2 ^ 31) :
    (monobusStrideForWidth img.width.toUInt32 * img.height.toUInt32).toNat =
      img.stride * img.rows := by
  have hbytes := (@stride_mul_bounds img).2
  have hheight : img.height.toUInt32.toNat = img.rows := by
    have hpos := img.height_pos
    have hbounds := int32_toInt_bounds img.height
    have hmod := int32_toNat_toUInt32 img.height
    unfold rows
    omega
  rw [UInt32.toNat_mul, toNat_stride, hheight, Nat.mod_eq_of_lt (by omega)]

lemma readpbmrowPacked_eq (netpbm : Netpbm) {fin : PbmFile} (hfin : img.StoredIn fin)
    {cols : Int32} (hcols : cols.toInt = (img.cols * img.rows : ℕ)) :
    netpbm.readpbmrowPacked fin cols = some (packBits fin.bit (img.cols * img.rows)) := by
  have hnat : cols.toInt.toNat = img.cols * img.rows := by omega
  have hbytes := (@stride_mul_bounds img).1
  cases fin with
  | raw bytes =>
      have hlen : (cols.toInt.toNat + 7) / 8 ≤ bytes.length := by
        rw [hnat]
        exact hbytes.trans hfin.1
      rw [netpbm.raw_eq hlen, hnat]
      rfl
  | plain digits =>
      have hlen : cols.toInt.toNat ≤ digits.length := hnat ▸ hfin.1
      rw [netpbm.plain_eq hlen, hnat]
      rfl

lemma readBitmap_eq (netpbm : Netpbm) {fin : PbmFile} (hfin : img.StoredIn fin)
    (hlt : img.cols * img.rows < 2 ^ 31) :
    ∃ zeros, Client.readBitmap netpbm img.width img.height fin =
        some (packBits fin.bit (img.cols * img.rows) ++ List.replicate zeros 0) ∧
      (packBits fin.bit (img.cols * img.rows) ++ List.replicate zeros 0).length =
        img.stride * img.rows := by
  have hbytes := (@stride_mul_bounds img).1
  have hcols : checked32 (img.width.toInt * img.height.toInt) =
      some (Int32.ofInt (img.cols * img.rows : ℕ)) := by
    rw [toInt_mul, checked32_eq_some, int32_toInt_ofInt, wrap32_of_range (by omega) (by omega)]
  have hrow := readpbmrowPacked_eq netpbm hfin (checked32_eq_some.mp (toInt_mul ▸ hcols))
  refine ⟨img.stride * img.rows - (img.cols * img.rows + 7) / 8, ?_, ?_⟩
  · simp only [Client.readBitmap, hcols, hrow, toNat_len hlt, Option.bind_eq_bind,
      Option.bind_some, length_packBits, List.length_replicate, if_pos hbytes,
      List.drop_replicate]
    rfl
  · rw [List.length_append, length_packBits, List.length_replicate]
    omega

lemma readBitmap_eq_none (netpbm : Netpbm) (fin : PbmFile)
    (hle : 2 ^ 31 ≤ img.cols * img.rows) :
    Client.readBitmap netpbm img.width img.height fin = none := by
  have hcols : checked32 (img.width.toInt * img.height.toInt) = none := by
    rw [toInt_mul, checked32_eq_none]
    omega
  simp only [Client.readBitmap, hcols]
  rfl

/-! ## When it is the payload -/

lemma byteBit_eq_packedBit (bitmap : List UInt8) (x y : ℕ) :
    byteBit (bitmap.getD (y * img.stride + x / 8) 0) (7 - x % 8) =
      packedBit bitmap (img.position x y) := by
  have hbyte : img.position x y / 8 = y * img.stride + x / 8 := by unfold position; omega
  have hbit : img.position x y % 8 = x % 8 := by unfold position; omega
  rw [packedBit, hbyte, hbit]

/-- The bits of one row are those of the image where both agree. -/
lemma oneRow_iff {fin : PbmFile} (hfin : img.StoredIn fin) :
    (∀ x < img.cols, ∀ y < img.rows,
      (decide (img.position x y < img.cols * img.rows) && fin.bit (img.position x y)) =
        img.pixel x y) ↔ img.SameAsOneRow fin := by
  cases fin with
  | raw bytes =>
      refine forall₂_congr fun x hx => forall₂_congr fun y hy => ?_
      have hbit : (PbmFile.raw bytes).bit (img.position x y) = img.pixel x y := hfin.2 x hx y hy
      rw [hbit, Bool.and_eq_right_iff_imp, decide_eq_true_iff]
      constructor
      · intro h hle
        by_contra hpixel
        exact absurd (h (by simpa using hpixel)) (by omega)
      · intro h hpixel
        by_contra hle
        simp [h (by omega)] at hpixel
  | plain digits =>
      refine forall₂_congr fun x hx => forall₂_congr fun y hy => ?_
      rw [eq_comm]
      by_cases hlt : img.position x y < img.cols * img.rows
      · have hdiv := Nat.div_add_mod' (img.position x y) img.cols
        have hbit : (PbmFile.plain digits).bit (img.position x y) =
            img.pixel (img.position x y % img.cols) (img.position x y / img.cols) := by
          have hpixel := hfin.2 _ (Nat.mod_lt (img.position x y) cols_pos) _
            (Nat.div_lt_of_lt_mul hlt)
          rwa [hdiv] at hpixel
        rw [hbit]
      · rw [decide_eq_false hlt, Bool.false_and, Bool.false_and]

/-- Where rows have no padding, and where there is one row, nothing is lost. -/
lemma sameAsOneRow_of_dvd {fin : PbmFile} (h : 8 ∣ img.cols ∨ img.rows = 1) :
    img.SameAsOneRow fin := by
  have hposition {x y : ℕ} (hy : y < img.rows) : img.position x y = y * img.cols + x := by
    unfold position
    obtain ⟨k, hk⟩ | hone := h
    · have hstride : img.stride = k := by unfold stride; omega
      rw [hstride, hk]
      ring
    · obtain rfl : y = 0 := by omega
      simp
  have hlt {x y : ℕ} (hx : x < img.cols) (hy : y < img.rows) :
      y * img.cols + x < img.cols * img.rows := by
    calc y * img.cols + x < y * img.cols + img.cols := by omega
      _ = img.cols * (y + 1) := by ring
      _ ≤ img.cols * img.rows := Nat.mul_le_mul_left _ hy
  cases fin with
  | raw bytes =>
      intro x hx y hy hle
      rw [hposition hy] at hle
      exact absurd (hlt hx hy) (by omega)
  | plain digits =>
      intro x hx y hy
      rw [hposition hy, decide_eq_true (hlt hx hy), Bool.true_and,
        Nat.mul_add_mod', Nat.mod_eq_of_lt hx, Nat.add_comm, Nat.add_mul_div_right _ _ cols_pos,
        Nat.div_eq_of_lt hx, Nat.zero_add]

end PbmImage

open PbmImage in
/-- **The image the client sends.**  It is the PBM payload of the image in the file if and only if
the number of pixels is an `int` and one row of all pixels looks like the rows of the image. -/
theorem client_image_iff (netpbm : Netpbm) (img : PbmImage) (fin : PbmFile)
    (hfin : img.StoredIn fin) :
    img.SentFrom netpbm fin ↔ img.cols * img.rows < 2 ^ 31 ∧ img.SameAsOneRow fin := by
  by_cases hlt : img.cols * img.rows < 2 ^ 31
  · obtain ⟨zeros, hread, hlen⟩ := readBitmap_eq netpbm hfin hlt
    set bitmap := packBits fin.bit (img.cols * img.rows) ++ List.replicate zeros 0 with hbitmap
    have hbit (x y : ℕ) : byteBit (bitmap.getD (y * img.stride + x / 8) 0) (7 - x % 8) =
        (decide (img.position x y < img.cols * img.rows) && fin.bit (img.position x y)) := by
      rw [byteBit_eq_packedBit, hbitmap, packedBit_append_zeros, packedBit_packBits]
    have hpayload : img.Payload bitmap ↔ img.SameAsOneRow fin := by
      rw [Payload, and_iff_right hlen, ← oneRow_iff hfin]
      simp only [hbit]
    constructor
    · rintro ⟨bitmap', hread', hpayload', -⟩
      obtain rfl : bitmap = bitmap' := Option.some.inj (hread.symm.trans hread')
      exact ⟨hlt, hpayload.mp hpayload'⟩
    · rintro ⟨-, hsame⟩
      refine ⟨bitmap, hread, hpayload.mpr hsame, fun c chunk mem hclr hmem => ?_⟩
      have hbytes := (@stride_mul_bounds img).2
      have hheight := img.height_pos
      rw [← hmem] at hlen ⊢
      exact Client.send_of_set hclr (by omega) (by rw [hlen, toNat_stride, rows]) (by omega) chunk
  · refine iff_of_false ?_ fun h => hlt h.1
    rintro ⟨bitmap, hread, -⟩
    rw [readBitmap_eq_none netpbm fin (by omega)] at hread
    cases hread

/-! ## Two black pixels -/

/-- One above the other. -/
def blackRows : PbmImage where
  width := 1
  height := 2
  pixel _ _ := true
  width_pos := int32_one_pos
  height_pos := by decide

/-- Side by side. -/
def blackColumns : PbmImage where
  width := 2
  height := 1
  pixel _ _ := true
  width_pos := by decide
  height_pos := int32_one_pos

/-- Side by side they are sent. -/
theorem client_image_iff_blackColumns : blackColumns.SentFrom .documented (.raw [0xc0]) := by
  have hfin : blackColumns.StoredIn (.raw [0xc0]) := ⟨by decide, by decide⟩
  exact (client_image_iff .documented blackColumns _ hfin).mpr
    ⟨by decide, PbmImage.sameAsOneRow_of_dvd (.inr rfl)⟩

/-- Of two rows the second is lost. -/
theorem client_image_counterexample :
    ¬ ∀ (netpbm : Netpbm) (img : PbmImage) (fin : PbmFile), img.StoredIn fin →
      img.SentFrom netpbm fin := by
  intro h
  have hfin : blackRows.StoredIn (.raw [0x80, 0x80]) := ⟨by decide, by decide⟩
  obtain ⟨bitmap, hread, ⟨-, hpixel⟩, -⟩ := h .documented blackRows _ hfin
  have hbitmap : Client.readBitmap .documented 1 2 (.raw [0x80, 0x80]) = some [0x80, 0] := by
    rfl
  obtain rfl : [0x80, 0] = bitmap := Option.some.inj (hbitmap.symm.trans hread)
  exact absurd (hpixel 0 (by decide) 1 (by decide)) (by decide)

end MonoBus
