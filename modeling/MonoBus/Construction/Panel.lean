import MonoBus.Construction.BusMessage
import MonoBus.Construction.Display
import MonoBus.Framework.Scatter

/-!
# The frame of a beat (`_beat`, `payload_led_outdat_t`)

The panel is driven column by column: `_beat` turns the display by a quarter and packs sixteen
pixels of a column into two bytes, the first byte last and the first bit lowest.  The loops add
bits to bytes that are zeroed first; `serialize_eq` says that they stay inside both arrays and
which bits they set.
-/

namespace MonoBus

/-- `STRIDE_SER`. -/
abbrev strideSer : ℕ := widthSer / 8

/-- `LENGTH_SER`. -/
abbrev lengthSer : ℕ := strideSer * heightSer

/-- `payload_led_outdat_t`. -/
structure LedOutdat where
  unknown00 : UInt8
  len : UInt8
  bitmap : Fin lengthSer → UInt8

/-- `led_outdat`, which keeps the bitmap of the previous beat. -/
def ledOutdat (bitmap : Fin lengthSer → UInt8) : LedOutdat where
  unknown00 := 0xff
  len := UInt8.ofNat lengthSer
  bitmap := bitmap

namespace LedOutdat

/-- The packed structure as bytes. -/
def toBytes (p : LedOutdat) : List UInt8 := p.unknown00 :: p.len :: List.ofFn p.bitmap

/-- `p->bitmap[i] |= mask`. -/
def orBitmap (p : LedOutdat) (i : ℕ) (mask : UInt8) : Run LedOutdat :=
  if h : i < lengthSer then
    .ok { p with bitmap := Function.update p.bitmap ⟨i, h⟩ (p.bitmap ⟨i, h⟩ ||| mask) }
  else .error .outOfRange

end LedOutdat

/-- `_get_bit(state, y, x)`, with the indices of the array checked. -/
def getDisplayBit (state : State) (y x : ℕ) : Run Bool :=
  if h : y < heightNet ∧ x < widthNet then .ok (displayBit state (⟨y, h.1⟩, ⟨x, h.2⟩))
  else .error .outOfRange

/-- The serialisation loops of `_beat`. -/
def serialize (state : State) (p : LedOutdat) : Run LedOutdat :=
  let p := { p with bitmap := fun _ => 0 }
  (List.range heightSer).foldlM (fun p y =>
    (List.range widthSer).foldlM (fun p x => do
      if ← getDisplayBit state x y then
        let rowOffset := y * strideSer
        let colOffset := strideSer - x / 8 - 1
        let mask : UInt8 := 1 <<< UInt8.ofNat (x % 8)
        p.orBitmap (rowOffset + colOffset) mask
      else return p) p) p

/-- The message with the bitmap, for the display `state` and the bitmap of the previous beat. -/
def outdatFrame (dst : ℕ → UInt8) (state : State) (previous : Fin lengthSer → UInt8) :
    Run (List UInt8) := do
  let p ← serialize state (ledOutdat previous)
  return monobusFrame dst 512 CommandType.ledOutdat.toByte 0x2 p.toBytes

/-! ## Where a pixel goes -/

/-- The byte of the bitmap that holds the pixel in row `c.1` and column `c.2`. -/
def serByte (c : Coord) : Fin lengthSer :=
  ⟨c.2 * strideSer + strideSer - 1 - c.1 / 8, by
    have hcol : (c.2 : ℕ) < 112 := c.2.isLt
    show (c.2 : ℕ) * 2 + 2 - 1 - c.1 / 8 < 224
    omega⟩

/-- The bit of that byte. -/
def serBit (c : Coord) : ℕ := c.1 % 8

lemma val_serByte (c : Coord) : (serByte c : ℕ) = c.2 * 2 + 1 - c.1 / 8 := rfl

lemma serBit_lt (c : Coord) : serBit c < 8 := Nat.mod_lt _ (by norm_num)

/-- Two pixels share no bit. -/
lemma serByte_serBit_inj {c d : Coord} (hbyte : serByte c = serByte d)
    (hbit : serBit c = serBit d) : c = d := by
  have hval := congrArg Fin.val hbyte
  have hc : (c.1 : ℕ) < 16 := c.1.isLt
  have hd : (d.1 : ℕ) < 16 := d.1.isLt
  rw [val_serByte, val_serByte] at hval
  unfold serBit at hbit
  apply Prod.ext
  · apply Fin.ext
    omega
  · apply Fin.ext
    omega

lemma exists_serByte_serBit (i : Fin lengthSer) {b : ℕ} (hb : b < 8) :
    ∃ c, serByte c = i ∧ serBit c = b := by
  have hi : (i : ℕ) < 224 := i.isLt
  have hrow : (1 - i % 2) * 8 + b < heightNet := by
    show (1 - i % 2) * 8 + b < 16
    omega
  have hcol : (i : ℕ) / 2 < widthNet := by
    show (i : ℕ) / 2 < 112
    omega
  refine ⟨(⟨(1 - i % 2) * 8 + b, hrow⟩, ⟨i / 2, hcol⟩), Fin.ext ?_, ?_⟩
  · rw [val_serByte]
    dsimp only
    omega
  · show ((1 - i % 2) * 8 + b) % 8 = b
    omega

/-! ## The loops -/

/-- The pixels in the order of the loops. -/
def serOrder : List (ℕ × ℕ) := List.range heightSer ×ˢ List.range widthSer

/-- The pixel the loops stand at. -/
def serCoord (k : ℕ × ℕ) : Coord := (Fin.ofNat heightNet k.2, Fin.ofNat widthNet k.1)

lemma mem_serOrder {k : ℕ × ℕ} : k ∈ serOrder ↔ k.1 < heightSer ∧ k.2 < widthSer := by
  rw [serOrder, List.mem_product, List.mem_range, List.mem_range]

lemma exists_serCoord (c : Coord) : ∃ k ∈ serOrder, serCoord k = c := by
  refine ⟨(c.2, c.1), mem_serOrder.mpr ⟨c.2.isLt, c.1.isLt⟩, ?_⟩
  refine Prod.ext (Fin.ext ?_) (Fin.ext ?_)
  · exact Nat.mod_eq_of_lt c.1.isLt
  · exact Nat.mod_eq_of_lt c.2.isLt

/-- Set the bit of a pixel. -/
def LedOutdat.light (p : LedOutdat) (c : Coord) : LedOutdat where
  unknown00 := p.unknown00
  len := p.len
  bitmap := Function.update p.bitmap (serByte c)
    (p.bitmap (serByte c) ||| 1 <<< UInt8.ofNat (serBit c))

/-- The bitmap after the loops have gone over the pixels `ks`. -/
def lightAll (state : State) (ks : List (ℕ × ℕ)) (bitmap : Fin lengthSer → UInt8) :
    Fin lengthSer → UInt8 :=
  scatter (fun k => serByte (serCoord k)) (fun k => serBit (serCoord k))
    (fun k => displayBit state (serCoord k)) ks bitmap

/-- The bitmap the loops leave. -/
def serBitmap (state : State) : Fin lengthSer → UInt8 := lightAll state serOrder fun _ => 0

lemma serialize_step (state : State) (p : LedOutdat) {k : ℕ × ℕ} (hk : k ∈ serOrder) :
    (do
      if ← getDisplayBit state k.2 k.1 then
        p.orBitmap (k.1 * strideSer + (strideSer - k.2 / 8 - 1)) (1 <<< UInt8.ofNat (k.2 % 8))
      else return p) =
      (.ok (if displayBit state (serCoord k) then p.light (serCoord k) else p) :
        Run LedOutdat) := by
  obtain ⟨hcol, hrow⟩ := mem_serOrder.mp hk
  have hcoord : serCoord k = (⟨k.2, hrow⟩, ⟨k.1, hcol⟩) := by
    apply Prod.ext
    · exact Fin.ext (Nat.mod_eq_of_lt hrow)
    · exact Fin.ext (Nat.mod_eq_of_lt hcol)
  have hget : getDisplayBit state k.2 k.1 = .ok (displayBit state (serCoord k)) := by
    rw [getDisplayBit, dif_pos ⟨hrow, hcol⟩, hcoord]
  have hbyte : k.1 * strideSer + (strideSer - k.2 / 8 - 1) = serByte (serCoord k) := by
    rw [hcoord, val_serByte]
    show k.1 * 2 + (2 - k.2 / 8 - 1) = k.1 * 2 + 1 - k.2 / 8
    have hrow' : k.2 < 16 := hrow
    omega
  have hbit : k.2 % 8 = serBit (serCoord k) := by
    rw [hcoord]
    rfl
  rw [hget, Run.ok_bind, hbyte, hbit]
  split_ifs
  · rw [LedOutdat.orBitmap, dif_pos (serByte (serCoord k)).isLt]
    rfl
  · rfl

/-- The loops stay inside the arrays, and nothing of the previous bitmap is left. -/
theorem serialize_eq (state : State) (p : LedOutdat) :
    serialize state p = .ok { p with bitmap := serBitmap state } := by
  rw [serialize, foldlM_product]
  refine (Run.foldlM_ok (fun q k hk => serialize_step state q hk) _).trans (congrArg _ ?_)
  -- only the bitmap changes in the loops
  have hbitmap : ∀ (ks : List (ℕ × ℕ)) (q : LedOutdat),
      ks.foldl (fun q k =>
        if displayBit state (serCoord k) then q.light (serCoord k) else q) q =
      { q with bitmap := lightAll state ks q.bitmap } := by
    intro ks
    induction ks with
    | nil => intro q; rfl
    | cons k ks ih =>
        intro q
        rw [List.foldl_cons, ih, lightAll, lightAll, scatter, scatter, List.foldl_cons]
        split_ifs <;> rfl
  exact hbitmap serOrder _

/-- A bit of the bitmap is that of its pixel. -/
theorem byteBit_serBitmap (state : State) (c : Coord) :
    byteBit (serBitmap state (serByte c)) (serBit c) = displayBit state c := by
  apply Bool.eq_iff_iff.mpr
  rw [serBitmap, lightAll, testBit_scatter _ (fun k _ => serBit_lt _)]
  constructor
  · rintro (hzero | ⟨k, -, htest, hbyte, hbit⟩)
    · simp at hzero
    · rwa [serByte_serBit_inj hbyte hbit] at htest
  · intro h
    obtain ⟨k, hk, rfl⟩ := exists_serCoord c
    exact .inr ⟨k, hk, h, rfl, rfl⟩

/-- Two bitmaps are equal exactly if the displays are. -/
theorem serBitmap_inj {state state' : State} :
    serBitmap state = serBitmap state' ↔ ∀ c, displayBit state c = displayBit state' c := by
  constructor
  · intro h c
    rw [← byteBit_serBitmap, h, byteBit_serBitmap]
  · intro h
    funext i
    apply eq_of_byteBit
    intro b hb
    obtain ⟨c, rfl, rfl⟩ := exists_serByte_serBit i hb
    rw [byteBit_serBitmap, byteBit_serBitmap, h]

end MonoBus
