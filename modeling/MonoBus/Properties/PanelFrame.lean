import MonoBus.Construction.Panel
import MonoBus.Properties.Framing

/-!
# The panel shows the display

Bit `x mod 8` of byte `y * STRIDE_SER + STRIDE_SER - 1 - x / 8` of the bitmap is the pixel in
row `x` and column `y` of the display, and every bit is that of one pixel.  So the message with
the bitmap tells two pictures apart, and does not depend on anything else.
-/

namespace MonoBus

lemma toBytes_ledOutdat_inj {bitmap bitmap' : Fin lengthSer → UInt8}
    (h : (ledOutdat bitmap).toBytes = (ledOutdat bitmap').toBytes) : bitmap = bitmap' := by
  unfold LedOutdat.toBytes at h
  obtain ⟨-, h⟩ := List.cons.inj h
  obtain ⟨-, h⟩ := List.cons.inj h
  exact List.ofFn_injective h

def outdatMessage (state : State) : BusMessage :=
  .ofCommandType .ledOutdat 0x2 (by decide) (ledOutdat (serBitmap state)).toBytes

lemma outdatFrame_eq (dst : ℕ → UInt8) (state : State) (previous : Fin lengthSer → UInt8) :
    outdatFrame dst state previous = .ok ((outdatMessage state).frame dst 512) := by
  rw [outdatFrame, serialize_eq]
  rfl

/-- The frame determines the bitmap, whatever the buffers held before. -/
lemma outdatMessage_frame_inj {dst dst' : ℕ → UInt8} {state state' : State} :
    (outdatMessage state).frame dst 512 = (outdatMessage state').frame dst' 512 ↔
      serBitmap state = serBitmap state' := by
  rw [BusMessage.frame_eq, BusMessage.frame_eq]
  constructor
  · intro h
    have hnil := congrArg (fun frame => frame ++ ([] : List UInt8)) h
    obtain ⟨hbody, -⟩ := delimit_append_inj (outdatMessage state).framing_notMem_busBody
      (outdatMessage state').framing_notMem_busBody hnil
    exact toBytes_ledOutdat_inj (BusMessage.busBody_inj hbody).2
  · intro h
    have hmessage : outdatMessage state = outdatMessage state' := by
      rw [outdatMessage, h, outdatMessage]
    rw [hmessage]

/-- **The panel shows the display.**  The serialisation loops of a beat read and write inside
their arrays.  Afterwards each bit of the bitmap is the pixel it stands for and stands for one
pixel, whatever the previous beat left, and the messages of two beats are the same exactly if
their displays are. -/
theorem panel_shows_display (state : State) (previous : Fin lengthSer → UInt8) :
    (∃ p, serialize state (ledOutdat previous) = .ok p ∧
      ∀ (x : Fin widthSer) (y : Fin heightSer), ∃ i : Fin lengthSer,
        (i : ℕ) = y * strideSer + strideSer - 1 - x / 8 ∧
          getDisplayBit state x y = .ok (byteBit (p.bitmap i) (x % 8))) ∧
    (∀ (i : Fin lengthSer) (b : Fin 8), ∃! pixel : Fin widthSer × Fin heightSer,
      pixel.2 * strideSer + strideSer - 1 - pixel.1 / 8 = (i : ℕ) ∧ pixel.1 % 8 = (b : ℕ)) ∧
    ∀ (dst dst' : ℕ → UInt8) (state' : State) (previous' : Fin lengthSer → UInt8),
      ∃ frame frame', outdatFrame dst state previous = .ok frame ∧
        outdatFrame dst' state' previous' = .ok frame' ∧
        (frame = frame' ↔ ∀ c, displayBit state c = displayBit state' c) := by
  refine ⟨⟨_, serialize_eq state _, fun x y => ?_⟩, fun i b => ?_, fun dst dst' state' prev' => ?_⟩
  · have hbit : getDisplayBit state x y = .ok (displayBit state (x, y)) :=
      dif_pos ⟨x.isLt, y.isLt⟩
    have hbyte : (serByte (x, y) : ℕ) = y * strideSer + strideSer - 1 - x / 8 := by
      rw [serByte]
    refine ⟨serByte (x, y), hbyte, ?_⟩
    dsimp only
    rw [hbit, ← byteBit_serBitmap, serBit]
  · obtain ⟨c, hbyte, hbit⟩ := exists_serByte_serBit i b.isLt
    refine ⟨c, ⟨congrArg Fin.val hbyte, hbit⟩, ?_⟩
    rintro d ⟨hbyte', hbit'⟩
    apply serByte_serBit_inj
    · rw [hbyte]
      exact Fin.ext hbyte'
    · exact hbit'.trans hbit.symm
  · refine ⟨_, _, outdatFrame_eq dst state previous, outdatFrame_eq dst' state' prev', ?_⟩
    rw [outdatMessage_frame_inj, serBitmap_inj]

end MonoBus
