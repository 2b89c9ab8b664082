import MonoBus.Framework.Packing
import MonoBus.Properties.AgendaRun
import MonoBus.Properties.Capacity
import MonoBus.Properties.ClientDaemon

/-!
# From the client to the panel

Clients are called in any number, and their messages arrive in any rounds.  What a call asks for is
said in terms of the PBM format: its picture on the layer of its priority, or that layer empty.
After each round the panel shows the pictures with the padding of their rows on the left, and so
what the calls ask for, where that makes no difference (`client_panel`).
-/

namespace MonoBus

/-- A call of the client that succeeds, and the packet its message arrives in.  The image has the
size it says, and its place is far from an overflow.  The message fits into the empty ring of the
client together with its header, so that it leaves the client. -/
structure Invocation where
  client : Client
  width : Int32
  height : Int32
  bitmap : Memory
  chunk : WriteChunk
  sent : List UInt8
  pkt : Packet sent
  send_eq : client.send width height ⟨bitmap, bitmap.base⟩ chunk = .ok (some sent)
  leaves : 8 + varchunkPad sent.length ≤ room (2 ^ 13) 0 0 1024
  width_nonneg : client.clr = false → 0 ≤ width.toInt
  height_nonneg : client.clr = false → 0 ≤ height.toInt
  size_eq : client.clr = false →
    (width.toInt.toNat + 7) / 8 * height.toInt.toNat = bitmap.bytes.length
  size_lt : client.clr = false → bitmap.bytes.length < 2 ^ 31
  xoff_ge : client.clr = false → -2 ^ 30 ≤ client.xoff.toInt
  yoff_ge : client.clr = false → -2 ^ 30 ≤ client.yoff.toInt

namespace Invocation

def stride (i : Invocation) : ℕ := (i.width.toInt.toNat + 7) / 8

/-- The number of padding bits in a row. -/
def pad (i : Invocation) : ℕ := 8 * i.stride - i.width.toInt.toNat

/-- The bit of the image for the pixel `c` of the display, if the pixels of a row start behind its
first `first` bits. -/
def bitFrom (i : Invocation) (first : ℕ) (c : Coord) : Bool :=
  packedBit i.bitmap.bytes (8 * (((c.1 : ℕ) - i.client.yoff.toInt).toNat * i.stride) +
    (first + ((c.2 : ℕ) - i.client.xoff.toInt).toNat))

/-- The image on its layer, with rows that start so; or the layer empty. -/
def applyFrom (i : Invocation) (first : ℕ) (L : RefLayers) : RefLayers :=
  if i.client.clr then L.erase i.client.prio fun _ => True
  else L.paint i.client.prio (inRect i.client.xoff i.client.yoff i.width i.height) (i.bitFrom first)

/-- What the call asks for: rows of a PBM image start at their first bit. -/
def apply (L : RefLayers) (i : Invocation) : RefLayers := i.applyFrom 0 L

/-- The padding does not show: there is none, or the bits it exchanges agree. -/
def PaddingInvisible (i : Invocation) : Prop :=
  i.client.clr = true ∨ 8 ∣ i.width.toInt ∨
    ∀ c, inRect i.client.xoff i.client.yoff i.width i.height c → i.bitFrom i.pad c = i.bitFrom 0 c

end Invocation

/-- A call with eight pixels for the last layer. -/
def callEight : Invocation where
  client := ⟨1, 2, Fin.last 31, false⟩
  width := 8
  height := 1
  bitmap := eightPixels
  chunk := smallChunk
  sent := (messageTo (.ofPrio (Fin.last 31)) (setArgs 1 2 8 1 (.ofByte 0x81))).encode
  pkt := .placed _ (by decide)
  send_eq := by rfl
  leaves := by decide
  width_nonneg _ := by decide
  height_nonneg _ := by decide
  size_eq _ := by decide
  size_lt _ := by decide
  xoff_ge _ := by decide
  yoff_ge _ := by decide

/-- Its first pixel is lit. -/
example : (Invocation.apply Layers.empty callEight).picture (2, 1) = true := by decide +kernel

end MonoBus
