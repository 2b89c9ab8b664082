import MonoBus.Construction.Client
import MonoBus.Construction.Daemon

/-!
# The daemon does what the client asks for

The bytes the client sends are those of a message to the layer of its priority.  The daemon
makes one call for it: the bitmap the client has read is set at its place, or the whole layer is
cleared.
-/

namespace MonoBus

/-- Handling the packet at once performs the call, and nothing else. -/
def Packet.Performs {bytes : List UInt8} (pkt : Packet bytes) (call : Call) : Prop :=
  ∀ (σ : Type) (draw : σ → Call → Run σ) (libc : Libc) (fuel : ℕ) (app : App σ),
    pkt.handle draw libc (fuel + 1) app oscImmediate = (do
      let state ← draw app.state call
      .ok { app with state := state })

section Performs

variable {segment : PathSegment} {args : List OscArgument}

/-- A message is dispatched when it is immediate. -/
lemma Packet.handle_messageTo {σ : Type} (draw : σ → Call → Run σ) (libc : Libc) (fuel : ℕ)
    (app : App σ) (pkt : Packet (messageTo segment args).encode) :
    pkt.handle draw libc (fuel + 1) app oscImmediate = (do
      let state ← pkt.handleMessage draw libc.fnmatch app.state
      .ok { app with state := state }) := by
  have hat : pkt.mem.At pkt.mem.base ('/'.toUInt8 :: (messageTo segment args).encode.tail) :=
    pkt.rest_reader.at_
  rw [Packet.handle, handleOscPacket_message _ _ _ _ hat, if_pos rfl]
  rfl

/-- A message to one priority that stands for one operation performs it. -/
lemma Packet.performs_of_messageOps {prio : Prio} {op : LayerOp} (hops : messageOps args = [op])
    (pkt : Packet (messageTo (.ofPrio prio) args).encode) :
    pkt.Performs (op.call prio pkt.mem pkt.argAddr) := by
  intro σ draw libc fuel app
  rw [pkt.handle_messageTo, handleMessage_ofPrio, hops]
  simp [drawOps]

end Performs

/-- **Client and daemon agree.**  With option `-C` the daemon clears the whole layer of the
priority; otherwise it sets the bitmap of the client, which stands in the packet, with the
offsets, the width and the height of the client. -/
theorem client_daemon_agree (c : Client) (chunk : WriteChunk) {sent : List UInt8}
    (pkt : Packet sent) :
    (c.clr = true → ∀ (width height : Int32) (bitmap : Ptr),
      c.send width height bitmap chunk = .ok (some sent) →
      pkt.Performs (.clrPixels c.prio 0 0 (Int32.ofNat widthNet) (Int32.ofNat heightNet))) ∧
    (c.clr = false → ∀ (width height : Int32) (bitmap : Memory),
      0 ≤ width.toInt → 0 ≤ height.toInt →
      (monobusStrideForWidth width.toUInt32).toNat * height.toInt.toNat =
        bitmap.bytes.length → bitmap.bytes.length < 2 ^ 31 →
      c.send width height ⟨bitmap, bitmap.base⟩ chunk = .ok (some sent) →
      ∃ blob : Ptr, blob.slice bitmap.bytes.length = .ok bitmap.bytes ∧
        pkt.Performs (.setPixels c.prio c.xoff c.yoff width height blob)) := by
  constructor
  · intro hclr width height bitmap hsend
    obtain rfl := Client.sent_of_clr hclr hsend
    have hops : messageOps [] = [.clr 0 0 (Int32.ofNat widthNet) (Int32.ofNat heightNet)] := rfl
    exact pkt.performs_of_messageOps hops
  · intro hclr width height bitmap _ hheight hsize hlt hsend
    obtain ⟨blob, hblob, rfl⟩ := Client.sent_of_set hclr hheight hsize hlt hsend
    -- the bitmap has exactly the size that is asked for
    have hcheck : SizeCheck width height blob :=
      (sizeCheck_iff_le hheight (by omega)).mpr (by rw [hblob, hsize])
    have hops : messageOps (setArgs c.xoff c.yoff width height blob) =
        [.set c.xoff c.yoff width height 20] := by rw [messageOps_setArgs, if_pos hcheck]
    refine ⟨⟨pkt.mem, pkt.argAddr + 20⟩, ?_, pkt.performs_of_messageOps hops⟩
    rw [← hblob]
    exact pkt.at_blob.slice

def smallChunk : WriteChunk where
  mem := .placed (List.replicate 64 0) (by decide)
  buf := 4096
  size := 64
  holds := by decide

def eightPixels : Memory where
  base := 8192
  bytes := [0x81]
  base_pos := by decide
  fits := by decide

/-- Eight pixels for priority 3, and the clear of priority 31. -/
theorem client_daemon_agree_eight :
    (∃ (sent : List UInt8) (pkt : Packet sent) (blob : Ptr), blob.slice 1 = .ok [0x81] ∧
      pkt.Performs (.setPixels 3 1 2 8 1 blob)) ∧
    ∃ (sent : List UInt8) (pkt : Packet sent), pkt.Performs (.clrPixels 31 0 0 112 16) := by
  have hset : Client.send ⟨1, 2, 3, false⟩ 8 1 ⟨eightPixels, 8192⟩ smallChunk =
      .ok (some (messageTo (.ofPrio 3) (setArgs 1 2 8 1 (.ofByte 0x81))).encode) := by rfl
  have hclr : Client.send ⟨0, 0, 31, true⟩ 0 0 ⟨eightPixels, 8192⟩ smallChunk =
      .ok (some (messageTo (.ofPrio 31) []).encode) := by rfl
  constructor
  · obtain ⟨-, hagree⟩ := client_daemon_agree ⟨1, 2, 3, false⟩ smallChunk
      (Packet.placed
        (messageTo (.ofPrio 3) (setArgs 1 2 8 1 (.ofByte 0x81))).encode (by decide))
    exact ⟨_, _, hagree rfl 8 1 eightPixels (by decide) (by decide) (by decide) (by decide) hset⟩
  · obtain ⟨hagree, -⟩ := client_daemon_agree ⟨0, 0, 31, true⟩ smallChunk
      (Packet.placed (messageTo (.ofPrio 31) []).encode (by decide))
    exact ⟨_, _, hagree rfl 0 0 _ hclr⟩

end MonoBus
