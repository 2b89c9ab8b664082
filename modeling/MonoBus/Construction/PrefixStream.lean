import MonoBus.Construction.SlipStream
import MonoBus.Construction.UdpReceiver
import MonoBus.Framework.Memory

/-!
# Frames with their size in front (`stream.h`)

Without SLIP a frame is the size of the message, as an `uint32_t`, and the message.  The receiver
reads the two with a `recv` each, on the assumption that both are there as a whole: it notices
neither if the first `recv` returns less than a size nor if the second returns less than the
message.
-/

namespace MonoBus

/-- A frame: the size from `htonl`, and the message. -/
def prefixFrame (m : List UInt8) : List UInt8 := be32 (UInt32.ofNat m.length) ++ m

/-- The frames of a list of messages. -/
def prefixFrames (messages : List (List UInt8)) : List UInt8 := messages.flatMap prefixFrame

/-- The send loop, where `send` takes every frame as a whole. -/
def prefixSend : List (List UInt8) → List UInt8
  | [] => []
  | buf :: messages =>
      let nsize := buf.length + 4
      if nsize ≤ rxBufSize then prefixFrame buf ++ prefixSend messages
      else prefixSend messages

/-- A chunk that `write_req` hands out: the bytes it held before, and how many can be written
into it.  Any chunk has room for the number that is asked for, and it may have more: all of the ring
that is free. -/
structure PrefixChunk where
  held : List UInt8
  room : ℕ
  room_ge : streamReqbuf ≤ room

/-- The receive loop: `bufs` are the chunks that `write_req` hands out, and `avail` is what the
socket holds.  It gives the messages that are written and what is left in the socket.  The second
`recv` asks for as many bytes as the frame says, whatever the chunk has room for.  If it finds
nothing, even if no byte is asked for, `-1` is passed to `write_adv`, and the assertion fails. -/
def prefixReceive : List PrefixChunk → List UInt8 → Run (List (List UInt8) × List UInt8)
  | [], avail => .ok ([], avail)
  | buf :: bufs, avail =>
      if avail.length = 0 then .ok ([], [])
      else if 4 ≤ avail.length then
        let size := beNat (avail.take 4)
        let avail := avail.drop 4
        if avail.length = 0 then .error .outOfRange
        else
          let recvd := min size avail.length
          if buf.room < recvd then .error .outOfRange
          else do
            let (written, left) ← prefixReceive bufs (avail.drop recvd)
            return (avail.take recvd :: written, left)
      else do
        let (written, left) ← prefixReceive bufs []
        return (buf.held.take avail.length :: written, left)

/-- Calls of it: in front of each some bytes arrive. -/
def prefixReceives : List UInt8 → List (List UInt8 × List PrefixChunk) →
    Run (List (List UInt8) × List UInt8)
  | avail, [] => .ok ([], avail)
  | avail, (segment, bufs) :: calls => do
      let (written, left) ← prefixReceive bufs (avail ++ segment)
      let (more, left) ← prefixReceives left calls
      return (written ++ more, left)

/-- Each message has room in its chunk. -/
def FitsChunks (messages : List (List UInt8)) (bufs : List PrefixChunk) : Prop :=
  ∀ x ∈ messages.zip bufs, x.1.length ≤ x.2.room

/-! ## Frames -/

@[simp] lemma prefixFrames_nil : prefixFrames [] = [] := rfl

@[simp] lemma prefixFrames_cons (m : List UInt8) (messages : List (List UInt8)) :
    prefixFrames (m :: messages) = prefixFrame m ++ prefixFrames messages := rfl

@[simp] lemma prefixFrames_append (xs ys : List (List UInt8)) :
    prefixFrames (xs ++ ys) = prefixFrames xs ++ prefixFrames ys := List.flatMap_append

@[simp] lemma length_prefixFrame (m : List UInt8) : (prefixFrame m).length = m.length + 4 := by
  rw [prefixFrame, List.length_append, length_be32, add_comm]

/-- Messages from a ring are sent as their frames. -/
lemma prefixSend_eq {messages : List (List UInt8)}
    (h : ∀ m ∈ messages, m.length + 4 ≤ rxBufSize) :
    prefixSend messages = prefixFrames messages := by
  induction messages with
  | nil => rfl
  | cons m messages ih =>
      rw [prefixSend, if_pos (h m List.mem_cons_self),
        ih fun x hx => h x (List.mem_cons_of_mem m hx), prefixFrames_cons]

/-! ## The receive loop -/

section Receive

variable {buf : PrefixChunk} {bufs : List PrefixChunk} {avail left : List UInt8}
  {messages written : List (List UInt8)}

lemma fitsChunks_cons {m : List UInt8} :
    FitsChunks (m :: messages) (buf :: bufs) ↔ m.length ≤ buf.room ∧ FitsChunks messages bufs := by
  simp [FitsChunks]

lemma beNat_be32_length {m : List UInt8} (hm : m.length + 4 ≤ rxBufSize) :
    beNat (be32 (UInt32.ofNat m.length)) = m.length := by
  have hlt : m.length < 256 ^ 4 := by
    unfold rxBufSize at hm
    omega
  rw [be32, UInt32.toNat_ofNat_of_lt' (by simpa using hlt), beNat_beBytes hlt]

lemma prefixReceive_frame {m : List UInt8} (hm : m ≠ [] ∧ m.length + 4 ≤ rxBufSize)
    (hroom : m.length ≤ buf.room) (h : prefixReceive bufs avail = .ok (written, left)) :
    prefixReceive (buf :: bufs) (prefixFrame m ++ avail) = .ok (m :: written, left) := by
  have hlist : prefixFrame m ++ avail = be32 (UInt32.ofNat m.length) ++ (m ++ avail) := by
    rw [prefixFrame, List.append_assoc]
  have htake : (be32 (UInt32.ofNat m.length) ++ (m ++ avail)).take 4 =
      be32 (UInt32.ofNat m.length) := List.take_left' (length_be32 _)
  have hdrop : (be32 (UInt32.ofNat m.length) ++ (m ++ avail)).drop 4 = m ++ avail :=
    List.drop_left' (length_be32 _)
  have hpos := List.length_pos_of_ne_nil hm.1
  have hmin : min m.length (m ++ avail).length = m.length := by
    rw [List.length_append]
    omega
  rw [hlist, prefixReceive, if_neg (by simp), if_pos (by simp), htake, hdrop,
    beNat_be32_length hm.2]
  dsimp only
  rw [if_neg (by rw [List.length_append]; omega), hmin, if_neg (by omega), List.drop_left,
    List.take_left, h]
  rfl

/-- Whole frames are received as long as there is room, and the others stay in the socket. -/
lemma prefixReceive_frames (hmessages : ∀ m ∈ messages, m ≠ [] ∧ m.length + 4 ≤ rxBufSize)
    (hfits : FitsChunks messages bufs) :
    prefixReceive bufs (prefixFrames messages) =
      .ok (messages.take bufs.length, prefixFrames (messages.drop bufs.length)) := by
  induction bufs generalizing messages with
  | nil => rfl
  | cons buf bufs ih =>
      cases messages with
      | nil => rfl
      | cons m messages =>
          obtain ⟨hroom, hfits⟩ := fitsChunks_cons.mp hfits
          have hrest := ih (fun x hx => hmessages x (List.mem_cons_of_mem m hx)) hfits
          exact prefixReceive_frame (hmessages m List.mem_cons_self) hroom hrest

/-- The frames of what is written are at least as long as what is taken from the socket.  What is
written has room in its chunks, and with enough chunks nothing is left. -/
lemma prefixReceive_bound (h : prefixReceive bufs avail = .ok (written, left)) :
    avail.length ≤ (prefixFrames written).length + left.length ∧ FitsChunks written bufs ∧
      (avail.length ≤ 4 * bufs.length → left = []) := by
  induction bufs generalizing avail written with
  | nil =>
      obtain ⟨rfl, rfl⟩ := Prod.mk.inj (Except.ok.inj h)
      exact ⟨by simp, by simp [FitsChunks],
        fun hle => List.length_eq_zero_iff.mp (Nat.le_zero.mp hle)⟩
  | cons buf bufs ih =>
      rw [prefixReceive] at h
      split_ifs at h with hempty hprefix
      · obtain ⟨rfl, rfl⟩ := Prod.mk.inj (Except.ok.inj h)
        exact ⟨by simp [hempty], by simp [FitsChunks], fun _ => rfl⟩
      · dsimp only at h
        split_ifs at h with hnothing hover
        obtain ⟨⟨more, left'⟩, hmore, h⟩ := Run.bind_eq_ok.mp h
        simp only [Run.pure_eq, Except.ok.injEq, Prod.mk.injEq] at h
        obtain ⟨rfl, rfl⟩ := h
        obtain ⟨hle, hfits, hleft⟩ := ih hmore
        rw [List.length_drop, List.length_drop] at hle hleft
        refine ⟨?_, fitsChunks_cons.mpr ⟨?_, hfits⟩, fun hroom => hleft ?_⟩
        · rw [prefixFrames_cons, List.length_append, length_prefixFrame, List.length_take,
            List.length_drop]
          omega
        · rw [List.length_take]
          exact (Nat.min_le_left _ _).trans (not_lt.mp hover)
        · rw [List.length_cons] at hroom
          omega
      · obtain ⟨⟨more, left'⟩, hmore, h⟩ := Run.bind_eq_ok.mp h
        simp only [Run.pure_eq, Except.ok.injEq, Prod.mk.injEq] at h
        obtain ⟨rfl, rfl⟩ := h
        obtain ⟨hle, hfits, hleft⟩ := ih hmore
        refine ⟨?_, fitsChunks_cons.mpr ⟨?_, hfits⟩, fun hroom => hleft (Nat.zero_le _)⟩
        · rw [prefixFrames_cons, List.length_append, length_prefixFrame]
          omega
        · have hroom := buf.room_ge
          rw [List.length_take]
          refine (Nat.min_le_left _ _).trans ?_
          unfold streamReqbuf at hroom
          omega

end Receive

end MonoBus
