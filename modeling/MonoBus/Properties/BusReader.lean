import MonoBus.Framework.FrameParser
import MonoBus.Properties.Framing

/-!
# Reading the bus

The repository holds the sender of the bus only.  `readBus` is what a receiver makes of the bytes:
it cuts the stream at the framing bytes, takes the escapes out of each body, and checks bit 7 of
the header byte and the check byte at the end.  It is not translated from the source; its purpose
is to say what a stream of frames stands for.
-/

namespace MonoBus

/-- A body whose check byte is right: the header byte and the payload. -/
def readBusBody (body : List UInt8) : Option (UInt8 × List UInt8) :=
  match busCode.destuff body with
  | some (header :: rest) =>
      match rest.getLast? with
      | some check =>
          if header.toNat.testBit 7 = true ∧ check = busCheck header rest.dropLast then
            some (header, rest.dropLast)
          else none
      | none => none
  | _ => none

/-- The messages of a stream, if it is one of complete frames. -/
def readBus (bytes : List UInt8) : Option (List (UInt8 × List UInt8)) :=
  (splitFrames framing none bytes).bind fun bodies => bodies.mapM readBusBody

/-- A header byte and a payload as a request. -/
def BusMessage.ofHeader (header : UInt8) (payload : List UInt8)
    (h : header.toNat.testBit 7 = true) : BusMessage where
  command := header
  id := 0
  payload := payload
  command_bit7 := h
  id_lt := by decide

namespace BusMessage

/-- What a receiver gets to know of a request. -/
def content (m : BusMessage) : UInt8 × List UInt8 := (m.header, m.payload)

@[simp] lemma content_ofHeader {header : UInt8} {payload : List UInt8}
    (h : header.toNat.testBit 7 = true) : (ofHeader header payload h).content = (header, payload) :=
  congrArg (·, payload) UInt8.or_zero

lemma readBusBody_busBody (m : BusMessage) :
    readBusBody (busBody m.header m.payload) = some m.content := by
  rw [m.busBody_eq_stuff, readBusBody, EscapeCode.destuff_stuff]
  simp [m.header_bit7, content]

lemma exists_of_readBusBody {body : List UInt8} {x : UInt8 × List UInt8}
    (h : readBusBody body = some x) :
    ∃ m : BusMessage, m.content = x ∧ body = busBody m.header m.payload := by
  unfold readBusBody at h
  split at h
  next header rest hdestuff =>
    split at h
    next check hlast =>
      split_ifs at h with hcheck
      obtain rfl := Option.some.inj h
      obtain ⟨hbit, hcheck⟩ := hcheck
      obtain ⟨payload, rfl⟩ := List.getLast?_eq_some_iff.mp hlast
      rw [List.dropLast_concat] at hcheck ⊢
      refine ⟨ofHeader header payload hbit, content_ofHeader hbit, ?_⟩
      have hcontent : (ofHeader header payload hbit).content = (header, payload) :=
        content_ofHeader hbit
      rw [(ofHeader header payload hbit).busBody_eq_stuff,
        busCode.destuff_eq_some_iff.mp hdestuff, show (ofHeader header payload hbit).header = header
          from congrArg Prod.fst hcontent, hcheck]
      rfl
    next => cases h
  next => cases h

lemma exists_of_mapM {bodies : List (List UInt8)} {xs : List (UInt8 × List UInt8)}
    (h : bodies.mapM readBusBody = some xs) :
    ∃ ms : List BusMessage, ms.map content = xs ∧
      bodies = ms.map fun m => busBody m.header m.payload := by
  induction bodies generalizing xs with
  | nil =>
      obtain rfl := Option.some.inj h
      exact ⟨[], rfl, rfl⟩
  | cons body bodies ih =>
      rw [List.mapM_cons] at h
      obtain ⟨x, hx, h⟩ := Option.bind_eq_some_iff.mp h
      obtain ⟨xs', hxs', h⟩ := Option.bind_eq_some_iff.mp h
      obtain rfl := Option.some.inj h
      obtain ⟨m, rfl, rfl⟩ := exists_of_readBusBody hx
      obtain ⟨ms, rfl, rfl⟩ := ih hxs'
      exact ⟨m :: ms, rfl, rfl⟩

lemma mapM_busBody (ms : List BusMessage) :
    (ms.map fun m => busBody m.header m.payload).mapM readBusBody = some (ms.map content) := by
  induction ms with
  | nil => rfl
  | cons m ms ih => rw [List.map_cons, List.mapM_cons, readBusBody_busBody, ih]; rfl

lemma readBus_delimit (ms : List BusMessage) :
    readBus (ms.flatMap fun m => delimit framing (busBody m.header m.payload)) =
      some (ms.map content) := by
  have hsplit : splitFrames framing none
      (ms.flatMap fun m => delimit framing (busBody m.header m.payload)) =
        some (ms.map fun m => busBody m.header m.payload) := by
    refine splitFrames_eq_some_iff.mpr ⟨?_, ?_⟩
    · intro body hbody
      obtain ⟨m, -, rfl⟩ := List.mem_map.mp hbody
      exact m.framing_notMem_busBody
    · rw [List.flatMap_map]
  rw [readBus, hsplit, Option.bind_some, mapM_busBody]

end BusMessage

/-- **The receiver of the bus.**  It reads a stream if and only if the stream consists of the frames
of requests, whatever the buffers held in which they were made, and then it finds their header
bytes and payloads. -/
theorem readBus_eq_some_iff (dst : ℕ → UInt8) (dstLen : ℕ) (bytes : List UInt8)
    (xs : List (UInt8 × List UInt8)) :
    readBus bytes = some xs ↔
      ∃ ms : List BusMessage, ms.map BusMessage.content = xs ∧
        bytes = ms.flatMap (BusMessage.frame dst dstLen) := by
  have hframe : BusMessage.frame dst dstLen =
      fun m => delimit framing (busBody m.header m.payload) :=
    funext fun m => m.frame_eq dst dstLen
  rw [hframe]
  constructor
  · intro h
    obtain ⟨bodies, hsplit, hmap⟩ := Option.bind_eq_some_iff.mp h
    obtain ⟨ms, hms, rfl⟩ := BusMessage.exists_of_mapM hmap
    obtain ⟨-, rfl⟩ := splitFrames_eq_some_iff.mp hsplit
    exact ⟨ms, hms, by rw [List.flatMap_map]⟩
  · rintro ⟨ms, rfl, rfl⟩
    exact BusMessage.readBus_delimit ms

end MonoBus
