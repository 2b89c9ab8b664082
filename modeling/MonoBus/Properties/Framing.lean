import MonoBus.Construction.BusMessage

/-!
# The bus stream is uniquely decodable

A body is flag-free because the header byte of a command has bit 7 set and everything behind
it is stuffed.  Frames can therefore be cut out of a stream, and unstuffing a body gives the
payload followed by the check byte: the check byte is stuffed by the same code, so the
boundary between the two is the end of the unstuffed body, whatever the check byte is.
-/

namespace MonoBus

/-- A request to `monobus_message`: a command with bit 7 set, a device id, a payload. -/
structure BusMessage where
  command : UInt8
  id : UInt8
  payload : List UInt8
  command_bit7 : command.toNat.testBit 7 = true
  id_lt : id < 0x10

namespace BusMessage

/-- The header byte `command | id`. -/
def header (m : BusMessage) : UInt8 := m.command ||| m.id

/-- The frame `monobus_message` returns for the request. -/
def frame (dst : ℕ → UInt8) (dstLen : ℕ) (m : BusMessage) : List UInt8 :=
  monobusFrame dst dstLen m.command m.id m.payload

/-- The request `_beat` makes for a command of its enumeration. -/
def ofCommandType (t : CommandType) (id : UInt8) (hid : id < 0x10) (payload : List UInt8) :
    BusMessage where
  command := t.toByte
  id := id
  payload := payload
  command_bit7 := t.toByte_bit7
  id_lt := hid

lemma header_bit7 (m : BusMessage) : m.header.toNat.testBit 7 = true :=
  bit7_or m.command_bit7 m.id

lemma header_ne_framing (m : BusMessage) : m.header ≠ framing := by
  intro h
  have hbit := m.header_bit7
  rw [h] at hbit
  exact absurd hbit (by decide)

lemma header_ne_escape (m : BusMessage) : m.header ≠ escape := by
  intro h
  have hbit := m.header_bit7
  rw [h] at hbit
  exact absurd hbit (by decide)

lemma frame_eq (dst : ℕ → UInt8) (dstLen : ℕ) (m : BusMessage) :
    m.frame dst dstLen = delimit framing (busBody m.header m.payload) :=
  monobusFrame_eq dst dstLen m.command m.id m.payload

/-! ## Reading one body -/

/-- A body is the stuffed form of the header, the payload and the check byte: the header
needs no escape. -/
lemma busBody_eq_stuff (m : BusMessage) :
    busBody m.header m.payload =
      busCode.stuff (m.header :: (m.payload ++ [busCheck m.header m.payload])) := by
  have hheader : busCode.stuffOne m.header = [m.header] :=
    busCode.stuffOne_of_ne m.header_ne_framing m.header_ne_escape
  rw [busBody, busCovered, EscapeCode.stuff_cons, hheader, EscapeCode.stuff_append,
    EscapeCode.stuff_singleton]
  simp

lemma framing_notMem_busBody (m : BusMessage) : framing ∉ busBody m.header m.payload := by
  rw [busBody_eq_stuff]
  exact busCode.flag_notMem_stuff _

lemma busBody_inj {m m' : BusMessage}
    (h : busBody m.header m.payload = busBody m'.header m'.payload) :
    m.header = m'.header ∧ m.payload = m'.payload := by
  rw [busBody_eq_stuff, busBody_eq_stuff] at h
  obtain ⟨hheader, htail⟩ := List.cons.inj (busCode.stuff_injective h)
  exact ⟨hheader, (List.append_inj' htail rfl).1⟩

/-! ## Reading a stream -/

lemma flatMap_frame_eq (dst : ℕ → UInt8) (dstLen : ℕ) (ms : List BusMessage) :
    ms.flatMap (frame dst dstLen) =
      (ms.map fun m => busBody m.header m.payload).flatMap (delimit framing) := by
  induction ms with
  | nil => rfl
  | cons m ms ih => rw [List.flatMap_cons, List.map_cons, List.flatMap_cons, ih, frame_eq]

lemma map_busBody_inj :
    ∀ {ms ms' : List BusMessage},
      (ms.map fun m => busBody m.header m.payload) =
        (ms'.map fun m => busBody m.header m.payload) →
      (ms.map fun m => (m.header, m.payload)) = (ms'.map fun m => (m.header, m.payload)) := by
  intro ms
  induction ms with
  | nil =>
      intro ms' h
      cases ms' with
      | nil => rfl
      | cons m' ms' => simp at h
  | cons m ms ih =>
      intro ms' h
      cases ms' with
      | nil => simp at h
      | cons m' ms' =>
          obtain ⟨hbody, htail⟩ := List.cons.inj h
          obtain ⟨hheader, hpayload⟩ := busBody_inj hbody
          rw [List.map_cons, List.map_cons, ih htail, hheader, hpayload]

end BusMessage

/-- **Unique decodability of the bus stream.**  Every frame shows the framing byte as its
first and its last byte and nowhere else, and two lists of requests whose frames, written one
behind the other, make the same bytes have the same header bytes and payloads. -/
theorem monobusMessage_uniquelyDecodable :
    (∀ (dst : ℕ → UInt8) (dstLen : ℕ) (m : BusMessage),
      (m.frame dst dstLen).head? = some 0x7e ∧
      (m.frame dst dstLen).getLast? = some 0x7e ∧
      (m.frame dst dstLen).count 0x7e = 2) ∧
    ∀ (dst : ℕ → UInt8) (dstLen : ℕ) (ms ms' : List BusMessage),
      ms.flatMap (BusMessage.frame dst dstLen) = ms'.flatMap (BusMessage.frame dst dstLen) →
      (ms.map fun m => (m.command ||| m.id, m.payload)) =
        (ms'.map fun m => (m.command ||| m.id, m.payload)) := by
  refine ⟨fun dst dstLen m => ?_, fun dst dstLen ms ms' h => ?_⟩
  · rw [m.frame_eq]
    exact ⟨head?_delimit _ _, getLast?_delimit _ _,
      count_flag_delimit m.framing_notMem_busBody⟩
  · rw [BusMessage.flatMap_frame_eq, BusMessage.flatMap_frame_eq] at h
    have hfree : ∀ (l : List BusMessage),
        ∀ b ∈ l.map (fun m => busBody m.header m.payload), framing ∉ b := by
      intro l b hb
      obtain ⟨m, -, rfl⟩ := List.mem_map.mp hb
      exact m.framing_notMem_busBody
    exact BusMessage.map_busBody_inj (flatMap_delimit_injective (hfree ms) (hfree ms') h)

/-- Two requests with the same header byte and the same payload, which needs an escape. -/
theorem monobusMessage_uniquelyDecodable_escaped :
    ([(0x80 ||| 0x02, [0x7e])] : List (UInt8 × List UInt8)) = [(0x82 ||| 0x00, [0x7e])] :=
  monobusMessage_uniquelyDecodable.2 (fun _ => 0) 512
    [⟨0x80, 0x02, [0x7e], by decide, by decide⟩] [⟨0x82, 0x00, [0x7e], by decide, by decide⟩]
    (by decide)

end MonoBus
