import MonoBus.Construction.OscReader

/-!
# Well-formed OSC messages, and what the reader makes of them

`OscArgument` and `OscMessage` are the messages of the format: a path, a list of typed
arguments, and their bytes on the wire.  The bytes behind a blob are padding of any content.

`OscReader.Rest r bs` says that `bs` is what the reader `r` has not read yet.  Each getter has
one lemma for the case that its operand is there, and `argRaw_encode` puts them together: an
argument of the announced type is loaded, and the reader stands behind it.
-/

namespace MonoBus

/-! ## The wire format -/

/-- A C string. -/
structure CString where
  chars : List UInt8
  no_nul : 0 ∉ chars

/-- A C string with its terminator, padded with zeros to a multiple of four bytes. -/
def CString.padded (s : CString) : List UInt8 :=
  s.chars ++ 0 :: List.replicate (3 - s.chars.length % 4) 0

/-- A blob: its bytes, and the padding to a multiple of four bytes. -/
structure OscBlob where
  data : List UInt8
  pad : List UInt8
  data_lt : data.length < 2 ^ 31
  length_pad : pad.length = (4 - data.length % 4) % 4

/-- A blob of one byte. -/
def OscBlob.ofByte (b : UInt8) : OscBlob where
  data := [b]
  pad := [0, 0, 0]
  data_lt := by simp
  length_pad := rfl

/-- An argument of a message. -/
inductive OscArgument
  | int32 (v : Int32)
  | float (bits : UInt32)
  | string (s : CString)
  | blob (b : OscBlob)
  | true
  | false
  | nil
  | impulse
  | int64 (v : Int64)
  | double (bits : UInt64)
  | timetag (v : UInt64)
  | symbol (s : CString)
  | char (v : Int32)
  | midi (port status data₁ data₂ : UInt8)
  | rgba (red green blue alpha : UInt8)

namespace OscArgument

/-- The type of an argument. -/
def oscType : OscArgument → OscType
  | .int32 _ => .int32
  | .float _ => .float
  | .string _ => .string
  | .blob _ => .blob
  | .true => .true
  | .false => .false
  | .nil => .nil
  | .impulse => .impulse
  | .int64 _ => .int64
  | .double _ => .double
  | .timetag _ => .timetag
  | .symbol _ => .symbol
  | .char _ => .char
  | .midi .. => .midi
  | .rgba .. => .rgba

/-- The character that announces an argument. -/
def tag (a : OscArgument) : UInt8 := a.oscType.code

/-- The bytes of an argument. -/
def encode : OscArgument → List UInt8
  | .int32 v => be32 v.toUInt32
  | .float bits => be32 bits
  | .string s => s.padded
  | .blob b => be32 (UInt32.ofNat b.data.length) ++ (b.data ++ b.pad)
  | .true | .false | .nil | .impulse => []
  | .int64 v => be64 v.toUInt64
  | .double bits => be64 bits
  | .timetag v => be64 v
  | .symbol s => s.padded
  | .char v => be32 v.toUInt32
  | .midi port status data₁ data₂ => [port, status, data₁, data₂]
  | .rgba red green blue alpha => [red, green, blue, alpha]

/-- The record after the argument standing at address `a` has been loaded into it. -/
def loadInto (arg : OscArg) (a : ℕ) : OscArgument → OscArg
  | .int32 v => { arg with val := .i v, size := 4 }
  | .float bits => { arg with val := .f bits, size := 4 }
  | .string s => { arg with val := .s s.chars, size := Int32.ofNat (s.chars.length + 1) }
  | .blob b => { arg with val := .b (a + 4), size := Int32.ofNat b.data.length }
  | .true | .false | .nil | .impulse => arg
  | .int64 v => { arg with val := .h v, size := 8 }
  | .double bits => { arg with val := .d bits, size := 8 }
  | .timetag v => { arg with val := .t v, size := 8 }
  | .symbol s => { arg with val := .S s.chars, size := Int32.ofNat (s.chars.length + 1) }
  | .char v => { arg with val := .c v.toUInt32.toUInt8, size := 4 }
  | .midi .. => { arg with val := .m a, size := 4 }
  | .rgba red green blue alpha => { arg with val := .rgba red green blue alpha, size := 4 }

variable (arg : OscArg) (a : ℕ) (x : OscArgument)

@[simp] lemma loadInto_type : (x.loadInto arg a).type = arg.type := by cases x <;> rfl

@[simp] lemma loadInto_path : (x.loadInto arg a).path = arg.path := by cases x <;> rfl

@[simp] lemma loadInto_end : (x.loadInto arg a).end_ = arg.end_ := by cases x <;> rfl

@[simp] lemma loadInto_tag : (x.loadInto arg a).tag = arg.tag := by simp [OscArg.tag]

end OscArgument

/-- A message. -/
structure OscMessage where
  path : CString
  args : List OscArgument

namespace OscMessage

/-- The type tag string of a list of announced types. -/
def typeString (types : List OscType) : CString where
  chars := ','.toUInt8 :: types.map OscType.code
  no_nul := by
    intro h
    rcases List.mem_cons.mp h with h | h
    · exact absurd h (by decide)
    · obtain ⟨t, -, ht⟩ := List.mem_map.mp h
      exact t.code_ne_zero ht

/-- Path and type tag string, with the types announced there. -/
def header (path : CString) (types : List OscType) : List UInt8 :=
  path.padded ++ (typeString types).padded

/-- The bytes of a message. -/
def encode (msg : OscMessage) : List UInt8 :=
  header msg.path (msg.args.map OscArgument.oscType) ++ msg.args.flatMap OscArgument.encode

end OscMessage

/-! ## Sizes -/

lemma paddedSize_eq {n : ℕ} (h : n < 2 ^ 63) : paddedSize n = (n + 3) / 4 * 4 := by
  rw [paddedSize, Nat.mod_eq_of_lt (by omega)]

lemma CString.length_padded (s : CString) :
    s.padded.length = (s.chars.length + 4) / 4 * 4 := by
  rw [padded, List.length_append, List.length_cons, List.length_replicate]
  omega

lemma toInt_ofNat_of_lt {n : ℕ} (h : n < 2 ^ 31) : (Int32.ofNat n).toInt = n :=
  Int32.toInt_ofNat_of_lt h

lemma sizeOfInt32_ofNat {n : ℕ} (h : n < 2 ^ 31) : sizeOfInt32 (Int32.ofNat n) = n := by
  rw [sizeOfInt32, toInt_ofNat_of_lt h]
  omega

/-- A non-negative size is itself as a `size_t`. -/
lemma sizeOfInt32_of_nonneg {i : Int32} (h : 0 ≤ i.toInt) : sizeOfInt32 i = i.toInt.toNat := by
  have hi := int32_toInt_bounds i
  rw [sizeOfInt32, Int.emod_eq_of_lt h (by omega)]

lemma toInt32_ofNat (n : ℕ) : (UInt32.ofNat n).toInt32 = Int32.ofNat n := rfl

lemma OscBlob.length_padded (b : OscBlob) :
    (b.data ++ b.pad).length = paddedSize b.data.length := by
  have hlt := b.data_lt
  rw [List.length_append, b.length_pad, paddedSize_eq (by omega)]
  omega

/-! ## What is left to read -/

/-- The unread part of the packet. -/
structure OscReader.Rest (r : OscReader) (bs : List UInt8) : Prop where
  at_ : r.mem.At r.ptr bs
  end_eq : r.end_ = r.ptr + bs.length

namespace OscReader

section Rest

variable {r : OscReader} {bs cs : List UInt8} {n : ℕ}

@[simp] lemma advance_mem : (r.advance n).mem = r.mem := rfl

@[simp] lemma advance_end : (r.advance n).end_ = r.end_ := rfl

lemma rest_initializeAt {m : Memory} {a : ℕ} (h : m.At a bs) :
    (initializeAt m a bs.length).Rest bs where
  at_ := h
  end_eq := addPtr_of_lt (by have := h.end_lt; omega)

namespace Rest

lemma ptr_le (h : r.Rest bs) : r.ptr + bs.length ≤ 2 ^ 63 := h.at_.end_lt

lemma length_lt (h : r.Rest bs) : bs.length < 2 ^ 63 := by
  have hpos := r.mem.base_pos
  have hbase := h.at_.base_le
  have hle := h.ptr_le
  omega

lemma overflow_eq (h : r.Rest bs) (hn : n < 2 ^ 63) :
    r.overflow n = decide (bs.length < n) := by
  have := h.ptr_le
  rw [overflow, h.end_eq, addPtr_of_lt (by omega)]
  simp

lemma not_overflow (h : r.Rest (bs ++ cs)) : r.overflow bs.length = false := by
  have := h.length_lt
  rw [h.overflow_eq (by rw [List.length_append] at this; omega)]
  simp

lemma overflow_length (h : r.Rest bs) : r.overflow bs.length = false := by
  rw [h.overflow_eq h.length_lt]
  simp

lemma addPtr_length (h : r.Rest bs) : addPtr r.ptr bs.length = r.end_ := by
  have := h.ptr_le
  rw [h.end_eq, addPtr_of_lt (by omega)]

lemma advance_ptr (h : r.Rest (bs ++ cs)) : (r.advance bs.length).ptr = r.ptr + bs.length := by
  have := h.ptr_le
  rw [List.length_append] at this
  exact addPtr_of_lt (by omega)

lemma advance (h : r.Rest (bs ++ cs)) : (r.advance bs.length).Rest cs where
  at_ := by
    rw [h.advance_ptr]
    exact h.at_.right
  end_eq := by
    rw [h.advance_ptr, advance_end, h.end_eq, List.length_append]
    omega

lemma advance_advance {rest : List UInt8} (h : r.Rest (bs ++ (cs ++ rest))) :
    (r.advance bs.length).advance cs.length = r.advance (bs ++ cs).length := by
  have hle := h.ptr_le
  have hptr := h.advance_ptr
  simp only [OscReader.advance, OscReader.mk.injEq, true_and, and_true] at hptr ⊢
  rw [hptr]
  simp only [List.length_append] at hle ⊢
  rw [addPtr_of_lt (by omega), addPtr_of_lt (by omega), Nat.add_assoc]

end Rest

end Rest

end OscReader

/-! ## Packets -/

/-- An object that holds the given bytes and nothing else. -/
structure Packet (bytes : List UInt8) where
  mem : Memory
  bytes_eq : mem.bytes = bytes

/-- A packet placed at a fixed address. -/
def Packet.placed (bytes : List UInt8) (h : bytes.length ≤ 2 ^ 62) : Packet bytes where
  mem := .placed bytes h
  bytes_eq := rfl

/-- A reader set on a packet. -/
def Packet.reader {bytes : List UInt8} (pkt : Packet bytes) : OscReader :=
  OscReader.initializeAt pkt.mem pkt.mem.base bytes.length

lemma Packet.rest_reader {bytes : List UInt8} (pkt : Packet bytes) : pkt.reader.Rest bytes := by
  refine OscReader.rest_initializeAt ?_
  have hbase := pkt.mem.at_base
  rwa [pkt.bytes_eq] at hbase

/-- The given bytes in an object that may hold others around them, as the ring does. -/
structure Embedded (bytes : List UInt8) where
  mem : Memory
  buf : ℕ
  at_ : mem.At buf bytes

/-- A packet with nothing around it. -/
def Packet.embedded {bytes : List UInt8} (pkt : Packet bytes) : Embedded bytes where
  mem := pkt.mem
  buf := pkt.mem.base
  at_ := pkt.rest_reader.at_

namespace OscReader

/-! ## One lemma for each getter -/

section Getters

variable {r : OscReader} {rest : List UInt8}

lemma be32toh_eq {v : UInt32} (h : r.Rest (be32 v ++ rest)) :
    r.be32toh = .ok (some (v, r.advance 4)) := by
  have hfits := h.not_overflow
  have hbytes := h.at_.left.slice
  rw [length_be32] at hfits hbytes
  simp [be32toh, hfits, hbytes]

lemma be64toh_eq {v : UInt64} (h : r.Rest (be64 v ++ rest)) :
    r.be64toh = .ok (some (v, r.advance 8)) := by
  have hfits := h.not_overflow
  have hbytes := h.at_.left.slice
  rw [length_be64] at hfits hbytes
  simp [be64toh, hfits, hbytes]

lemma getInt32_eq {v : UInt32} (h : r.Rest (be32 v ++ rest)) :
    r.getInt32 = .ok (some (v.toInt32, r.advance 4)) := by
  simp [getInt32, be32toh_eq h]

lemma getString_eq {s : CString} (h : r.Rest (s.padded ++ rest)) :
    r.getString = .ok (some (s.chars, r.advance s.padded.length)) := by
  have hfits := h.not_overflow
  have hlen := s.length_padded
  have hlt := h.length_lt
  rw [List.length_append] at hlt
  have hpadded : paddedSize (s.chars.length + 1) = s.padded.length := by
    rw [paddedSize_eq (by omega), hlen]
  have hcstr : r.mem.cstr r.ptr = .ok s.chars := h.at_.left.cstr s.no_nul
  simp [getString, hcstr, hpadded, hfits]

lemma getBlob_eq {b : OscBlob} (h : r.Rest ((OscArgument.blob b).encode ++ rest)) :
    r.getBlob = .ok (some ((Int32.ofNat b.data.length, r.ptr + 4),
      r.advance (OscArgument.blob b).encode.length)) := by
  rw [OscArgument.encode, List.append_assoc] at h
  have hptr := h.advance_ptr
  have hbody := h.advance
  rw [length_be32] at hptr hbody
  have hfits := hbody.not_overflow
  have hadvance : (r.advance 4).advance (b.data ++ b.pad).length =
      r.advance (OscArgument.blob b).encode.length := h.advance_advance
  rw [b.length_padded] at hfits hadvance
  simp only [getBlob, getInt32_eq h, toInt32_ofNat, Run.ok_bind, Run.pure_eq,
    sizeOfInt32_ofNat b.data_lt, hfits, hadvance, hptr]
  rfl

lemma getMidi_eq {port status data₁ data₂ : UInt8}
    (h : r.Rest ([port, status, data₁, data₂] ++ rest)) :
    r.getMidi = some (r.ptr, r.advance 4) := by
  have hfits : r.overflow 4 = false := h.not_overflow
  simp [getMidi, hfits]

lemma getRgba_eq {red green blue alpha : UInt8}
    (h : r.Rest ([red, green, blue, alpha] ++ rest)) :
    r.getRgba = .ok (some ((red, green, blue, alpha), r.advance 4)) := by
  have hfits : r.overflow 4 = false := h.not_overflow
  have hle := h.ptr_le
  rw [List.length_append] at hle
  have hlen : ([red, green, blue, alpha] : List UInt8).length = 4 := rfl
  have hred : r.mem.load r.ptr = .ok red := h.at_.load
  have hgreen : r.mem.load (addPtr r.ptr 1) = .ok green := by
    rw [addPtr_of_lt (by omega)]
    exact h.at_.tail.load
  have hblue : r.mem.load (addPtr r.ptr 2) = .ok blue := by
    rw [addPtr_of_lt (by omega)]
    exact h.at_.tail.tail.load
  have halpha : r.mem.load (addPtr r.ptr 3) = .ok alpha := by
    rw [addPtr_of_lt (by omega)]
    exact h.at_.tail.tail.tail.load
  simp [getRgba, hfits, hred, hgreen, hblue, halpha]

/-- **Loading an argument.**  An argument of the announced type is read completely. -/
theorem argRaw_encode {arg : OscArg} {x : OscArgument} (htag : arg.tag = x.tag)
    (h : r.Rest (x.encode ++ rest)) :
    r.argRaw arg = .ok (some (x.loadInto arg r.ptr, r.advance x.encode.length)) := by
  have hkind : OscType.ofByte arg.tag = some x.oscType := by
    rw [htag, OscArgument.tag, OscType.ofByte_code]
  have hzero : r.advance 0 = r := by
    have := h.ptr_le
    rw [advance, addPtr_of_lt (by omega)]
    rfl
  cases x with
  | int32 v => simp [argRaw, hkind, OscArgument.oscType, getInt32_eq h, OscArgument.loadInto,
      OscArgument.encode]
  | float bits => simp [argRaw, hkind, OscArgument.oscType, getFloat, be32toh_eq h,
      OscArgument.loadInto, OscArgument.encode]
  | string s => simp [argRaw, hkind, OscArgument.oscType, getString_eq h,
      OscArgument.loadInto, OscArgument.encode]
  | blob b => simp [argRaw, hkind, OscArgument.oscType, getBlob_eq h, OscArgument.loadInto]
  | true | false | nil | impulse =>
      simp [argRaw, hkind, OscArgument.oscType, OscArgument.loadInto, OscArgument.encode, hzero]
  | int64 v => simp [argRaw, hkind, OscArgument.oscType, getInt64, be64toh_eq h,
      OscArgument.loadInto, OscArgument.encode]
  | double bits => simp [argRaw, hkind, OscArgument.oscType, getDouble, be64toh_eq h,
      OscArgument.loadInto, OscArgument.encode]
  | timetag v => simp [argRaw, hkind, OscArgument.oscType, getTimetag, be64toh_eq h,
      OscArgument.loadInto, OscArgument.encode]
  | symbol s => simp [argRaw, hkind, OscArgument.oscType, getSymbol, getString_eq h,
      OscArgument.loadInto, OscArgument.encode]
  | char v => simp [argRaw, hkind, OscArgument.oscType, getChar, getInt32_eq h,
      OscArgument.loadInto, OscArgument.encode]
  | midi port status data₁ data₂ => simp [argRaw, hkind, OscArgument.oscType, getMidi_eq h,
      OscArgument.loadInto, OscArgument.encode]
  | rgba red green blue alpha => simp [argRaw, hkind, OscArgument.oscType, getRgba_eq h,
      OscArgument.loadInto, OscArgument.encode]

/-- Without type tags the record is left as it is, and the message is at its end. -/
lemma argRaw_of_nil {arg : OscArg} (h : arg.type = []) : r.argRaw arg = .ok (some (arg, r)) := by
  have hnone : OscType.ofByte arg.tag = none := by
    rw [OscArg.tag, h]
    decide
  simp [argRaw, hnone]

lemma argIsEnd_of_nil {arg : OscArg} (h : arg.type = []) : r.argIsEnd arg = true := by
  simp [argIsEnd, OscArg.tag, h]

lemma argIsEnd_loadInto {arg : OscArg} {x : OscArgument} (htag : arg.tag = x.tag)
    (h : r.Rest rest) (hend : arg.end_ = r.end_) (a : ℕ) :
    r.argIsEnd (x.loadInto arg a) = false := by
  have hle := h.end_eq
  have hnul : x.tag ≠ 0 := x.oscType.code_ne_zero
  simp [argIsEnd, htag, hnul, hend, hle]

end Getters

/-! ## The header of a message -/

/-- The record after path and type tag string have been read. -/
def headerArg (path : CString) (types : List OscType) (end_ : ℕ) : OscArg :=
  { OscArg.zero with type := types.map OscType.code, path := path.chars, end_ := end_ }

lemma argBegin_header {r : OscReader} {path : CString} {types : List OscType}
    {data : List UInt8} (h : r.Rest (OscMessage.header path types ++ data)) :
    r.argBegin (OscMessage.header path types ++ data).length =
      (r.advance (OscMessage.header path types).length).argRaw
        (headerArg path types r.end_) := by
  have hlen := h.overflow_length
  have hend := h.addPtr_length
  have hpath := h
  rw [OscMessage.header, List.append_assoc] at hpath
  have htype := hpath.advance
  have hadvance : (r.advance path.padded.length).advance
      (OscMessage.typeString types).padded.length =
        r.advance (OscMessage.header path types).length := hpath.advance_advance
  simp only [argBegin, hlen, getString_eq hpath, getString_eq htype, hadvance, hend,
    Run.ok_bind, Bool.false_eq_true, if_false]
  simp [OscMessage.typeString, headerArg]

end OscReader

end MonoBus
