import MonoBus.Framework.Bytes
import MonoBus.Framework.Memory

/-!
# Reading OSC packets (`osc.lv2/reader.h`)

The reader is a pointer that moves through a packet.  Its overflow check compares addresses
after a 64-bit addition, and sizes read from the packet are signed 32-bit numbers converted to
`size_t`, so the pointer can wrap; the model keeps both.

A getter returns `none` where the source returns `false` or `NULL`, and the advanced reader
otherwise.  A string is represented by its characters before the terminator (`Memory.cstr`),
so incrementing `arg->type` drops a character and `'\0'` is the end of the list.  Floating
point arguments are kept as their bit patterns, for no caller looks at them.
-/

namespace MonoBus

/-! ## `osc.h` -/

/-- `LV2_OSC_PADDED_SIZE`, applied to a `size_t`: the mask `~3` clears the two low bits. -/
def paddedSize (size : ℕ) : ℕ := (size + 3) % 2 ^ 64 / 4 * 4

/-- The conversion of an `int32_t` to `size_t`. -/
def sizeOfInt32 (i : Int32) : ℕ := (i.toInt % 2 ^ 64).toNat

/-- `LV2_OSC_IMMEDIATE`. -/
def oscImmediate : UInt64 := 1

/-- `LV2_OSC_Type`. -/
inductive OscType
  | int32
  | float
  | string
  | blob
  | true
  | false
  | nil
  | impulse
  | int64
  | double
  | timetag
  | symbol
  | char
  | midi
  | rgba
  deriving DecidableEq, Repr

namespace OscType

/-- The character the enumeration gives a type. -/
def code : OscType → UInt8
  | .int32 => 'i'.toUInt8
  | .float => 'f'.toUInt8
  | .string => 's'.toUInt8
  | .blob => 'b'.toUInt8
  | .true => 'T'.toUInt8
  | .false => 'F'.toUInt8
  | .nil => 'N'.toUInt8
  | .impulse => 'I'.toUInt8
  | .int64 => 'h'.toUInt8
  | .double => 'd'.toUInt8
  | .timetag => 't'.toUInt8
  | .symbol => 'S'.toUInt8
  | .char => 'c'.toUInt8
  | .midi => 'm'.toUInt8
  | .rgba => 'r'.toUInt8

/-- The members of the enumeration. -/
def all : List OscType :=
  [.int32, .float, .string, .blob, .true, .false, .nil, .impulse, .int64, .double, .timetag,
    .symbol, .char, .midi, .rgba]

/-- The `case` of a `switch` over the types that a character selects, if any. -/
def ofByte (b : UInt8) : Option OscType := all.find? fun t => t.code = b

@[simp] lemma ofByte_code (t : OscType) : ofByte t.code = some t := by
  cases t <;> decide

lemma code_ne_zero (t : OscType) : t.code ≠ 0 := by
  cases t <;> decide

end OscType

/-! ## `reader.h` -/

/-- `LV2_OSC_Reader`. -/
structure OscReader where
  mem : Memory
  buf : ℕ
  ptr : ℕ
  end_ : ℕ

/-- `LV2_OSC_Item`. -/
structure OscItem where
  size : Int32
  body : ℕ
  timetag : UInt64
  end_ : ℕ

/-- The anonymous union of `LV2_OSC_Arg`. -/
inductive OscValue
  | i (v : Int32)
  | f (bits : UInt32)
  | s (chars : List UInt8)
  | b (addr : ℕ)
  | h (v : Int64)
  | d (bits : UInt64)
  | t (v : UInt64)
  | m (addr : ℕ)
  | S (chars : List UInt8)
  | c (v : UInt8)
  | rgba (r g b a : UInt8)

/-- `LV2_OSC_Arg`. -/
structure OscArg where
  type : List UInt8
  size : Int32
  val : OscValue
  path : List UInt8
  end_ : ℕ

/-- The argument `OSC_READER_MESSAGE_BEGIN` starts from. -/
def OscArg.zero : OscArg where
  type := []
  size := 0
  val := .i 0
  path := []
  end_ := 0

/-- `*arg->type`. -/
def OscArg.tag (arg : OscArg) : UInt8 := arg.type.headD 0

namespace OscReader

/-- `lv2_osc_reader_initialize`. -/
def initializeAt (mem : Memory) (buf size : ℕ) : OscReader where
  mem := mem
  buf := buf
  ptr := buf
  end_ := addPtr buf size

/-- `lv2_osc_reader_overflow`. -/
def overflow (r : OscReader) (size : ℕ) : Bool := r.end_ < addPtr r.ptr size

/-- `reader->ptr += n`. -/
def advance (r : OscReader) (n : ℕ) : OscReader := { r with ptr := addPtr r.ptr n }

/-! ### Getters -/

/-- `lv2_osc_reader_be32toh`. -/
def be32toh (r : OscReader) : Run (Option (UInt32 × OscReader)) := do
  if r.overflow 4 then
    return none
  let bytes ← r.mem.slice r.ptr 4
  return some (UInt32.ofNat (beNat bytes), r.advance 4)

/-- `lv2_osc_reader_be64toh`. -/
def be64toh (r : OscReader) : Run (Option (UInt64 × OscReader)) := do
  if r.overflow 8 then
    return none
  let bytes ← r.mem.slice r.ptr 8
  return some (UInt64.ofNat (beNat bytes), r.advance 8)

/-- `lv2_osc_reader_get_int32`. -/
def getInt32 (r : OscReader) : Run (Option (Int32 × OscReader)) := do
  return (← r.be32toh).map fun (u, r) => (u.toInt32, r)

/-- `lv2_osc_reader_get_float`. -/
def getFloat (r : OscReader) : Run (Option (UInt32 × OscReader)) := r.be32toh

/-- `lv2_osc_reader_get_int64`. -/
def getInt64 (r : OscReader) : Run (Option (Int64 × OscReader)) := do
  return (← r.be64toh).map fun (u, r) => (u.toInt64, r)

/-- `lv2_osc_reader_get_timetag`. -/
def getTimetag (r : OscReader) : Run (Option (UInt64 × OscReader)) := r.be64toh

/-- `lv2_osc_reader_get_double`. -/
def getDouble (r : OscReader) : Run (Option (UInt64 × OscReader)) := r.be64toh

/-- `lv2_osc_reader_get_string`. -/
def getString (r : OscReader) : Run (Option (List UInt8 × OscReader)) := do
  let str ← r.mem.cstr r.ptr
  let padded := paddedSize (str.length + 1)
  if r.overflow padded then
    return none
  return some (str, r.advance padded)

/-- `lv2_osc_reader_get_symbol`. -/
def getSymbol (r : OscReader) : Run (Option (List UInt8 × OscReader)) := r.getString

/-- `lv2_osc_reader_get_midi`. -/
def getMidi (r : OscReader) : Option (ℕ × OscReader) :=
  if r.overflow 4 then none else some (r.ptr, r.advance 4)

/-- `lv2_osc_reader_get_blob`: the length, and the address of the body. -/
def getBlob (r : OscReader) : Run (Option ((Int32 × ℕ) × OscReader)) := do
  match ← r.getInt32 with
  | none => return none
  | some (len, r) =>
      let padded := paddedSize (sizeOfInt32 len)
      if r.overflow padded then
        return none
      return some ((len, r.ptr), r.advance padded)

/-- `lv2_osc_reader_get_rgba`. -/
def getRgba (r : OscReader) : Run (Option ((UInt8 × UInt8 × UInt8 × UInt8) × OscReader)) := do
  if r.overflow 4 then
    return none
  let red ← r.mem.load r.ptr
  let green ← r.mem.load (addPtr r.ptr 1)
  let blue ← r.mem.load (addPtr r.ptr 2)
  let alpha ← r.mem.load (addPtr r.ptr 3)
  return some ((red, green, blue, alpha), r.advance 4)

/-- `lv2_osc_reader_get_char`. -/
def getChar (r : OscReader) : Run (Option (UInt8 × OscReader)) := do
  return (← r.getInt32).map fun (i, r) => (i.toUInt32.toUInt8, r)

/-! ### Items of a bundle -/

/-- `lv2_osc_reader_item_raw`. -/
def itemRaw (r : OscReader) (itm : OscItem) : Run (Option (OscItem × OscReader)) := do
  match ← r.getInt32 with
  | none => return none
  | some (size, r) =>
      if r.overflow (sizeOfInt32 size) then
        return none
      return some ({ itm with size := size, body := r.ptr }, r)

/-- The literal of `"#bundle"`, its terminator included. -/
def bundleLiteral : List UInt8 :=
  ['#', 'b', 'u', 'n', 'd', 'l', 'e'].map Char.toUInt8 ++ [0]

/-- `OSC_READER_BUNDLE_BEGIN`, which is `lv2_osc_reader_item_begin`. -/
def itemBegin (r : OscReader) (len : ℕ) : Run (Option (OscItem × OscReader)) := do
  if r.overflow len then
    return none
  let end_ := addPtr r.ptr len
  if r.overflow 16 then
    return none
  if !(← r.mem.strncmpEq r.ptr bundleLiteral) then
    return none
  match ← (r.advance 8).getTimetag with
  | none => return none
  | some (timetag, r) => r.itemRaw { size := 0, body := 0, timetag := timetag, end_ := end_ }

/-- `lv2_osc_reader_item_is_end`. -/
def itemIsEnd (r : OscReader) (itm : OscItem) : Bool := itm.end_ < r.ptr

/-- `lv2_osc_reader_item_next`. -/
def itemNext (r : OscReader) (itm : OscItem) : Run (Option (OscItem × OscReader)) :=
  (r.advance (sizeOfInt32 itm.size)).itemRaw itm

/-! ### Arguments of a message -/

/-- `lv2_osc_reader_arg_raw`. -/
def argRaw (r : OscReader) (arg : OscArg) : Run (Option (OscArg × OscReader)) := do
  match OscType.ofByte arg.tag with
  | some .int32 =>
      return (← r.getInt32).map fun (i, r) => ({ arg with val := .i i, size := 4 }, r)
  | some .float =>
      return (← r.getFloat).map fun (f, r) => ({ arg with val := .f f, size := 4 }, r)
  | some .string =>
      return (← r.getString).map fun (s, r) =>
        ({ arg with val := .s s, size := Int32.ofNat (s.length + 1) }, r)
  | some .blob =>
      return (← r.getBlob).map fun ((len, b), r) => ({ arg with val := .b b, size := len }, r)
  | some .int64 =>
      return (← r.getInt64).map fun (h, r) => ({ arg with val := .h h, size := 8 }, r)
  | some .double =>
      return (← r.getDouble).map fun (d, r) => ({ arg with val := .d d, size := 8 }, r)
  | some .timetag =>
      return (← r.getTimetag).map fun (t, r) => ({ arg with val := .t t, size := 8 }, r)
  | some .midi =>
      return r.getMidi.map fun (m, r) => ({ arg with val := .m m, size := 4 }, r)
  | some .symbol =>
      return (← r.getSymbol).map fun (s, r) =>
        ({ arg with val := .S s, size := Int32.ofNat (s.length + 1) }, r)
  | some .char =>
      return (← r.getChar).map fun (c, r) => ({ arg with val := .c c, size := 4 }, r)
  | some .rgba =>
      return (← r.getRgba).map fun ((red, green, blue, alpha), r) =>
        ({ arg with val := .rgba red green blue alpha, size := 4 }, r)
  | some .true | some .false | some .nil | some .impulse | none => return some (arg, r)

/-- `OSC_READER_MESSAGE_BEGIN`, which is `lv2_osc_reader_arg_begin`. -/
def argBegin (r : OscReader) (len : ℕ) : Run (Option (OscArg × OscReader)) := do
  if r.overflow len then
    return none
  let end_ := addPtr r.ptr len
  match ← r.getString with
  | none => return none
  | some (path, r) =>
      match ← r.getString with
      | none => return none
      | some (type, r) =>
          if type.headD 0 ≠ ','.toUInt8 then
            return none
          r.argRaw { OscArg.zero with type := type.tail, path := path, end_ := end_ }

/-- `lv2_osc_reader_arg_is_end`. -/
def argIsEnd (r : OscReader) (arg : OscArg) : Bool := arg.tag = 0 ∨ arg.end_ < r.ptr

/-- `lv2_osc_reader_arg_next`. -/
def argNext (r : OscReader) (arg : OscArg) : Run (Option (OscArg × OscReader)) :=
  r.argRaw { arg with type := arg.type.tail }

/-! ### Kinds of packets -/

/-- `lv2_osc_reader_is_bundle`. -/
def isBundle (r : OscReader) : Run Bool := r.mem.strncmpEq r.ptr bundleLiteral

/-- `lv2_osc_reader_is_message`. -/
def isMessage (r : OscReader) : Run Bool := do
  return (← r.mem.load r.ptr) = '/'.toUInt8

end OscReader

end MonoBus
