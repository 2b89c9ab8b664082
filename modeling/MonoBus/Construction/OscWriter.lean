import MonoBus.Construction.OscEncoding

/-!
# Writing OSC messages (`osc.lv2/writer.h`)

The writer is a pointer that moves through a buffer of the caller.  Its overflow check refuses
to fill the buffer to the last byte, and the padding of a blob keeps whatever the buffer held.

A function returns `none` where the source returns `false`; no caller looks at the writer then.
`Writes op P` is the shape of the lemmas: where `op` succeeds, it appends bytes with property
`P` to what has been written.
-/

namespace MonoBus

/-- `LV2_OSC_Writer`. -/
structure OscWriter where
  mem : Memory
  buf : ℕ
  ptr : ℕ
  end_ : ℕ

/-- The arguments `lv2_osc_writer_arg_varlist` takes from its `va_list`.  Floating point
arguments are given by their bit patterns. -/
inductive VarArg
  | int32 (i : Int32)
  | float (bits : UInt32)
  | string (s : CString)
  | blob (len : Int32) (body : Ptr)
  | int64 (h : Int64)
  | double (bits : UInt64)
  | timetag (t : UInt64)
  | midi (len : Int32) (m : Ptr)
  | symbol (s : CString)
  | char (c : Int32)
  | rgba (r g b a : UInt8)

namespace OscWriter

/-- `lv2_osc_writer_initialize`. -/
def initializeAt (mem : Memory) (buf size : ℕ) : OscWriter where
  mem := mem
  buf := buf
  ptr := buf
  end_ := addPtr buf size

/-- `lv2_osc_writer_get_size`. -/
def getSize (w : OscWriter) : ℕ := if w.ptr > w.buf then w.ptr - w.buf else 0

/-- `lv2_osc_writer_finalize`: the buffer and the number of bytes written. -/
def finalize (w : OscWriter) : Option (ℕ × ℕ) :=
  if w.getSize ≠ 0 then some (w.buf, w.getSize) else none

/-- `lv2_osc_writer_overflow`. -/
def overflow (w : OscWriter) (size : ℕ) : Bool := w.end_ ≤ addPtr w.ptr size

/-- The writer after the memory has changed. -/
def setMem (w : OscWriter) (mem : Memory) : OscWriter := { w with mem := mem }

/-- `memcpy` to `ptr + off`. -/
def storeAt (w : OscWriter) (off : ℕ) (bytes : List UInt8) : Run OscWriter := do
  let mem ← w.mem.store (addPtr w.ptr off) bytes
  return w.setMem mem

/-- `writer->ptr += n`. -/
def advance (w : OscWriter) (n : ℕ) : OscWriter := { w with ptr := addPtr w.ptr n }

/-! ## One argument -/

/-- `lv2_osc_writer_htobe32`. -/
def htobe32 (v : UInt32) (w : OscWriter) : Run (Option OscWriter) := do
  if w.overflow 4 then
    return none
  let w ← w.storeAt 0 (be32 v)
  return some (w.advance 4)

/-- `lv2_osc_writer_htobe64`. -/
def htobe64 (v : UInt64) (w : OscWriter) : Run (Option OscWriter) := do
  if w.overflow 8 then
    return none
  let w ← w.storeAt 0 (be64 v)
  return some (w.advance 8)

/-- `lv2_osc_writer_add_int32`. -/
def addInt32 (i : Int32) (w : OscWriter) : Run (Option OscWriter) := htobe32 i.toUInt32 w

/-- `lv2_osc_writer_add_float`. -/
def addFloat (bits : UInt32) (w : OscWriter) : Run (Option OscWriter) := htobe32 bits w

/-- `lv2_osc_writer_add_string`: the last four bytes are blanked before the string and its
terminator are copied. -/
def addString (s : CString) (w : OscWriter) : Run (Option OscWriter) := do
  let padded := paddedSize (s.chars.length + 1)
  if w.overflow padded then
    return none
  let w ← w.storeAt (padded - 4) [0, 0, 0, 0]
  let w ← w.storeAt 0 (s.chars ++ [0])
  return some (w.advance padded)

/-- `lv2_osc_writer_add_symbol`. -/
def addSymbol (s : CString) (w : OscWriter) : Run (Option OscWriter) := addString s w

/-- `lv2_osc_writer_add_int64`. -/
def addInt64 (h : Int64) (w : OscWriter) : Run (Option OscWriter) := htobe64 h.toUInt64 w

/-- `lv2_osc_writer_add_double`. -/
def addDouble (bits : UInt64) (w : OscWriter) : Run (Option OscWriter) := htobe64 bits w

/-- `lv2_osc_writer_add_timetag`. -/
def addTimetag (t : UInt64) (w : OscWriter) : Run (Option OscWriter) := htobe64 t w

/-- `lv2_osc_writer_add_blob_inline`, with the address of the body. -/
def addBlobInline (len : Int32) (w : OscWriter) : Run (Option (ℕ × OscWriter)) := do
  let lenPadded := paddedSize (sizeOfInt32 len)
  if w.overflow ((4 + lenPadded) % 2 ^ 64) then
    return none
  match ← addInt32 len w with
  | none => return none
  | some w => return some (w.ptr, w.advance lenPadded)

/-- `lv2_osc_writer_add_blob`. -/
def addBlob (len : Int32) (body : Ptr) (w : OscWriter) : Run (Option OscWriter) := do
  match ← addBlobInline len w with
  | none => return none
  | some (dst, w) =>
      let bytes ← body.slice (sizeOfInt32 len)
      let mem ← w.mem.store dst bytes
      return some (w.setMem mem)

/-- `lv2_osc_writer_add_midi`. -/
def addMidi (len : Int32) (m : Ptr) (w : OscWriter) : Run (Option OscWriter) := do
  if len > 4 || w.overflow 4 then
    return none
  let bytes ← m.slice (sizeOfInt32 len)
  let w ← w.storeAt 0 bytes
  return some (w.advance 4)

/-- `lv2_osc_writer_add_rgba`. -/
def addRgba (r g b a : UInt8) (w : OscWriter) : Run (Option OscWriter) := do
  if w.overflow 4 then
    return none
  let w ← w.storeAt 0 [r, g, b, a]
  return some (w.advance 4)

/-- `lv2_osc_writer_add_char`: the character is signed. -/
def addChar (c : Int8) (w : OscWriter) : Run (Option OscWriter) := addInt32 c.toInt32 w

/-! ## A message -/

/-- `lv2_osc_writer_add_path`. -/
def addPath (path : CString) (w : OscWriter) : Run (Option OscWriter) := addString path w

/-- `lv2_osc_writer_add_format`. -/
def addFormat (fmt : CString) (w : OscWriter) : Run (Option OscWriter) := do
  let padded := paddedSize (fmt.chars.length + 1 + 1)
  if w.overflow padded then
    return none
  let w ← w.storeAt (padded - 4) [0, 0, 0, 0]
  let w ← w.storeAt 0 [','.toUInt8]
  let w := w.advance 1
  let w ← w.storeAt 0 (fmt.chars ++ [0])
  return some (w.advance (padded - 1))

/-- Go on with the writer unless something has failed. -/
def andThen (op op' : OscWriter → Run (Option OscWriter)) (w : OscWriter) :
    Run (Option OscWriter) := do
  match ← op w with
  | none => return none
  | some w => op' w

/-- `lv2_osc_writer_arg_varlist`.  A `va_list` that does not go with the format is a fault. -/
def argVarlist : List UInt8 → List VarArg → OscWriter → Run (Option OscWriter)
  | [], _, w => .ok (some w)
  | type :: fmt, args, w =>
      match OscType.ofByte type, args with
      | some .int32, .int32 i :: args => andThen (addInt32 i) (argVarlist fmt args) w
      | some .float, .float bits :: args => andThen (addFloat bits) (argVarlist fmt args) w
      | some .string, .string s :: args => andThen (addString s) (argVarlist fmt args) w
      | some .blob, .blob len body :: args => andThen (addBlob len body) (argVarlist fmt args) w
      | some .int64, .int64 h :: args => andThen (addInt64 h) (argVarlist fmt args) w
      | some .double, .double bits :: args => andThen (addDouble bits) (argVarlist fmt args) w
      | some .timetag, .timetag t :: args => andThen (addTimetag t) (argVarlist fmt args) w
      | some .midi, .midi len m :: args => andThen (addMidi len m) (argVarlist fmt args) w
      | some .symbol, .symbol s :: args => andThen (addSymbol s) (argVarlist fmt args) w
      | some .char, .char c :: args => andThen (addChar c.toInt8) (argVarlist fmt args) w
      | some .rgba, .rgba r g b a :: args => andThen (addRgba r g b a) (argVarlist fmt args) w
      | some .true, args | some .false, args | some .nil, args | some .impulse, args
      | none, args => argVarlist fmt args w
      | _, _ => .error .outOfRange

/-- `lv2_osc_writer_message_vararg`. -/
def messageVararg (path fmt : CString) (args : List VarArg) (w : OscWriter) :
    Run (Option OscWriter) :=
  andThen (addPath path) (andThen (addFormat fmt) (argVarlist fmt.chars args)) w

/-! ## What has been written -/

section Fields

variable (w : OscWriter) (m m' : Memory) (n : ℕ)

@[simp] lemma setMem_mem : (w.setMem m).mem = m := rfl

@[simp] lemma setMem_buf : (w.setMem m).buf = w.buf := rfl

@[simp] lemma setMem_ptr : (w.setMem m).ptr = w.ptr := rfl

@[simp] lemma setMem_end : (w.setMem m).end_ = w.end_ := rfl

@[simp] lemma setMem_setMem : (w.setMem m).setMem m' = w.setMem m' := rfl

@[simp] lemma advance_mem : (w.advance n).mem = w.mem := rfl

@[simp] lemma advance_end : (w.advance n).end_ = w.end_ := rfl

lemma setMem_advance : (w.advance n).setMem m = (w.setMem m).advance n := rfl

end Fields

/-- The bytes `bs` have been written so far, and the rest of the buffer is there. -/
structure Wrote (w : OscWriter) (bs : List UInt8) : Prop where
  at_ : w.mem.At w.buf bs
  ptr_eq : w.ptr = w.buf + bs.length
  end_le : w.end_ ≤ w.mem.limit

/-- Where the operation succeeds it appends bytes with the property `P`. -/
def Writes (op : OscWriter → Run (Option OscWriter)) (P : List UInt8 → Prop) : Prop :=
  ∀ w bs, Wrote w bs → op w = .ok none ∨
    ∃ w' cs, op w = .ok (some w') ∧ P cs ∧ (w'.buf = w.buf ∧ w'.end_ = w.end_) ∧
      Wrote w' (bs ++ cs)

section Wrote

variable {w : OscWriter} {bs cs : List UInt8} {m : Memory}

/-- Room that the overflow check has found. -/
lemma Wrote.exists_room (h : Wrote w bs) {n : ℕ} (hn : n < 2 ^ 63)
    (hover : w.overflow n = false) : ∃ room, room.length = n ∧ w.mem.At w.buf (bs ++ room) := by
  have hlt := h.at_.end_lt
  have hend := h.end_le
  have hle := of_decide_eq_false hover
  rw [h.ptr_eq, addPtr_of_lt (by omega)] at hle
  exact h.at_.exists_append (by omega)

lemma Wrote.storeAt (h : Wrote w bs) (xs ys ys' zs : List UInt8)
    (hat : w.mem.At w.buf (bs ++ (xs ++ (ys ++ zs)))) (hlen : ys'.length = ys.length) :
    ∃ m, w.storeAt xs.length ys' = .ok (w.setMem m) ∧
      m.At w.buf (bs ++ (xs ++ (ys' ++ zs))) ∧ m.limit = w.mem.limit := by
  have haddr : addPtr w.ptr xs.length = w.buf + (bs ++ xs).length := by
    have hlt := hat.end_lt
    simp only [List.length_append] at hlt ⊢
    rw [h.ptr_eq, addPtr_of_lt (by omega)]
    omega
  rw [← List.append_assoc] at hat
  obtain ⟨m, hstore, hat', -, hlimit⟩ := hat.store hlen
  refine ⟨m, ?_, by rwa [← List.append_assoc], hlimit⟩
  rw [OscWriter.storeAt, haddr, hstore]
  rfl

lemma Wrote.advance (h : Wrote w bs) (hat : m.At w.buf (bs ++ cs))
    (hlimit : m.limit = w.mem.limit) :
    Wrote ((w.setMem m).advance cs.length) (bs ++ cs) where
  at_ := hat
  ptr_eq := by
    have hlt := hat.end_lt
    rw [List.length_append] at hlt ⊢
    simp only [OscWriter.advance, setMem_ptr, setMem_buf, h.ptr_eq]
    rw [addPtr_of_lt (by omega), Nat.add_assoc]
  end_le := by
    rw [advance_end, advance_mem, setMem_end, setMem_mem, hlimit]
    exact h.end_le

end Wrote

/-! ## What the operations append -/

lemma writes_htobe32 (v : UInt32) : Writes (htobe32 v) (· = be32 v) := by
  intro w bs h
  unfold htobe32
  cases hover : w.overflow 4 with
  | true => exact .inl rfl
  | false =>
      obtain ⟨room, hlen, hat⟩ := h.exists_room (by decide) hover
      obtain ⟨m, hstore, hat', hlimit⟩ := h.storeAt [] room (be32 v) [] (by simpa using hat)
        (by rw [hlen, length_be32])
      rw [List.length_nil] at hstore
      rw [List.nil_append, List.append_nil] at hat'
      refine .inr ⟨(w.setMem m).advance (be32 v).length, be32 v, ?_, rfl,
        ⟨rfl, rfl⟩, h.advance hat' hlimit⟩
      simp [hstore]

lemma writes_addInt32 (i : Int32) : Writes (addInt32 i) (· = be32 i.toUInt32) :=
  writes_htobe32 i.toUInt32

/-- Room whose last four bytes have been blanked, behind a string that reaches into them. -/
lemma drop_blank (xs : List UInt8) (n : ℕ) (hle : xs.length ≤ n) (hlt : n ≤ xs.length + 4) :
    (xs ++ [0, 0, 0, 0]).drop n = List.replicate (xs.length + 4 - n) 0 := by
  have hzeros : ([0, 0, 0, 0] : List UInt8) = List.replicate 4 0 := rfl
  rw [List.drop_append, List.drop_eq_nil_of_le hle, List.nil_append, hzeros, List.drop_replicate]
  congr 1
  omega

lemma Wrote.storeString {w : OscWriter} {bs room : List UInt8} (h : Wrote w bs)
    (hat : w.mem.At w.buf (bs ++ room)) (chars : List UInt8)
    (hle : chars.length + 1 ≤ room.length) :
    ∃ m, w.storeAt 0 (chars ++ [0]) = .ok (w.setMem m) ∧
      m.At w.buf (bs ++ (chars ++ 0 :: room.drop (chars.length + 1))) ∧
      m.limit = w.mem.limit := by
  obtain ⟨m, hstore, hat', hlimit⟩ := h.storeAt [] (room.take (chars.length + 1)) (chars ++ [0])
    (room.drop (chars.length + 1))
    (by rwa [List.nil_append, List.take_append_drop])
    (by simp only [List.length_append, List.length_take, List.length_cons, List.length_nil]; omega)
  exact ⟨m, hstore, by simpa using hat', hlimit⟩

/-- The last four bytes of the room are blanked. -/
lemma Wrote.blank {w : OscWriter} {bs : List UInt8} (h : Wrote w bs) {n : ℕ} (hn : 4 ≤ n)
    (hlt : n < 2 ^ 63) (hover : w.overflow n = false) :
    ∃ m xs, xs.length = n - 4 ∧ w.storeAt (n - 4) [0, 0, 0, 0] = .ok (w.setMem m) ∧
      m.At w.buf (bs ++ (xs ++ [0, 0, 0, 0])) ∧ m.limit = w.mem.limit ∧
      Wrote (w.setMem m) bs := by
  obtain ⟨room, hroom, hat⟩ := h.exists_room hlt hover
  have hxs : (room.take (n - 4)).length = n - 4 := by
    rw [List.length_take]
    omega
  obtain ⟨m, hblank, hat, hlimit⟩ := h.storeAt (room.take (n - 4)) (room.drop (n - 4))
    [0, 0, 0, 0] []
    (by rwa [List.append_nil, List.take_append_drop])
    (by rw [List.length_drop]; simp only [List.length_cons, List.length_nil]; omega)
  rw [List.append_nil] at hat
  rw [hxs] at hblank
  refine ⟨m, _, hxs, hblank, hat, hlimit, hat.left, h.ptr_eq, ?_⟩
  rw [setMem_end, setMem_mem, hlimit]
  exact h.end_le

lemma writes_addString (s : CString) (hs : s.chars.length < 2 ^ 62) :
    Writes (addString s) (· = s.padded) := by
  intro w bs h
  have hlen := s.length_padded
  have hpadded : paddedSize (s.chars.length + 1) = s.padded.length := by
    rw [paddedSize_eq (by omega), hlen]
  cases hover : w.overflow s.padded.length with
  | true => exact .inl (by simp [addString, hpadded, hover])
  | false =>
      obtain ⟨m, xs, hxs, hblank, hat, hlimit, hw⟩ := h.blank (by omega) (by omega) hover
      obtain ⟨m', hstore, hat', hlimit'⟩ := hw.storeString hat s.chars (by
        simp only [List.length_append, List.length_cons, List.length_nil]
        omega)
      have hpad : xs.length + 4 - (s.chars.length + 1) = 3 - s.chars.length % 4 := by omega
      rw [drop_blank _ _ (by omega) (by omega), hpad] at hat'
      refine .inr ⟨(w.setMem m').advance s.padded.length, s.padded, ?_, rfl,
        ⟨rfl, rfl⟩, h.advance hat' (hlimit'.trans hlimit)⟩
      simp [addString, hpadded, hover, hblank, hstore]

/-- The format is written with a comma in front of it. -/
lemma writes_addFormat (fmt typeString : CString)
    (hcomma : typeString.chars = ','.toUInt8 :: fmt.chars) (hs : fmt.chars.length < 2 ^ 62) :
    Writes (addFormat fmt) (· = typeString.padded) := by
  intro w bs h
  have hlen := typeString.length_padded
  rw [hcomma, List.length_cons] at hlen
  have hpadded : paddedSize (fmt.chars.length + 1 + 1) = typeString.padded.length := by
    rw [paddedSize_eq (by omega), hlen]
  cases hover : w.overflow typeString.padded.length with
  | true => exact .inl (by simp [addFormat, hpadded, hover])
  | false =>
      obtain ⟨m, xs, hxs, hblank, hat, hlimit, hw⟩ := h.blank (by omega) (by omega) hover
      -- the comma, and the room behind it
      obtain ⟨b, tail, hroom⟩ := List.exists_cons_of_ne_nil (l := xs ++ [0, 0, 0, 0]) (by simp)
      have htail : tail.length + 1 = typeString.padded.length := by
        have hlength := congrArg List.length hroom
        simp only [List.length_append, List.length_cons, List.length_nil] at hlength
        omega
      rw [hroom] at hat
      obtain ⟨m₁, hcomma_store, hat₁, hlimit₁⟩ := hw.storeAt [] [b] [','.toUInt8] tail
        (by simpa using hat) rfl
      have hcomma_at : m₁.At w.buf ((bs ++ [','.toUInt8]) ++ tail) := by simpa using hat₁
      have hw₁ := hw.advance hcomma_at.left hlimit₁
      obtain ⟨m₂, hstore, hat₂, hlimit₂⟩ := hw₁.storeString hcomma_at fmt.chars
        (by omega)
      have hdrop : tail.drop (fmt.chars.length + 1) =
          List.replicate (3 - typeString.chars.length % 4) 0 := by
        have hblanked := drop_blank xs (fmt.chars.length + 2) (by omega) (by omega)
        rw [hroom, List.drop_succ_cons] at hblanked
        rw [hblanked, hcomma, List.length_cons]
        congr 1
        omega
      rw [hdrop] at hat₂
      set cs := fmt.chars ++ 0 :: List.replicate (3 - typeString.chars.length % 4) 0 with hcs
      have hcs_eq : typeString.padded = [','.toUInt8] ++ cs := by
        simp [CString.padded, hcomma, hcs]
      have hcs_len : cs.length = typeString.padded.length - 1 := by
        rw [hcs_eq, List.singleton_append, List.length_cons, Nat.add_sub_cancel]
      have hw₂ := hw₁.advance hat₂ hlimit₂
      rw [List.append_assoc, ← hcs_eq, hcs_len] at hw₂
      refine .inr ⟨(((w.setMem m₁).advance 1).setMem m₂).advance (typeString.padded.length - 1),
        typeString.padded, ?_, rfl, ⟨rfl, rfl⟩, hw₂⟩
      rw [List.length_nil, setMem_setMem] at hcomma_store
      rw [List.length_singleton, setMem_setMem] at hstore
      simp [addFormat, hpadded, hover, hblank, hcomma_store, hstore]

/-- A blob is followed by padding that is not written. -/
lemma writes_addBlob {body : Ptr} {data : List UInt8} (hdata : data.length < 2 ^ 31)
    (hbody : body.slice data.length = .ok data) :
    Writes (addBlob (Int32.ofNat data.length) body) fun bs =>
      ∃ b : OscBlob, b.data = data ∧ bs = (OscArgument.blob b).encode := by
  intro w bs h
  have hsize := sizeOfInt32_ofNat hdata
  have hpadded : paddedSize data.length = (data.length + 3) / 4 * 4 := paddedSize_eq (by omega)
  set padded := paddedSize data.length with hpadded_def
  have hwrap : (4 + padded) % 2 ^ 64 = 4 + padded := Nat.mod_eq_of_lt (by omega)
  cases hover : w.overflow (4 + padded) with
  | true =>
      left
      simp only [addBlob, addBlobInline, hsize, ← hpadded_def, hwrap, hover, if_true, Run.pure_eq,
        Run.ok_bind]
  | false =>
      obtain hint | ⟨w₁, cs, hint, rfl, ⟨hbuf, hend⟩, hw₁⟩ :=
        writes_addInt32 (Int32.ofNat data.length) w bs h
      · left
        simp only [addBlob, addBlobInline, hsize, ← hpadded_def, hwrap, hover, hint, if_false,
          Bool.false_eq_true, Run.pure_eq, Run.ok_bind]
      have hfits : w₁.overflow padded = false := by
        have hlt := hw₁.at_.end_lt
        have hle := of_decide_eq_false hover
        rw [List.length_append, length_be32] at hlt
        rw [h.ptr_eq, ← hbuf, ← hend, addPtr_of_lt (by omega)] at hle
        refine decide_eq_false ?_
        rw [hw₁.ptr_eq, List.length_append, length_be32, addPtr_of_lt (by omega)]
        omega
      obtain ⟨room, hroom, hat⟩ := hw₁.exists_room (by omega) hfits
      rw [← List.take_append_drop data.length room] at hat
      obtain ⟨m, hstore, hat', -, hlimit⟩ := hat.store
        (show data.length = _ by rw [List.length_take]; omega)
      rw [← hw₁.ptr_eq] at hstore
      -- what the buffer held behind the body becomes the padding
      have hpad : (room.drop data.length).length = (4 - data.length % 4) % 4 := by
        rw [List.length_drop]
        omega
      set blob : OscBlob := ⟨data, room.drop data.length, hdata, hpad⟩ with hblob
      have hlen : (data ++ room.drop data.length).length = padded := by
        rw [List.length_append, List.length_drop]
        omega
      have hw₂ := hw₁.advance hat' hlimit
      have hencode : be32 (Int32.ofNat data.length).toUInt32 ++
          (data ++ room.drop data.length) = (OscArgument.blob blob).encode := rfl
      rw [hlen, List.append_assoc, hencode] at hw₂
      refine .inr ⟨(w₁.setMem m).advance padded, (OscArgument.blob blob).encode, ?_,
        ⟨blob, rfl, rfl⟩, ⟨hbuf, hend⟩, hw₂⟩
      simp only [addBlob, addBlobInline, hsize, ← hpadded_def, hwrap, hover, hint, hbody, hstore,
        if_false, Bool.false_eq_true, Run.pure_eq, Run.ok_bind, advance_mem, setMem_advance]

lemma finalize_of_wrote {w : OscWriter} {bs : List UInt8} (h : Wrote w bs) (hne : bs ≠ []) :
    w.finalize = some (w.buf, bs.length) ∧ w.mem.slice w.buf bs.length = .ok bs := by
  have hpos := List.length_pos_iff.mpr hne
  have hsize : w.getSize = bs.length := by
    rw [getSize, h.ptr_eq, if_pos (by omega)]
    omega
  rw [finalize, hsize, if_pos (by omega)]
  exact ⟨rfl, h.at_.slice⟩

lemma wrote_initializeAt {mem : Memory} {buf size : ℕ} (h : mem.Holds buf size) :
    Wrote (initializeAt mem buf size) [] where
  at_ := by
    obtain ⟨hbase, hend⟩ := h
    unfold Memory.limit at hend
    refine ⟨mem.bytes.take (buf - mem.base), mem.bytes.drop (buf - mem.base), ?_, ?_⟩
    · rw [List.append_nil, List.take_append_drop]
      rfl
    · rw [List.length_take]
      simp only [initializeAt]
      omega
  ptr_eq := rfl
  end_le := by
    have hfits := mem.fits
    have hend := h.2
    unfold Memory.limit at *
    simp only [initializeAt]
    rw [addPtr_of_lt (by omega)]
    exact hend

end OscWriter

end MonoBus
