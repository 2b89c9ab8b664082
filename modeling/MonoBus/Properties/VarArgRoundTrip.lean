import MonoBus.Construction.VarArgs
import MonoBus.Properties.PacketCopies

/-!
# What is written for a format is read for it

`lv2_osc_writer_message_vararg` and `lv2_osc_reader_arg_varlist` are inverse to each other:
told the same format, the reader stores what the writer has been given
(`vararg_round_trip`).
-/

namespace MonoBus

open OscWriter

/-! ## Writing -/

/-- A character that is passed is not shortened any further. -/
lemma toInt8_toInt32 (c : Int8) : c.toInt32.toUInt32.toUInt8.toInt8 = c := by
  apply Int8.toBitVec_inj.mp
  have hext : BitVec.setWidth 8 (BitVec.signExtend 32 c.toBitVec) = c.toBitVec := by
    ext i hi
    have hlt : i < 32 := by omega
    rw [BitVec.getElem_setWidth, BitVec.getLsbD_signExtend, if_pos hi, decide_eq_true hlt,
      Bool.true_and]
    exact BitVec.getLsbD_eq_getElem hi
  exact hext

lemma toUInt8_toInt32 (c : UInt8) : c.toInt8.toInt32.toUInt32.toUInt8 = c := by
  have h := congrArg Int8.toUInt8 (toInt8_toInt32 c.toInt8)
  exact h

lemma exists_argVarlist_cons {x : OscArgument} {args : List VarArg} (h : x.PassedAs args)
    (hlt : x.encode.length < 2 ^ 31) :
    ∃ op, (∀ fmt rest, OscWriter.argVarlist (x.tag :: fmt) (args ++ rest) =
        andThen op (OscWriter.argVarlist fmt rest)) ∧ x.WrittenBy op := by
  have htype : OscType.ofByte x.tag = some x.oscType := by
    rw [OscArgument.tag, OscType.ofByte_code]
  have hcons : ∀ op, (∀ fmt rest w, OscWriter.argVarlist (x.tag :: fmt) (args ++ rest) w =
      andThen op (OscWriter.argVarlist fmt rest) w) → x.WrittenBy op → ∃ op,
        (∀ fmt rest, OscWriter.argVarlist (x.tag :: fmt) (args ++ rest) =
          andThen op (OscWriter.argVarlist fmt rest)) ∧ x.WrittenBy op :=
    fun op hop hwritten => ⟨op, fun fmt rest => funext (hop fmt rest), hwritten⟩
  cases x with
  | int32 v =>
      obtain rfl := h
      exact hcons (addInt32 v) (by simp [argVarlist, htype, OscArgument.oscType])
        (OscArgument.writtenBy_of_appends rfl (appends_htobe32 _))
  | float bits =>
      obtain rfl := h
      exact hcons (addFloat bits) (by simp [argVarlist, htype, OscArgument.oscType])
        (OscArgument.writtenBy_of_appends rfl (appends_htobe32 _))
  | string s =>
      obtain rfl := h
      exact hcons (addString s) (by simp [argVarlist, htype, OscArgument.oscType])
        (OscArgument.writtenBy_string hlt)
  | blob b =>
      obtain ⟨body, hbody, rfl⟩ := h
      exact hcons (addBlob (Int32.ofNat b.data.length) body)
        (by simp [argVarlist, htype, OscArgument.oscType]) (OscArgument.writtenBy_blob hbody)
  | true | false | nil | impulse =>
      obtain rfl := h
      exact hcons (fun w => .ok (some w))
        (by simp [argVarlist, htype, OscArgument.oscType, andThen])
        (OscArgument.writtenBy_nothing rfl rfl)
  | int64 v =>
      obtain rfl := h
      exact hcons (addInt64 v) (by simp [argVarlist, htype, OscArgument.oscType])
        (OscArgument.writtenBy_of_appends rfl (appends_htobe64 _))
  | double bits =>
      obtain rfl := h
      exact hcons (addDouble bits) (by simp [argVarlist, htype, OscArgument.oscType])
        (OscArgument.writtenBy_of_appends rfl (appends_htobe64 _))
  | timetag v =>
      obtain rfl := h
      exact hcons (addTimetag v) (by simp [argVarlist, htype, OscArgument.oscType])
        (OscArgument.writtenBy_of_appends rfl (appends_htobe64 _))
  | symbol s =>
      obtain rfl := h
      exact hcons (addSymbol s) (by simp [argVarlist, htype, OscArgument.oscType])
        (OscArgument.writtenBy_symbol hlt)
  | char v =>
      obtain ⟨c, rfl, rfl⟩ := h
      refine hcons (addChar c.toInt8) (by simp [argVarlist, htype, OscArgument.oscType])
        (@OscArgument.writtenBy_of_appends _ (.char c.toInt8.toInt32) _ ?_ (appends_htobe32 _))
      rw [OscArgument.CopiedTo, toInt8_toInt32]
  | midi port status data₁ data₂ =>
      obtain ⟨m, hslice, rfl⟩ := h
      exact hcons (addMidi 4 m) (by simp [argVarlist, htype, OscArgument.oscType])
        (OscArgument.writtenBy_midi hslice)
  | rgba red green blue alpha =>
      obtain rfl := h
      exact hcons (addRgba red green blue alpha) (by simp [argVarlist, htype, OscArgument.oscType])
        (OscArgument.writtenBy_rgba red green blue alpha)

lemma allWrittenBy_argVarlist {xs : List OscArgument} {argss : List (List VarArg)}
    (h : List.Forall₂ OscArgument.PassedAs xs argss)
    (hlt : (xs.flatMap OscArgument.encode).length < 2 ^ 31) :
    OscArgument.AllWrittenBy xs
      (OscWriter.argVarlist (xs.map OscArgument.tag) argss.flatten) := by
  induction h with
  | nil => exact OscArgument.allWrittenBy_nil
  | @cons x args xs argss hx _ ih =>
      rw [List.flatMap_cons, List.length_append] at hlt
      obtain ⟨op, hop, hwritten⟩ := exists_argVarlist_cons hx (by omega)
      rw [List.map_cons, List.flatten_cons, hop]
      exact hwritten.cons (ih (by omega))

/-! ## Reading it back -/

/-- What is stored for a copy is stored for the original. -/
lemma stored_of_copiedTo {mem : Memory} {x y : OscArgument} {values : List OscValue}
    (h : x.CopiedTo y) (hy : y.Stored mem values) : x.Stored mem values := by
  cases x with
  | blob b =>
      obtain ⟨b', hdata, rfl⟩ := h
      rwa [OscArgument.Stored, hdata] at hy
  | char v =>
      obtain rfl := h
      obtain rfl := hy
      rw [OscArgument.Stored, toUInt8_toInt32]
  | _ =>
      obtain rfl := h
      exact hy

lemma forall₂_stored_of_copiedTo {mem : Memory} {xs ys : List OscArgument}
    {vss : List (List OscValue)} (h : List.Forall₂ OscArgument.CopiedTo xs ys)
    (hys : List.Forall₂ (OscArgument.Stored mem) ys vss) :
    List.Forall₂ (OscArgument.Stored mem) xs vss := by
  induction h generalizing vss with
  | nil => exact hys
  | cons hxy _ ih =>
      cases hys with
      | cons hy hys => exact .cons (stored_of_copiedTo hxy hy) (ih hys)

lemma exists_read {path : CString} {args : List OscArgument} {mem : Memory} {a : ℕ}
    (hat : mem.At a (OscMessage.mk path args).encode) :
    ∃ r₁ r₂ r₃ vss,
      (OscReader.initializeAt mem a (OscMessage.mk path args).encode.length).getString =
        .ok (some (path.chars, r₁)) ∧
      r₁.getString =
        .ok (some ((OscMessage.typeString (args.map OscArgument.oscType)).chars, r₂)) ∧
      r₂.argVarlist (typeTags (args.map OscArgument.oscType)).chars =
        .ok (some (vss.flatten, r₃)) ∧
      List.Forall₂ (OscArgument.Stored mem) args vss ∧
      r₃.ptr = a + (OscMessage.mk path args).encode.length := by
  have hrest := OscReader.rest_initializeAt hat
  set r := OscReader.initializeAt mem a (OscMessage.mk path args).encode.length with hr
  have hptr : r.ptr = a := rfl
  rw [OscMessage.encode, OscMessage.header, List.append_assoc] at hrest
  have htypes := hrest.advance
  have hargs := htypes.advance
  rw [← List.append_nil (List.flatMap OscArgument.encode _)] at hargs
  obtain ⟨vss, hread, hstored⟩ := OscReader.argVarlist_encode args hargs
  rw [show args.map OscArgument.tag = (typeTags (args.map OscArgument.oscType)).chars from
    (List.map_map ..).symm] at hread
  refine ⟨_, _, _, vss, OscReader.getString_eq hrest, OscReader.getString_eq htypes, hread,
    hstored, ?_⟩
  rw [hargs.advance_ptr, htypes.advance_ptr, hrest.advance_ptr, hptr, OscMessage.encode,
    OscMessage.header, List.length_append, List.length_append]
  omega

/-- **Writer and reader of variadic arguments.**  A message of any arguments is written exactly if
it is shorter than the buffer.  What is handed out then reads as the path and the type tags, and
for these type tags the reader stores the values that have been passed, up to the end of the
message. -/
theorem vararg_round_trip (path : CString) (args : List OscArgument)
    (argss : List (List VarArg)) (hpass : List.Forall₂ OscArgument.PassedAs args argss)
    (hsize : (OscMessage.mk path args).encode.length < 2 ^ 31)
    (mem : Memory) (buf size : ℕ) (hbuf : mem.Holds buf size) :
    let types := args.map OscArgument.oscType
    let n := (OscMessage.mk path args).encode.length
    ∃ res, messageVararg path (typeTags types) argss.flatten (initializeAt mem buf size) =
        .ok res ∧
      (res.isSome = true ↔ n < size) ∧
      ∀ w, res = some w → w.finalize = some (buf, n) ∧
        ∃ r₁ r₂ r₃ vss,
          (OscReader.initializeAt w.mem buf n).getString = .ok (some (path.chars, r₁)) ∧
          r₁.getString = .ok (some ((OscMessage.typeString types).chars, r₂)) ∧
          r₂.argVarlist (typeTags types).chars = .ok (some (vss.flatten, r₃)) ∧
          List.Forall₂ (OscArgument.Stored w.mem) args vss ∧ r₃.ptr = buf + n := by
  intro types n
  have hlen : n = (OscMessage.header path types).length +
      (args.flatMap OscArgument.encode).length := List.length_append
  have hargs := allWrittenBy_argVarlist hpass (by omega)
  rw [show args.map OscArgument.tag = (typeTags types).chars from (List.map_map ..).symm] at hargs
  have happends : Appends (messageVararg path (typeTags types) argss.flatten) True n
      fun bs => ∃ ys, List.Forall₂ OscArgument.CopiedTo args ys ∧
        bs = (OscMessage.mk path ys).encode := appends_message hsize hargs
  have hpos : 0 < n := by
    have hpath := path.length_padded
    rw [hlen, OscMessage.header, List.length_append]
    omega
  obtain ⟨res, hres, hiff, hcopy⟩ := happends.run_initializeAt hpos hbuf
  refine ⟨res, hres, hiff.trans (iff_of_eq (true_and _)), fun w hw => ?_⟩
  obtain ⟨_, ⟨ys, hys, rfl⟩, hlen', hfinalize, hat⟩ := hcopy w hw
  obtain ⟨r₁, r₂, r₃, vss, hpath, htypes, hread, hstored, hptr⟩ := exists_read hat
  rw [hlen'] at hpath hptr
  rw [OscArgument.CopiedTo.map_oscType hys] at htypes hread
  exact ⟨hfinalize, r₁, r₂, r₃, vss, hpath, htypes, hread, forall₂_stored_of_copiedTo hys hstored,
    hptr⟩

/-! ## A message of four arguments -/

/-- An integer, a blob of one byte, a character, and an argument without a value. -/
def mixedArgs : List OscArgument := [.int32 3, .blob (.ofByte 5), .char 0x6f, .true]

def mixedBody : Ptr := ⟨.placed [5] (by decide), 4096⟩

/-- The arguments above are written into a buffer of 64 bytes. -/
theorem vararg_round_trip_mixed :
    ∃ w, messageVararg ⟨[0x2f, 0x61], by decide⟩ (typeTags [.int32, .blob, .char, .true])
        [.int32 3, .blob 1 mixedBody, .char 0x6f]
        (initializeAt (.placed (List.replicate 64 0) (by decide)) 4096 64) = .ok (some w) ∧
      w.finalize = some (4096, 28) := by
  have hpass : List.Forall₂ OscArgument.PassedAs mixedArgs
      [[.int32 3], [.blob 1 mixedBody], [.char 0x6f], []] :=
    .cons rfl (.cons ⟨mixedBody, rfl, rfl⟩ (.cons ⟨0x6f, rfl, rfl⟩ (.cons rfl .nil)))
  obtain ⟨res, hres, hiff, hread⟩ := vararg_round_trip ⟨[0x2f, 0x61], by decide⟩ mixedArgs _ hpass
    (by decide) (.placed (List.replicate 64 0) (by decide)) 4096 64 (by decide)
  obtain ⟨w, rfl⟩ := Option.isSome_iff_exists.mp (hiff.mpr (by decide))
  exact ⟨w, hres, (hread w rfl).1⟩

end MonoBus
