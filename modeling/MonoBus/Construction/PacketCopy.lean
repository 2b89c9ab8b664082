import Mathlib.Data.List.TakeWhile
import MonoBus.Construction.PacketTree
import MonoBus.Construction.WriterFrames

/-!
# Copying a packet from a reader to a writer (`_clone` of `test/osc_test.c`)

`_clone` goes through everything the reader can read and the writer can write: bundles in
bundles, and messages with arguments of all types.  A failed `assert` is a writer that is not
there.

`OscContent` is a packet with typed arguments.  `CopiedTo` says what a copy may differ in: the
bytes behind a blob are not copied, and a character goes through a signed `char`.
-/

namespace MonoBus

/-! ## The source -/

/-- What a C string from memory is for `strlen`. -/
def CString.ofChars (chars : List UInt8) : CString where
  chars := chars.takeWhile (· ≠ 0)
  no_nul h := by simpa using List.mem_takeWhile_imp h

lemma CString.ofChars_chars (s : CString) : CString.ofChars s.chars = s := by
  have hall : s.chars.takeWhile (· ≠ 0) = s.chars := by
    refine List.takeWhile_eq_self_iff.mpr fun c hc => decide_eq_true ?_
    rintro rfl
    exact s.no_nul hc
  cases s
  simp only [CString.ofChars, CString.mk.injEq]
  exact hall

open OscWriter in
/-- The `switch` of `_clone`. -/
def cloneArg (mem : Memory) (arg : OscArg) (writer : OscWriter) : Run (Option OscWriter) :=
  match OscType.ofByte arg.tag, arg.val with
  | some .int32, .i v => addInt32 v writer
  | some .float, .f bits => addFloat bits writer
  | some .string, .s chars => addString (.ofChars chars) writer
  | some .blob, .b addr => addBlob arg.size ⟨mem, addr⟩ writer
  | some .int64, .h v => addInt64 v writer
  | some .double, .d bits => addDouble bits writer
  | some .timetag, .t v => addTimetag v writer
  | some .midi, .m addr => addMidi arg.size ⟨mem, addr⟩ writer
  | some .symbol, .S chars => addSymbol (.ofChars chars) writer
  | some .char, .c v => addChar v.toInt8 writer
  | some .rgba, .rgba r g b a => addRgba r g b a writer
  | some .true, _ | some .false, _ | some .nil, _ | some .impulse, _ | none, _ =>
      .ok (some writer)
  -- the member of the union that is read is the one that was written
  | _, _ => .error .outOfRange

/-- `OSC_READER_MESSAGE_ITERATE` with that body, with as much fuel as there are type tags. -/
def cloneArgs : ℕ → OscReader → OscArg → OscWriter → Run (Option OscWriter)
  | fuel, reader, arg, writer =>
      if reader.argIsEnd arg then .ok (some writer)
      else match fuel with
        | 0 => .error .outOfFuel
        | fuel + 1 => do
            match ← cloneArg reader.mem arg writer with
            | none => return none
            | some writer =>
                match ← reader.argNext arg with
                | none => return some writer
                | some (arg, reader) => cloneArgs fuel reader arg writer

mutual

/-- `_clone`. -/
def clone : ℕ → OscReader → OscWriter → ℕ → Run (Option OscWriter)
  | 0, _, _, _ => .error .outOfFuel
  | fuel + 1, reader, writer, size => do
      if ← reader.isBundle then
        match ← reader.itemBegin size with
        | none => return none
        | some (itm, reader) =>
            OscWriter.inBundle itm.timetag (fun writer => cloneItems fuel reader itm writer) writer
      else if ← reader.isMessage then
        match ← reader.argBegin size with
        | none => return none
        | some (arg, reader) =>
            OscWriter.andThen (OscWriter.addPath (.ofChars arg.path))
              (OscWriter.andThen (OscWriter.addFormat (.ofChars arg.type))
                (cloneArgs arg.type.length reader arg)) writer
      else
        return some writer

/-- `OSC_READER_BUNDLE_ITERATE` with the body `_clone` gives it. -/
def cloneItems : ℕ → OscReader → OscItem → OscWriter → Run (Option OscWriter)
  | 0, _, _, _ => .error .outOfFuel
  | fuel + 1, reader, itm, writer =>
      if reader.itemIsEnd itm then .ok (some writer)
      else do
        let size := sizeOfInt32 itm.size
        let reader2 := OscReader.initializeAt reader.mem itm.body size
        match ← OscWriter.inItem (fun writer => clone fuel reader2 writer size) writer with
        | none => return none
        | some writer =>
            match ← reader.itemNext itm with
            | none => return some writer
            | some (itm, reader) => cloneItems fuel reader itm writer

end

/-! ## Packets with their arguments -/

/-- The type tags of a message, without the comma. -/
def typeTags (types : List OscType) : CString where
  chars := types.map OscType.code
  no_nul h := by
    obtain ⟨t, -, ht⟩ := List.mem_map.mp h
    exact t.code_ne_zero ht

/-- The path of a message, a slash in front of its name. -/
def slash (name : CString) : CString where
  chars := '/'.toUInt8 :: name.chars
  no_nul h := by
    rcases List.mem_cons.mp h with h | h
    · exact absurd h (by decide)
    · exact name.no_nul h

/-- A packet with the names and arguments of its messages. -/
inductive OscContent
  | message (name : CString) (args : List OscArgument)
  | bundle (timetag : UInt64) (items : List OscContent)

namespace OscContent

/-- The message of a name and arguments. -/
def toMessage (name : CString) (args : List OscArgument) : OscMessage := ⟨slash name, args⟩

mutual

/-- The tree of the packet. -/
def tree : OscContent → OscPacket
  | .message name args => .message (toMessage name args).encode.tail
  | .bundle timetag items => .bundle timetag (trees items)

/-- The trees of the items of a bundle. -/
def trees : List OscContent → List OscPacket
  | [] => []
  | c :: cs => tree c :: trees cs

end

/-- The bytes of a packet. -/
def encode (c : OscContent) : List UInt8 := c.tree.encode

/-- The bytes of the items of a bundle. -/
def encodeItems (cs : List OscContent) : List UInt8 := OscPacket.encodeItems (trees cs)

mutual

/-- No bundle is empty. -/
def HasItems : OscContent → Prop
  | .message _ _ => True
  | .bundle _ items => items ≠ [] ∧ AllHaveItems items

/-- No bundle in the items is empty. -/
def AllHaveItems : List OscContent → Prop
  | [] => True
  | c :: cs => HasItems c ∧ AllHaveItems cs

end

lemma encode_message (name : CString) (args : List OscArgument) :
    (message name args).encode = (toMessage name args).encode := by
  rw [encode, tree, OscPacket.encode]
  rfl

lemma encode_bundle (timetag : UInt64) (items : List OscContent) :
    (bundle timetag items).encode =
      OscReader.bundleLiteral ++ (be64 timetag ++ encodeItems items) := by
  rw [encode, tree, OscPacket.encode, encodeItems]

lemma encodeItems_nil : encodeItems [] = [] := by
  rw [encodeItems, trees, OscPacket.encodeItems]

lemma encodeItems_cons (c : OscContent) (cs : List OscContent) :
    encodeItems (c :: cs) =
      be32 (UInt32.ofNat c.encode.length) ++ (c.encode ++ encodeItems cs) := by
  rw [encodeItems, trees, OscPacket.encodeItems, encode, encodeItems]

end OscContent

/-! ## What a copy keeps -/

/-- An argument and its copy. -/
def OscArgument.CopiedTo : OscArgument → OscArgument → Prop
  | .blob b, y => ∃ b', b'.data = b.data ∧ y = .blob b'
  | .char v, y => y = .char v.toUInt32.toUInt8.toInt8.toInt32
  | x, y => y = x

lemma OscArgument.CopiedTo.oscType_eq {x y : OscArgument} (h : x.CopiedTo y) :
    y.oscType = x.oscType := by
  cases x with
  | blob b =>
      obtain ⟨b', -, rfl⟩ := h
      rfl
  | _ =>
      obtain rfl := h
      rfl

lemma OscArgument.CopiedTo.map_oscType {xs ys : List OscArgument}
    (h : List.Forall₂ OscArgument.CopiedTo xs ys) :
    ys.map OscArgument.oscType = xs.map OscArgument.oscType := by
  induction h with
  | nil => rfl
  | cons hxy _ ih => rw [List.map_cons, List.map_cons, hxy.oscType_eq, ih]

namespace OscContent

mutual

/-- A packet and its copy. -/
def CopiedTo : OscContent → OscContent → Prop
  | .message name args, .message name' args' =>
      name' = name ∧ List.Forall₂ OscArgument.CopiedTo args args'
  | .bundle timetag items, .bundle timetag' items' => timetag' = timetag ∧ AllCopiedTo items items'
  | _, _ => False

/-- The items of a bundle and their copies. -/
def AllCopiedTo : List OscContent → List OscContent → Prop
  | [], [] => True
  | c :: cs, c' :: cs' => CopiedTo c c' ∧ AllCopiedTo cs cs'
  | _, _ => False

end

end OscContent

end MonoBus
