import MonoBus.Construction.PacketCopy

/-!
# Variadic arguments (`lv2_osc_writer_arg_varlist`, `lv2_osc_reader_arg_varlist`)

The writer takes the values of a message from its `va_list`, and the reader stores what it reads
through the pointers in its own; both are told by a format how many there are, and of which
types.  `PassedAs` and `Stored` relate the entries of the two lists to the arguments.
-/

namespace MonoBus

namespace OscReader

/-! ## The source -/

/-- The `switch` of `lv2_osc_reader_arg_varlist`: what is stored, one value for each pointer. -/
def getVar (type : UInt8) (r : OscReader) : Run (Option (List OscValue × OscReader)) := do
  match OscType.ofByte type with
  | some .int32 => return (← r.getInt32).map fun (i, r) => ([.i i], r)
  | some .float => return (← r.getFloat).map fun (f, r) => ([.f f], r)
  | some .string => return (← r.getString).map fun (s, r) => ([.s s], r)
  | some .blob => return (← r.getBlob).map fun ((len, b), r) => ([.i len, .b b], r)
  | some .int64 => return (← r.getInt64).map fun (h, r) => ([.h h], r)
  | some .double => return (← r.getDouble).map fun (d, r) => ([.d d], r)
  | some .timetag => return (← r.getTimetag).map fun (t, r) => ([.t t], r)
  | some .midi => return r.getMidi.map fun (m, r) => ([.m m], r)
  | some .symbol => return (← r.getSymbol).map fun (s, r) => ([.S s], r)
  | some .char => return (← r.getChar).map fun (c, r) => ([.c c], r)
  | some .rgba =>
      return (← r.getRgba).map fun ((red, green, blue, alpha), r) =>
        ([.c red, .c green, .c blue, .c alpha], r)
  | some .true | some .false | some .nil | some .impulse | none => return some ([], r)

/-- `lv2_osc_reader_arg_varlist`. -/
def argVarlist : List UInt8 → OscReader → Run (Option (List OscValue × OscReader))
  | [], r => return some ([], r)
  | type :: fmt, r => do
      match ← r.getVar type with
      | none => return none
      | some (values, r) =>
          return (← argVarlist fmt r).map fun (rest, r) => (values ++ rest, r)

end OscReader

/-! ## Values and arguments -/

namespace OscArgument

/-- The entries of the `va_list` that the writer takes for an argument. -/
def PassedAs : OscArgument → List VarArg → Prop
  | .int32 v, args => args = [.int32 v]
  | .float bits, args => args = [.float bits]
  | .string s, args => args = [.string s]
  | .blob b, args => ∃ body : Ptr, body.slice b.data.length = .ok b.data ∧
      args = [.blob (Int32.ofNat b.data.length) body]
  | .true, args | .false, args | .nil, args | .impulse, args => args = []
  | .int64 v, args => args = [.int64 v]
  | .double bits, args => args = [.double bits]
  | .timetag v, args => args = [.timetag v]
  | .symbol s, args => args = [.symbol s]
  | .char v, args => ∃ c : Int32, c.toInt8.toInt32 = v ∧ args = [.char c]
  | .midi port status data₁ data₂, args => ∃ m : Ptr,
      m.slice 4 = .ok [port, status, data₁, data₂] ∧ args = [.midi 4 m]
  | .rgba red green blue alpha, args => args = [.rgba red green blue alpha]

/-- The values that the reader stores for an argument.  Of blobs and MIDI messages it hands out
the address. -/
def Stored (mem : Memory) : OscArgument → List OscValue → Prop
  | .int32 v, values => values = [.i v]
  | .float bits, values => values = [.f bits]
  | .string s, values => values = [.s s.chars]
  | .blob b, values => ∃ addr, mem.slice addr b.data.length = .ok b.data ∧
      values = [.i (Int32.ofNat b.data.length), .b addr]
  | .true, values | .false, values | .nil, values | .impulse, values => values = []
  | .int64 v, values => values = [.h v]
  | .double bits, values => values = [.d bits]
  | .timetag v, values => values = [.t v]
  | .symbol s, values => values = [.S s.chars]
  | .char v, values => values = [.c v.toUInt32.toUInt8]
  | .midi port status data₁ data₂, values => ∃ addr,
      mem.slice addr 4 = .ok [port, status, data₁, data₂] ∧ values = [.m addr]
  | .rgba red green blue alpha, values => values = [.c red, .c green, .c blue, .c alpha]

end OscArgument

/-! ## Reading them -/

namespace OscReader

variable {r : OscReader} {rest : List UInt8}

lemma Rest.advance_zero (h : r.Rest rest) : r.advance 0 = r := by
  have := h.ptr_le
  rw [OscReader.advance, addPtr_of_lt (by omega)]
  rfl

lemma getVar_encode {x : OscArgument} (h : r.Rest (x.encode ++ rest)) :
    ∃ values, r.getVar x.tag = .ok (some (values, r.advance x.encode.length)) ∧
      x.Stored r.mem values := by
  have htype : OscType.ofByte x.tag = some x.oscType := by
    rw [OscArgument.tag, OscType.ofByte_code]
  have hzero := h.advance_zero
  have hat := h.at_.left
  unfold getVar
  rw [htype]
  cases x with
  | int32 v => exact ⟨_, by simp [OscArgument.oscType, getInt32_eq h, OscArgument.encode], rfl⟩
  | float bits =>
      exact ⟨_, by simp [OscArgument.oscType, getFloat, be32toh_eq h, OscArgument.encode], rfl⟩
  | string s => exact ⟨_, by simp [OscArgument.oscType, getString_eq h, OscArgument.encode], rfl⟩
  | blob b =>
      have hbody := hat.right
      rw [length_be32] at hbody
      exact ⟨_, by simp [OscArgument.oscType, getBlob_eq h], r.ptr + 4, hbody.left.slice, rfl⟩
  | true | false | nil | impulse =>
      exact ⟨_, by simp [OscArgument.oscType, OscArgument.encode, hzero], rfl⟩
  | int64 v =>
      exact ⟨_, by simp [OscArgument.oscType, getInt64, be64toh_eq h, OscArgument.encode], rfl⟩
  | double bits =>
      exact ⟨_, by simp [OscArgument.oscType, getDouble, be64toh_eq h, OscArgument.encode], rfl⟩
  | timetag v =>
      exact ⟨_, by simp [OscArgument.oscType, getTimetag, be64toh_eq h, OscArgument.encode], rfl⟩
  | symbol s =>
      exact ⟨_, by simp [OscArgument.oscType, getSymbol, getString_eq h, OscArgument.encode], rfl⟩
  | char v =>
      exact ⟨_, by simp [OscArgument.oscType, getChar, getInt32_eq h, OscArgument.encode], rfl⟩
  | midi port status data₁ data₂ =>
      exact ⟨_, by simp [OscArgument.oscType, getMidi_eq h, OscArgument.encode], r.ptr,
        hat.slice, rfl⟩
  | rgba red green blue alpha =>
      exact ⟨_, by simp [OscArgument.oscType, getRgba_eq h, OscArgument.encode], rfl⟩

lemma argVarlist_encode : ∀ (xs : List OscArgument) {r : OscReader},
    r.Rest (xs.flatMap OscArgument.encode ++ rest) →
    ∃ vss, r.argVarlist (xs.map OscArgument.tag) =
        .ok (some (vss.flatten, r.advance (xs.flatMap OscArgument.encode).length)) ∧
      List.Forall₂ (OscArgument.Stored r.mem) xs vss := by
  intro xs
  induction xs with
  | nil =>
      intro r h
      exact ⟨[], by simp [argVarlist, h.advance_zero], .nil⟩
  | cons x xs ih =>
      intro r h
      rw [List.flatMap_cons, List.append_assoc] at h
      obtain ⟨values, hget, hvalues⟩ := getVar_encode h
      obtain ⟨vss, hrest, hvss⟩ := ih h.advance
      refine ⟨values :: vss, ?_, .cons hvalues hvss⟩
      rw [List.map_cons, argVarlist, hget, Run.ok_bind]
      simp only [hrest, Run.ok_bind, Option.map_some, Run.pure_eq, List.flatten_cons,
        h.advance_advance, List.flatMap_cons]

end OscReader

end MonoBus
