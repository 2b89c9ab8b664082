import MonoBus.Construction.PacketCopy

/-!
# What is read can be written, and is the same packet
-/

namespace MonoBus

open OscWriter

/-! ## Copies of arguments -/

namespace OscArgument

/-- The operation writes a copy of the argument. -/
def WrittenBy (x : OscArgument) (op : OscWriter → Run (Option OscWriter)) : Prop :=
  Appends op True x.encode.length fun bs => ∃ y, x.CopiedTo y ∧ bs = y.encode

def AllWrittenBy (xs : List OscArgument) (op : OscWriter → Run (Option OscWriter)) : Prop :=
  Appends op True (xs.flatMap encode).length fun bs =>
    ∃ ys, List.Forall₂ CopiedTo xs ys ∧ bs = ys.flatMap encode

variable {x y : OscArgument} {xs : List OscArgument}
  {op op' : OscWriter → Run (Option OscWriter)}

lemma writtenBy_of_appends (hy : x.CopiedTo y)
    (h : Appends op True x.encode.length (· = y.encode)) : x.WrittenBy op :=
  h.mono Iff.rfl fun _ hbs => ⟨y, hy, hbs⟩

lemma writtenBy_nothing (hx : x.CopiedTo x) (hnil : x.encode = []) :
    x.WrittenBy fun w => .ok (some w) := by
  refine writtenBy_of_appends hx ?_
  rw [hnil]
  exact appends_nothing

lemma writtenBy_string {s : CString} (hlt : s.padded.length < 2 ^ 31) :
    (string s).WrittenBy (addString s) := by
  have hlen := s.length_padded
  exact writtenBy_of_appends rfl (appends_addString s (by omega))

lemma writtenBy_symbol {s : CString} (hlt : s.padded.length < 2 ^ 31) :
    (symbol s).WrittenBy (addSymbol s) := by
  have hlen := s.length_padded
  exact writtenBy_of_appends rfl (appends_addString s (by omega))

/-- A blob is written without its padding, so its copy may have another one. -/
lemma writtenBy_blob {b : OscBlob} {body : Ptr} (hbody : body.slice b.data.length = .ok b.data) :
    (blob b).WrittenBy (addBlob (Int32.ofNat b.data.length) body) := by
  unfold WrittenBy
  rw [encode, List.length_append, length_be32, b.length_padded]
  refine (appends_addBlob b.data_lt hbody).mono Iff.rfl ?_
  rintro bs ⟨b', hdata, hbs⟩
  exact ⟨blob b', ⟨b', hdata, rfl⟩, hbs⟩

lemma writtenBy_midi {port status data₁ data₂ : UInt8} {m : Ptr}
    (hslice : m.slice 4 = .ok [port, status, data₁, data₂]) :
    (midi port status data₁ data₂).WrittenBy (addMidi 4 m) :=
  writtenBy_of_appends rfl (appends_addMidi rfl hslice)

lemma writtenBy_rgba (red green blue alpha : UInt8) :
    (rgba red green blue alpha).WrittenBy (addRgba red green blue alpha) :=
  writtenBy_of_appends rfl (appends_addRgba red green blue alpha)

lemma allWrittenBy_nil : AllWrittenBy [] fun w => .ok (some w) :=
  appends_nothing.mono Iff.rfl fun _ hbs => ⟨[], .nil, hbs⟩

lemma WrittenBy.cons (h : x.WrittenBy op) (h' : AllWrittenBy xs op') :
    AllWrittenBy (x :: xs) (andThen op op') := by
  unfold AllWrittenBy
  rw [List.flatMap_cons, List.length_append]
  refine (Appends.andThen h h').mono (by simp) ?_
  rintro _ ⟨_, _, rfl, ⟨y, hy, rfl⟩, ys, hys, rfl⟩
  exact ⟨y :: ys, .cons hy hys, List.flatMap_cons.symm⟩

end OscArgument

/-! ## The arguments of a message -/

/-- An argument that has been read is written as its copy. -/
lemma writtenBy_cloneArg {mem : Memory} {a : ℕ} {x : OscArgument} {arg : OscArg}
    (htag : arg.tag = x.tag) (hat : mem.At a x.encode) (hlt : x.encode.length < 2 ^ 31) :
    x.WrittenBy (cloneArg mem (x.loadInto arg a)) := by
  have htype : OscType.ofByte (x.loadInto arg a).tag = some x.oscType := by
    rw [OscArgument.loadInto_tag, htag, OscArgument.tag, OscType.ofByte_code]
  unfold cloneArg
  rw [htype]
  cases x with
  | int32 v => exact OscArgument.writtenBy_of_appends rfl (appends_htobe32 _)
  | float bits => exact OscArgument.writtenBy_of_appends rfl (appends_htobe32 _)
  | string s =>
      have hop : addString (.ofChars s.chars) = addString s := congrArg addString s.ofChars_chars
      have h := OscArgument.writtenBy_string hlt
      rw [← hop] at h
      exact h
  | blob b =>
      have hbody := hat.right
      rw [length_be32] at hbody
      exact @OscArgument.writtenBy_blob b ⟨mem, a + 4⟩ hbody.left.slice
  | int64 v => exact OscArgument.writtenBy_of_appends rfl (appends_htobe64 _)
  | double bits => exact OscArgument.writtenBy_of_appends rfl (appends_htobe64 _)
  | timetag v => exact OscArgument.writtenBy_of_appends rfl (appends_htobe64 _)
  | symbol s =>
      have hop : addSymbol (.ofChars s.chars) = addSymbol s := congrArg addSymbol s.ofChars_chars
      have h := OscArgument.writtenBy_symbol hlt
      rw [← hop] at h
      exact h
  | char v => exact OscArgument.writtenBy_of_appends rfl (appends_htobe32 _)
  | midi port status data₁ data₂ => 
      exact @OscArgument.writtenBy_midi port status data₁ data₂ ⟨mem, a⟩ hat.slice
  | rgba red green blue alpha => exact OscArgument.writtenBy_rgba red green blue alpha
  | true | false | nil | impulse => exact OscArgument.writtenBy_nothing rfl rfl

lemma cloneArgs_succ {fuel : ℕ} {r r' : OscReader} {arg arg' : OscArg}
    (hgo : r.argIsEnd arg = false) (hnext : r.argNext arg = .ok (some (arg', r'))) :
    cloneArgs (fuel + 1) r arg = andThen (cloneArg r.mem arg) (cloneArgs fuel r' arg') := by
  funext writer
  rw [cloneArgs, hgo]
  simp only [Bool.false_eq_true, if_false, hnext, Run.ok_bind]
  rfl

lemma cloneArgs_of_nil {fuel : ℕ} {r : OscReader} {arg : OscArg} (htype : arg.type = []) :
    cloneArgs fuel r arg = fun writer => .ok (some writer) := by
  have hstop := @OscReader.argIsEnd_of_nil r arg htype
  funext writer
  cases fuel with
  | zero => rw [cloneArgs, if_pos hstop]
  | succ fuel => rw [cloneArgs, if_pos hstop]

/-- **The loop**, entered with the first argument loaded. -/
lemma allWrittenBy_cloneArgs :
    ∀ (xs : List OscArgument) {x : OscArgument} {a : ℕ} {r : OscReader} {arg : OscArg},
      arg.type = (x :: xs).map OscArgument.tag → r.mem.At a x.encode →
      r.Rest (xs.flatMap OscArgument.encode) → arg.end_ = r.end_ →
      ((x :: xs).flatMap OscArgument.encode).length < 2 ^ 31 →
      OscArgument.AllWrittenBy (x :: xs) (cloneArgs (xs.length + 1) r (x.loadInto arg a)) := by
  intro xs
  induction xs with
  | nil =>
      intro x a r arg htype hat hrest hend hlt
      have htag : arg.tag = x.tag := by simp [OscArg.tag, htype]
      have hgo := OscReader.argIsEnd_loadInto htag hrest hend a
      have hnext : r.argNext (x.loadInto arg a) =
          .ok (some ({ x.loadInto arg a with type := [] }, r)) := by
        simp only [OscReader.argNext, OscArgument.loadInto_type, htype, List.map_cons,
          List.map_nil, List.tail_cons]
        exact OscReader.argRaw_of_nil rfl
      rw [List.flatMap_singleton] at hlt
      rw [List.length_nil, cloneArgs_succ hgo hnext, cloneArgs_of_nil rfl]
      exact (writtenBy_cloneArg htag hat hlt).cons OscArgument.allWrittenBy_nil
  | cons z zs ih =>
      intro x a r arg htype hat hrest hend hlt
      have htag : arg.tag = x.tag := by simp [OscArg.tag, htype]
      rw [List.flatMap_cons, List.length_append] at hlt
      rw [List.flatMap_cons] at hrest
      have hgo := OscReader.argIsEnd_loadInto htag hrest hend a
      -- the record the next round finds, before its argument is loaded
      set arg₁ : OscArg := { x.loadInto arg a with type := arg.type.tail } with harg₁
      have htype₁ : arg₁.type = (z :: zs).map OscArgument.tag := by simp [harg₁, htype]
      have hend₁ : arg₁.end_ = r.end_ := by simp [harg₁, hend]
      have hnext : r.argNext (x.loadInto arg a) =
          .ok (some (z.loadInto arg₁ r.ptr, r.advance z.encode.length)) := by
        rw [OscReader.argNext, OscArgument.loadInto_type, ← harg₁,
          OscReader.argRaw_encode (by simp [OscArg.tag, htype₁]) hrest]
      have hrun := ih htype₁ (show (r.advance z.encode.length).mem.At r.ptr z.encode from
        hrest.at_.left) hrest.advance hend₁ (by omega)
      rw [List.length_cons, cloneArgs_succ hgo hnext]
      exact (writtenBy_cloneArg htag hat (by omega)).cons hrun

/-! ## Messages -/

lemma appends_message {path : CString} {args : List OscArgument}
    {op : OscWriter → Run (Option OscWriter)}
    (hlt : (OscMessage.mk path args).encode.length < 2 ^ 31)
    (hop : OscArgument.AllWrittenBy args op) :
    Appends (andThen (addPath path)
        (andThen (addFormat (typeTags (args.map OscArgument.oscType))) op)) True
      (OscMessage.mk path args).encode.length
      fun bs => ∃ ys, List.Forall₂ OscArgument.CopiedTo args ys ∧
        bs = (OscMessage.mk path ys).encode := by
  rw [OscMessage.encode, OscMessage.header, List.length_append, List.length_append] at hlt
  rw [OscMessage.encode, List.length_append]
  dsimp only at hlt ⊢
  set types := args.map OscArgument.oscType with htypes
  have hpath := path.length_padded
  have hlen := (OscMessage.typeString types).length_padded
  have htags : (OscMessage.typeString types).chars.length = (typeTags types).chars.length + 1 :=
    rfl
  refine (Appends.message hop types (by omega) rfl (by omega)).mono Iff.rfl ?_
  rintro _ ⟨_, ⟨ys, hys, rfl⟩, rfl⟩
  refine ⟨ys, hys, ?_⟩
  rw [OscMessage.encode, OscArgument.CopiedTo.map_oscType hys, ← htypes]

namespace OscContent

variable {mem : Memory} {a : ℕ}

lemma length_encode_pos (c : OscContent) : 0 < c.encode.length := by
  cases c with
  | message name args =>
      rw [encode, tree, OscPacket.encode]
      simp
  | bundle timetag items =>
      rw [encode_bundle]
      simp [OscReader.bundleLiteral]

lemma exists_argRaw {path : CString} {args : List OscArgument} {r : OscReader}
    (hrest : r.Rest (args.flatMap OscArgument.encode))
    (hlt : (args.flatMap OscArgument.encode).length < 2 ^ 31) :
    ∃ arg r', r.argRaw (OscReader.headerArg path (args.map OscArgument.oscType) r.end_) =
        .ok (some (arg, r')) ∧
      arg.path = path.chars ∧ arg.type = (args.map OscArgument.oscType).map OscType.code ∧
      OscArgument.AllWrittenBy args (cloneArgs arg.type.length r' arg) := by
  cases args with
  | nil =>
      refine ⟨_, r, OscReader.argRaw_of_nil rfl, rfl, rfl, ?_⟩
      rw [cloneArgs_of_nil rfl]
      exact OscArgument.allWrittenBy_nil
  | cons x xs =>
      set arg₀ := OscReader.headerArg path ((x :: xs).map OscArgument.oscType) r.end_ with harg₀
      have htype₀ : arg₀.type = (x :: xs).map OscArgument.tag := by
        simp [harg₀, OscReader.headerArg, OscArgument.tag]
      have hrest' := hrest
      rw [List.flatMap_cons] at hrest'
      have hargs := allWrittenBy_cloneArgs xs htype₀
        (show (r.advance x.encode.length).mem.At r.ptr x.encode from hrest'.at_.left)
        hrest'.advance rfl hlt
      refine ⟨_, _, OscReader.argRaw_encode (by simp [OscArg.tag, htype₀]) hrest', ?_, ?_, ?_⟩
      · simp [harg₀, OscReader.headerArg]
      · simp [harg₀, OscReader.headerArg]
      · have hfuel : (x.loadInto arg₀ r.ptr).type.length = xs.length + 1 := by simp [htype₀]
        rwa [hfuel]

lemma appends_clone_message (fuel : ℕ) {name : CString} {args : List OscArgument}
    (hlt : (message name args).encode.length < 2 ^ 31)
    (hat : mem.At a (message name args).encode) :
    Appends (fun w => clone (fuel + 1)
        (OscReader.initializeAt mem a (message name args).encode.length) w
        (message name args).encode.length) True (message name args).encode.length
      fun bs => ∃ c', (message name args).CopiedTo c' ∧ bs = c'.encode := by
  have hslash : mem.At a ('/'.toUInt8 :: (toMessage name args).encode.tail) := by
    rwa [encode, tree, OscPacket.encode] at hat
  rw [encode_message] at hlt hat ⊢
  have hrest := OscReader.rest_initializeAt hat
  set r := OscReader.initializeAt mem a (toMessage name args).encode.length with hr
  have hbundle : r.isBundle = .ok false := isBundle_of_ne hslash (by decide)
  have hmessage : r.isMessage = .ok true := isMessage_eq hslash
  have hlen : (toMessage name args).encode.length =
      (OscMessage.header (slash name) (args.map OscArgument.oscType)).length +
        (args.flatMap OscArgument.encode).length := List.length_append
  obtain ⟨arg, r', hraw, hpath, htype, hargs⟩ := @exists_argRaw (slash name) args _
    hrest.advance (by omega)
  have hpath' : CString.ofChars arg.path = slash name := by
    rw [hpath]
    exact (slash name).ofChars_chars
  have htype' : CString.ofChars arg.type = typeTags (args.map OscArgument.oscType) := by
    rw [htype]
    exact (typeTags _).ofChars_chars
  have hbegin : r.argBegin (toMessage name args).encode.length = .ok (some (arg, r')) :=
    (OscReader.argBegin_header hrest).trans hraw
  have hclone : (fun w => clone (fuel + 1) r w (toMessage name args).encode.length) =
      andThen (addPath (.ofChars arg.path)) (andThen (addFormat (.ofChars arg.type))
        (cloneArgs arg.type.length r' arg)) := by
    funext w
    simp only [clone, hbundle, hmessage, hbegin, Run.ok_bind, Bool.false_eq_true, if_false,
      if_true]
  rw [hclone, hpath', htype']
  refine (appends_message hlt hargs).mono Iff.rfl ?_
  rintro _ ⟨ys, hys, rfl⟩
  exact ⟨message name ys, ⟨rfl, hys⟩, (encode_message name ys).symm⟩

/-! ## Bundles -/

/-- What `_clone` does with the items from the next one on. -/
def resumeItems (fuel : ℕ) (next : Option (OscItem × OscReader)) (writer : OscWriter) :
    Run (Option OscWriter) :=
  match next with
  | none => .ok (some writer)
  | some (itm, reader) => cloneItems fuel reader itm writer

lemma resumeItems_succ {fuel : ℕ} {r r₂ : OscReader} {itm : OscItem}
    {next : Option (OscItem × OscReader)} (hgo : r.itemIsEnd itm = false)
    (hnext : r.itemNext itm = .ok next)
    (hreader : OscReader.initializeAt r.mem itm.body (sizeOfInt32 itm.size) = r₂) :
    resumeItems (fuel + 1) (some (itm, r)) =
      andThen (inItem fun w => clone fuel r₂ w (sizeOfInt32 itm.size)) (resumeItems fuel next) := by
  funext writer
  rw [resumeItems, cloneItems, hgo, ← hreader]
  simp only [Bool.false_eq_true, if_false, hnext, Run.ok_bind]
  cases next <;> rfl

lemma resumeItems_item {fuel : ℕ} {r : OscReader} {itm : OscItem} {c : OscContent}
    {rest : List UInt8} {next : Option (OscItem × OscReader)} (hlt : c.encode.length < 2 ^ 31)
    (hbody : r.Rest (c.encode ++ rest)) (hsize : itm.size = Int32.ofNat c.encode.length)
    (hend : itm.end_ = r.end_) (hnext : (r.advance c.encode.length).itemRaw itm = .ok next) :
    resumeItems (fuel + 1) (some (itm, r)) =
      andThen (inItem fun w => clone fuel (OscReader.initializeAt r.mem itm.body c.encode.length) w
        c.encode.length) (resumeItems fuel next) := by
  have hsize' : sizeOfInt32 itm.size = c.encode.length := hsize ▸ sizeOfInt32_ofNat hlt
  have hstop : r.itemIsEnd itm = false := by
    have hle := hbody.end_eq
    simp only [OscReader.itemIsEnd, hend, decide_eq_false_iff_not]
    omega
  rw [resumeItems_succ hstop (by rw [OscReader.itemNext, hsize']; exact hnext) rfl, hsize']

section Bundle

variable {r r' : OscReader} {itm : OscItem} {fuel n : ℕ} (hbundle : r.isBundle = .ok true)
include hbundle

lemma clone_of_itemBegin_none (hbegin : r.itemBegin n = .ok none) :
    (fun w => clone (fuel + 1) r w n) = fun _ => .ok none := by
  funext w
  simp only [clone, hbundle, hbegin, Run.ok_bind, if_true, Run.pure_eq]

lemma clone_of_itemBegin (hbegin : r.itemBegin n = .ok (some (itm, r'))) :
    (fun w => clone (fuel + 1) r w n) =
      inBundle itm.timetag (resumeItems fuel (some (itm, r'))) := by
  funext w
  simp only [clone, hbundle, hbegin, Run.ok_bind, if_true]
  rfl

end Bundle

lemma length_encodeItems_cons (c : OscContent) (cs : List OscContent) :
    (encodeItems (c :: cs)).length = 4 + c.encode.length + (encodeItems cs).length := by
  rw [encodeItems_cons, List.length_append, List.length_append, length_be32, Nat.add_assoc]

mutual

/-- **Copying a packet.**  Its copy is written if no bundle is empty and it fits. -/
theorem appends_clone (mem : Memory) : ∀ c : OscContent, c.encode.length < 2 ^ 31 →
    ∃ fuel₀, ∀ fuel ≥ fuel₀, ∀ a, mem.At a c.encode →
      Appends (fun w => clone fuel (OscReader.initializeAt mem a c.encode.length) w
          c.encode.length) c.HasItems c.encode.length
        fun bs => ∃ c', c.CopiedTo c' ∧ bs = c'.encode
  | .message name args, hlt => by
      refine ⟨1, fun fuel hfuel a hat => ?_⟩
      obtain ⟨fuel, rfl⟩ := Nat.exists_eq_add_of_le' hfuel
      exact (appends_clone_message fuel hlt hat).mono (by rw [HasItems]) fun _ h => h
  | .bundle timetag items, hlt => by
      have hlen : (bundle timetag items).encode.length = 16 + (encodeItems items).length := by
        rw [encode_bundle, List.length_append, List.length_append, length_be64,
          ← Nat.add_assoc]
        rfl
      obtain ⟨fuel₀, hitems⟩ := appends_cloneItems mem items (by omega)
      refine ⟨fuel₀ + 1, fun fuel hfuel a hat => ?_⟩
      obtain ⟨fuel, rfl⟩ := Nat.exists_eq_add_of_le' (le_of_add_le_right hfuel)
      rw [encode, tree] at hat
      have hrest := OscReader.rest_initializeAt hat
      have hbundle : (OscReader.initializeAt mem a
          (OscPacket.bundle timetag (trees items)).encode.length).isBundle = .ok true := by
        rw [OscPacket.encode] at hat
        exact hat.left.strncmpEq
      obtain ⟨hbody, -⟩ := OscReader.rest_items hrest
      obtain ⟨next, hraw, htimetag, hnone, happends⟩ := hitems fuel (by omega) _
        { size := 0, body := 0, timetag := timetag, end_ := _ } hbody rfl rfl
      have hbegin := (OscReader.itemBegin_bundle hrest).trans hraw
      change Appends (fun w => clone (fuel + 1) (OscReader.initializeAt mem a
        (OscPacket.bundle timetag (trees items)).encode.length) w
        (OscPacket.bundle timetag (trees items)).encode.length) _ _ _
      cases next with
      | none =>
          have hnil := hnone.mp rfl
          rw [clone_of_itemBegin_none hbundle hbegin]
          refine ⟨fun _ _ => rfl, fun _ hok _ => ?_⟩
          rw [HasItems] at hok
          exact absurd hnil hok.1
      | some next =>
          obtain ⟨itm, r'⟩ := next
          have hne : items ≠ [] := fun hnil => by simpa using hnone.mpr hnil
          have hpos : 0 < (encodeItems items).length := by
            obtain ⟨c, cs, rfl⟩ := List.exists_cons_of_ne_nil hne
            rw [length_encodeItems_cons]
            omega
          rw [clone_of_itemBegin hbundle hbegin, htimetag itm r' rfl, hlen]
          refine (happends.inBundle hpos (by omega) timetag).mono ?_ ?_
          · rw [HasItems]
            exact ⟨fun h => h.2, fun h => ⟨hne, h⟩⟩
          · rintro _ ⟨_, ⟨items', hitems', rfl⟩, rfl⟩
            refine ⟨bundle timetag items', ?_, (encode_bundle timetag items').symm⟩
            rw [CopiedTo]
            exact ⟨rfl, hitems'⟩

theorem appends_cloneItems (mem : Memory) : ∀ cs : List OscContent,
    (encodeItems cs).length < 2 ^ 31 →
    ∃ fuel₀, ∀ fuel ≥ fuel₀, ∀ (r : OscReader) (itm : OscItem), r.Rest (encodeItems cs) →
      r.mem = mem → itm.end_ = r.end_ →
        ∃ next, r.itemRaw itm = .ok next ∧
          (∀ itm' r', next = some (itm', r') → itm'.timetag = itm.timetag) ∧
          (next = none ↔ cs = []) ∧
          Appends (resumeItems fuel next) (AllHaveItems cs) (encodeItems cs).length
            fun bs => ∃ cs', AllCopiedTo cs cs' ∧ bs = encodeItems cs'
  | [], _ => by
      refine ⟨0, fun fuel _ r itm hrest _ _ => ?_⟩
      rw [encodeItems_nil] at hrest ⊢
      refine ⟨none, OscReader.itemRaw_nil itm hrest, (fun _ _ h => by cases h), by simp, ?_⟩
      refine appends_nothing.mono (by rw [AllHaveItems]) fun bs hbs => ⟨[], ?_, ?_⟩
      · rw [AllCopiedTo]
        trivial
      · rw [hbs, encodeItems_nil]
  | c :: cs, hlt => by
      have hlen := length_encodeItems_cons c cs
      have hpos := c.length_encode_pos
      obtain ⟨fuel₁, hitem⟩ := appends_clone mem c (by omega)
      obtain ⟨fuel₂, hitems⟩ := appends_cloneItems mem cs (by omega)
      refine ⟨max fuel₁ fuel₂ + 1, fun fuel hfuel r itm hrest hmem hend => ?_⟩
      obtain ⟨fuel, rfl⟩ := Nat.exists_eq_add_of_le' (le_of_add_le_right hfuel)
      -- the item that is read
      let itm₁ : OscItem := { itm with size := Int32.ofNat c.encode.length, body := r.ptr + 4 }
      have hsize : c.encode.length < 2 ^ 31 := by omega
      have hend₁ : itm₁.end_ = (r.advance 4).end_ := hend
      have hraw : r.itemRaw itm = .ok (some (itm₁, r.advance 4)) :=
        OscReader.itemRaw_cons itm hsize hrest
      rw [encodeItems_cons] at hrest
      have hbody := hrest.advance
      have hptr := hrest.advance_ptr
      rw [length_be32] at hbody hptr
      obtain ⟨next, hnext, -, -, hrun⟩ := hitems fuel (by omega)
        ((r.advance 4).advance c.encode.length) itm₁ hbody.advance hmem hend₁
      have hcopy := hitem fuel (by omega) (r.ptr + 4) (by
        have hat := hbody.at_.left
        rwa [hptr, OscReader.advance_mem, hmem] at hat)
      refine ⟨some (itm₁, r.advance 4), hraw, ?_, by simp, ?_⟩
      · rintro _ _ ⟨⟩
        rfl
      · rw [resumeItems_item hsize hbody rfl hend₁ hnext, OscReader.advance_mem, hmem, hlen]
        refine ((hcopy.inItem hpos (by omega)).andThen hrun).mono (by rw [AllHaveItems]) ?_
        rintro _ ⟨_, _, rfl, ⟨_, ⟨c', hc', rfl⟩, rfl⟩, ⟨cs', hcs', rfl⟩⟩
        refine ⟨c' :: cs', ?_, ?_⟩
        · rw [AllCopiedTo]
          exact ⟨hc', hcs'⟩
        · rw [encodeItems_cons, List.append_assoc]

end

end OscContent

/-- **Reader and writer agree.**  Copying a packet of nested bundles, with arguments of any types,
from the reader to a writer neither faults nor hangs.  It succeeds exactly if no bundle is empty
and the packet is shorter than the buffer; the buffer then holds a packet with the same bundles,
timetags, paths, types and values. -/
theorem clone_copies (c : OscContent) (hsize : c.encode.length < 2 ^ 31) (pkt : Packet c.encode)
    (mem : Memory) (buf size : ℕ) (hbuf : mem.Holds buf size) :
    ∃ fuel₀, ∀ fuel ≥ fuel₀, ∃ res,
      clone fuel pkt.reader (OscWriter.initializeAt mem buf size) c.encode.length = .ok res ∧
      (res.isSome = true ↔ c.HasItems ∧ c.encode.length < size) ∧
      ∀ w, res = some w → ∃ c', c.CopiedTo c' ∧ w.finalize = some (buf, c.encode.length) ∧
        w.mem.slice buf c.encode.length = .ok c'.encode := by
  obtain ⟨fuel₀, hclone⟩ := OscContent.appends_clone pkt.mem c hsize
  refine ⟨fuel₀, fun fuel hfuel => ?_⟩
  have hat : pkt.mem.At pkt.mem.base c.encode := by
    have h := pkt.mem.at_base
    rwa [pkt.bytes_eq] at h
  obtain ⟨res, hres, hiff, hcopy⟩ :=
    (hclone fuel hfuel pkt.mem.base hat).run_initializeAt c.length_encode_pos hbuf
  refine ⟨res, hres, hiff, fun w hw => ?_⟩
  obtain ⟨_, ⟨c', hc', rfl⟩, hlen, hfinalize, hat'⟩ := hcopy w hw
  exact ⟨c', hc', hfinalize, hlen ▸ hat'.slice⟩

/-! ## A nested packet -/

/-- An integer, a blob of one byte and a character, in a bundle in a bundle. -/
def nestedContent : OscContent :=
  .bundle oscImmediate [.bundle 7 [.message ⟨[0x61], by decide⟩
    [.int32 3, .blob (.ofByte 5), .char 0x6f]]]

/-- A packet of 68 bytes is copied to a buffer of 69. -/
theorem clone_copies_nested :
    ∃ fuel₀, ∀ fuel ≥ fuel₀, ∃ w c',
      clone fuel (Packet.placed nestedContent.encode (by decide)).reader
        (OscWriter.initializeAt (.placed (List.replicate 69 0) (by decide)) 4096 69) 68 =
          .ok (some w) ∧
      nestedContent.CopiedTo c' ∧ w.mem.slice 4096 68 = .ok c'.encode := by
  obtain ⟨fuel₀, hclone⟩ := clone_copies nestedContent (by decide)
    (.placed nestedContent.encode (by decide)) (.placed (List.replicate 69 0) (by decide)) 4096 69
    (by decide)
  refine ⟨fuel₀, fun fuel hfuel => ?_⟩
  obtain ⟨res, hres, hiff, hcopy⟩ := hclone fuel hfuel
  have hsome : res.isSome = true := hiff.mpr ⟨by simp [nestedContent, OscContent.HasItems,
    OscContent.AllHaveItems], by decide⟩
  obtain ⟨w, rfl⟩ := Option.isSome_iff_exists.mp hsome
  obtain ⟨c', hc', -, hslice⟩ := hcopy w rfl
  exact ⟨w, c', hres, hc', hslice⟩

end MonoBus
