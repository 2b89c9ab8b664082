import MonoBus.Construction.OscWriter

/-!
# Bundles and items in a writer (`osc.lv2/writer.h`)

The writer leaves room for the size of an item and fills it in when the item is popped; a
bundle or an item with nothing in it is refused there.

`Appends op ok n P` sharpens `Writes`: the operation succeeds exactly if `ok` holds and `n` bytes
fit in front of the last one of the buffer, and it appends `n` bytes with property `P` then.
-/

namespace MonoBus

namespace OscWriter

/-! ## Frames -/

/-- `lv2_osc_writer_push_bundle`, with `frame->ref`. -/
def pushBundle (t : UInt64) (w : OscWriter) : Run (Option (ℕ × OscWriter)) := do
  if w.overflow 16 then
    return none
  let ref := w.ptr
  let w ← w.storeAt 0 OscReader.bundleLiteral
  match ← addTimetag t (w.advance 8) with
  | none => return none
  | some w => return some (ref, w)

/-- `s32.i`: what has been written behind `header` bytes at `ref`, as an `int32_t`. -/
def frameSize (ref header : ℕ) (w : OscWriter) : Int32 :=
  Int32.ofInt ((w.ptr : ℤ) - ref - header)

/-- `lv2_osc_writer_pop_bundle`. -/
def popBundle (ref : ℕ) (w : OscWriter) : Run (Option OscWriter) := do
  if w.frameSize ref 16 ≤ 0 then
    return none
  return some w

/-- `lv2_osc_writer_push_item`, with `frame->ref`. -/
def pushItem (w : OscWriter) : Option (ℕ × OscWriter) :=
  if w.overflow 4 then none else some (w.ptr, w.advance 4)

/-- `lv2_osc_writer_pop_item`. -/
def popItem (ref : ℕ) (w : OscWriter) : Run (Option OscWriter) := do
  let size := w.frameSize ref 4
  if size ≤ 0 then
    return none
  let mem ← w.mem.store ref (be32 size.toUInt32)
  return some (w.setMem mem)

/-- Write a bundle: `push_bundle`, its items, `pop_bundle`. -/
def inBundle (t : UInt64) (op : OscWriter → Run (Option OscWriter)) (w : OscWriter) :
    Run (Option OscWriter) := do
  match ← pushBundle t w with
  | none => return none
  | some (ref, w) => andThen op (popBundle ref) w

/-- Write an item: `push_item`, its content, `pop_item`. -/
def inItem (op : OscWriter → Run (Option OscWriter)) (w : OscWriter) :
    Run (Option OscWriter) := do
  match w.pushItem with
  | none => return none
  | some (ref, w) => andThen op (popItem ref) w

/-! ## Room -/

/-- The overflow checks of `n` bytes let them pass; where nothing is written, none is made. -/
def Room (w : OscWriter) (n : ℕ) : Prop := n = 0 ∨ w.ptr + n < w.end_

/-- The operation appends `n` bytes with the property `P` if `ok` holds and they fit, and fails
otherwise. -/
structure Appends (op : OscWriter → Run (Option OscWriter)) (ok : Prop) (n : ℕ)
    (P : List UInt8 → Prop) : Prop where
  fails : ∀ {w bs}, Wrote w bs → ¬ (ok ∧ w.Room n) → op w = .ok none
  writes : ∀ {w bs}, Wrote w bs → ok → w.Room n →
    ∃ w' cs, op w = .ok (some w') ∧ cs.length = n ∧ P cs ∧ (w'.buf = w.buf ∧ w'.end_ = w.end_) ∧
      Wrote w' (bs ++ cs)

variable {w : OscWriter} {bs : List UInt8} {n : ℕ}
  {op op' : OscWriter → Run (Option OscWriter)} {ok ok' : Prop} {P P' : List UInt8 → Prop}

lemma Wrote.ptr_le (h : Wrote w bs) : w.ptr ≤ 2 ^ 63 := by
  rw [h.ptr_eq]
  exact h.at_.end_lt

lemma Wrote.overflow_eq (h : Wrote w bs) (hn : n < 2 ^ 63) :
    w.overflow n = decide (w.end_ ≤ w.ptr + n) := by
  have hptr := h.ptr_le
  rw [overflow, addPtr_of_lt (by omega)]

lemma Room.lt (h : w.Room n) (hn : 0 < n) : w.ptr + n < w.end_ :=
  h.resolve_left (Nat.ne_of_gt hn)

/-- Behind `m` bytes there is room for what was left of the room in front of them. -/
lemma Wrote.room_add_iff {w' : OscWriter} {cs : List UInt8} {m : ℕ} (h : Wrote w bs)
    (h' : Wrote w' (bs ++ cs)) (hends : w'.buf = w.buf ∧ w'.end_ = w.end_) (hlen : cs.length = m)
    (hroom : w.Room m) : w.Room (m + n) ↔ w'.Room n := by
  have hptr := h.ptr_eq
  have hptr' := h'.ptr_eq
  rw [List.length_append, hlen, hends.1] at hptr'
  unfold Room at hroom ⊢
  rw [hends.2, hptr']
  omega

/-- In an empty buffer there is room for less than its size. -/
lemma room_initializeAt {mem : Memory} {buf size : ℕ} (h : mem.Holds buf size) (hn : 0 < n) :
    (initializeAt mem buf size).Room n ↔ n < size := by
  have hfits := mem.fits
  have hend := h.2
  unfold Memory.limit at hend
  simp only [Room, initializeAt, addPtr_of_lt (show buf + size < 2 ^ 64 by omega)]
  omega

lemma Appends.mono (h : Appends op ok n P) (hok : ok' ↔ ok) (himp : ∀ bs, P bs → P' bs) :
    Appends op ok' n P' where
  fails hw hnot := h.fails hw (by rwa [← hok])
  writes hw hok' hroom := by
    obtain ⟨w', cs, hop, hlen, hP, hrest⟩ := h.writes hw (hok.mp hok') hroom
    exact ⟨w', cs, hop, hlen, himp cs hP, hrest⟩

lemma appends_nothing : Appends (fun w => .ok (some w)) True 0 (· = []) where
  fails _ hnot := absurd ⟨trivial, .inl rfl⟩ hnot
  writes {w bs} hw _ _ := ⟨w, [], rfl, rfl, rfl, ⟨rfl, rfl⟩, by rwa [List.append_nil]⟩

/-- An operation that makes one overflow check. -/
lemma appends_of_writes (hpos : 0 < n) (hn : n < 2 ^ 63) (hwrites : Writes op P)
    (hlen : ∀ cs, P cs → cs.length = n) (hfull : ∀ w, w.overflow n = true → op w = .ok none)
    (hfits : ∀ w bs, Wrote w bs → w.overflow n = false → op w ≠ .ok none) :
    Appends op True n P where
  fails {w bs} hw hnot := by
    refine hfull w ?_
    rw [hw.overflow_eq hn, decide_eq_true_iff]
    by_contra hlt
    exact hnot ⟨trivial, .inr (not_le.mp hlt)⟩
  writes {w bs} hw _ hroom := by
    have hlt := hroom.lt hpos
    have hnot := hfits w bs hw (by rw [hw.overflow_eq hn, decide_eq_false_iff_not]; omega)
    obtain hnone | ⟨w', cs, hop, hP, hends, hw'⟩ := hwrites w bs hw
    · exact absurd hnone hnot
    · exact ⟨w', cs, hop, hlen cs hP, hP, hends, hw'⟩

lemma Appends.andThen {n' : ℕ} (h : Appends op ok n P) (h' : Appends op' ok' n' P') :
    Appends (andThen op op') (ok ∧ ok') (n + n')
      fun bs => ∃ cs cs', bs = cs ++ cs' ∧ P cs ∧ P' cs' := by
  -- where the first succeeds, the second finds room exactly if both fit together
  have hsecond : ∀ {w bs}, Wrote w bs → ok → w.Room n → ∃ w₁ cs, op w = .ok (some w₁) ∧
      cs.length = n ∧ P cs ∧ (w₁.buf = w.buf ∧ w₁.end_ = w.end_) ∧ Wrote w₁ (bs ++ cs) ∧
      (w.Room (n + n') ↔ w₁.Room n') := by
    intro w bs hw hok hroom
    obtain ⟨w₁, cs, hop, hlen, hP, hends, hw₁⟩ := h.writes hw hok hroom
    exact ⟨w₁, cs, hop, hlen, hP, hends, hw₁, hw.room_add_iff hw₁ hends hlen hroom⟩
  constructor
  · intro w bs hw hnot
    by_cases hfirst : ok ∧ w.Room n
    · obtain ⟨w₁, cs, hop, -, -, -, hw₁, hroom⟩ := hsecond hw hfirst.1 hfirst.2
      have hop' := h'.fails hw₁ fun hok' => hnot ⟨⟨hfirst.1, hok'.1⟩, hroom.mpr hok'.2⟩
      simp [OscWriter.andThen, hop, hop']
    · simp [OscWriter.andThen, h.fails hw hfirst]
  · intro w bs hw hok hroom
    have hfirst : w.Room n := by
      unfold Room at hroom ⊢
      omega
    obtain ⟨w₁, cs, hop, hlen, hP, hends, hw₁, hiff⟩ := hsecond hw hok.1 hfirst
    obtain ⟨w₂, cs', hop', hlen', hP', hends', hw₂⟩ := h'.writes hw₁ hok.2 (hiff.mp hroom)
    refine ⟨w₂, cs ++ cs', by simp [OscWriter.andThen, hop, hop'],
      by rw [List.length_append, hlen, hlen'], ⟨cs, cs', rfl, hP, hP'⟩,
      ⟨hends'.1.trans hends.1, hends'.2.trans hends.2⟩, ?_⟩
    rwa [← List.append_assoc]

/-! ## The operations on single arguments -/

/-- Copy bytes behind those that have been written. -/
def emit (bytes : List UInt8) (w : OscWriter) : Run (Option OscWriter) := do
  if w.overflow bytes.length then
    return none
  let w ← w.storeAt 0 bytes
  return some (w.advance bytes.length)

lemma writes_emit {bytes : List UInt8} (hlt : bytes.length < 2 ^ 63) :
    Writes (emit bytes) (· = bytes) := by
  intro w bs h
  unfold emit
  cases hover : w.overflow bytes.length with
  | true => exact .inl rfl
  | false =>
      obtain ⟨room, hlen, hat⟩ := h.exists_room hlt hover
      obtain ⟨m, hstore, hat', hlimit⟩ := h.storeAt [] room bytes [] (by simpa using hat) hlen.symm
      rw [List.length_nil] at hstore
      rw [List.nil_append, List.append_nil] at hat'
      refine .inr ⟨(w.setMem m).advance bytes.length, bytes, ?_, rfl, ⟨rfl, rfl⟩,
        h.advance hat' hlimit⟩
      simp [hstore]

lemma emit_ne_none {bytes : List UInt8} (hover : w.overflow bytes.length = false) :
    emit bytes w ≠ .ok none := by
  intro h
  simp only [emit, hover, Bool.false_eq_true, if_false, Run.pure_eq, Run.bind_eq_ok] at h
  obtain ⟨_, _, h⟩ := h
  cases h

lemma appends_emit {bytes : List UInt8} (hpos : 0 < bytes.length)
    (hlt : bytes.length < 2 ^ 63) :
    Appends (emit bytes) True bytes.length (· = bytes) := by
  refine appends_of_writes hpos hlt (writes_emit hlt) ?_ ?_ ?_
  · rintro _ rfl
    rfl
  · intro w hover
    simp [emit, hover]
  · intro w bs _ hover
    exact emit_ne_none hover

lemma htobe32_eq_emit (v : UInt32) : htobe32 v = emit (be32 v) := by
  funext w
  rw [htobe32, emit, length_be32]

lemma htobe64_eq_emit (v : UInt64) : htobe64 v = emit (be64 v) := by
  funext w
  rw [htobe64, emit, length_be64]

lemma appends_htobe32 (v : UInt32) : Appends (htobe32 v) True (be32 v).length (· = be32 v) := by
  have hlen := length_be32 v
  rw [htobe32_eq_emit]
  exact appends_emit (by omega) (by omega)

lemma appends_htobe64 (v : UInt64) : Appends (htobe64 v) True (be64 v).length (· = be64 v) := by
  have hlen := length_be64 v
  rw [htobe64_eq_emit]
  exact appends_emit (by omega) (by omega)

lemma appends_addRgba (r g b a : UInt8) :
    Appends (addRgba r g b a) True 4 (· = [r, g, b, a]) :=
  @appends_emit [r, g, b, a] (by simp) (by simp)

lemma appends_addMidi {m : Ptr} {bytes : List UInt8} (hlen : bytes.length = 4)
    (hslice : m.slice 4 = .ok bytes) : Appends (addMidi 4 m) True 4 (· = bytes) := by
  have hemit : addMidi 4 m = emit bytes := by
    funext w
    have hsize : sizeOfInt32 4 = 4 := rfl
    simp [addMidi, emit, hlen, hsize, hslice]
  rw [hemit, ← hlen]
  exact appends_emit (by omega) (by omega)

lemma appends_addString (s : CString) (hs : s.chars.length < 2 ^ 62) :
    Appends (addString s) True s.padded.length (· = s.padded) := by
  have hlen := s.length_padded
  have hpadded : paddedSize (s.chars.length + 1) = s.padded.length := by
    rw [paddedSize_eq (by omega), hlen]
  refine appends_of_writes (by omega) (by omega) (writes_addString s hs) ?_ ?_ ?_
  · rintro _ rfl
    rfl
  · intro w hover
    simp [addString, hpadded, hover]
  · intro w bs _ hover h
    simp only [addString, hpadded, hover, Bool.false_eq_true, if_false, Run.pure_eq,
      Run.bind_eq_ok] at h
    obtain ⟨_, _, _, _, h⟩ := h
    cases h

lemma appends_addFormat (fmt typeString : CString)
    (hcomma : typeString.chars = ','.toUInt8 :: fmt.chars) (hs : fmt.chars.length < 2 ^ 62) :
    Appends (addFormat fmt) True typeString.padded.length (· = typeString.padded) := by
  have hlen := typeString.length_padded
  rw [hcomma, List.length_cons] at hlen
  have hpadded : paddedSize (fmt.chars.length + 1 + 1) = typeString.padded.length := by
    rw [paddedSize_eq (by omega), hlen]
  refine appends_of_writes (by omega) (by omega) (writes_addFormat fmt typeString hcomma hs)
    ?_ ?_ ?_
  · rintro _ rfl
    rfl
  · intro w hover
    simp [addFormat, hpadded, hover]
  · intro w bs _ hover h
    simp only [addFormat, hpadded, hover, Bool.false_eq_true, if_false, Run.pure_eq,
      Run.bind_eq_ok] at h
    obtain ⟨_, _, _, _, _, _, h⟩ := h
    cases h

/-- A blob reserves its padding as well, and checks for both at once. -/
lemma appends_addBlob {body : Ptr} {data : List UInt8} (hdata : data.length < 2 ^ 31)
    (hbody : body.slice data.length = .ok data) :
    Appends (addBlob (Int32.ofNat data.length) body) True (4 + paddedSize data.length)
      fun bs => ∃ b : OscBlob, b.data = data ∧ bs = (OscArgument.blob b).encode := by
  have hsize := sizeOfInt32_ofNat hdata
  have hpadded : paddedSize data.length = (data.length + 3) / 4 * 4 := paddedSize_eq (by omega)
  have hwrap : (4 + paddedSize data.length) % 2 ^ 64 = 4 + paddedSize data.length :=
    Nat.mod_eq_of_lt (by omega)
  refine appends_of_writes (by omega) (by omega) (writes_addBlob hdata hbody) ?_ ?_ ?_
  · rintro _ ⟨b, rfl, rfl⟩
    rw [OscArgument.encode, List.length_append, length_be32, b.length_padded]
  · intro w hover
    simp only [addBlob, addBlobInline, hsize, hwrap, hover, if_true, Run.pure_eq, Run.ok_bind]
  · intro w bs hw hover h
    rw [hw.overflow_eq (by omega), decide_eq_false_iff_not] at hover
    -- the number fits where the number and the blob do
    have hroom : w.Room (be32 (Int32.ofNat data.length).toUInt32).length := by
      rw [length_be32]
      exact .inr (by omega)
    obtain ⟨w', _, hint, -⟩ :=
      (appends_htobe32 (Int32.ofNat data.length).toUInt32).writes hw trivial hroom
    have hover' : w.overflow (4 + paddedSize data.length) = false := by
      rwa [hw.overflow_eq (by omega), decide_eq_false_iff_not]
    rw [show htobe32 (Int32.ofNat data.length).toUInt32 = addInt32 (Int32.ofNat data.length)
      from rfl] at hint
    simp only [addBlob, addBlobInline, hsize, hwrap, hover', hint, Bool.false_eq_true, if_false,
      Run.pure_eq, Run.ok_bind, Run.bind_eq_ok] at h
    obtain ⟨_, _, _, _, h⟩ := h
    cases h

/-- The path and the type tag string of a message, in front of its arguments. -/
lemma Appends.message (h : Appends op ok n P) {path fmt : CString} (types : List OscType)
    (hpath : path.chars.length < 2 ^ 62) (hfmt : fmt.chars = types.map OscType.code)
    (hlen : fmt.chars.length < 2 ^ 62) :
    Appends (OscWriter.andThen (addPath path) (OscWriter.andThen (addFormat fmt) op)) ok
      ((OscMessage.header path types).length + n)
      fun bs => ∃ data, P data ∧ bs = OscMessage.header path types ++ data := by
  have htypes : (OscMessage.typeString types).chars = ','.toUInt8 :: fmt.chars := by
    rw [hfmt]
    rfl
  rw [OscMessage.header, List.length_append, Nat.add_assoc]
  refine ((appends_addString path hpath).andThen
    ((appends_addFormat fmt _ htypes hlen).andThen h)).mono (by simp) ?_
  rintro _ ⟨_, _, rfl, rfl, _, data, rfl, rfl, hP⟩
  exact ⟨data, hP, (List.append_assoc _ _ _).symm⟩

/-! ## Bundles and items -/

lemma frameSize_eq {ref header k : ℕ} (hptr : w.ptr = ref + header + k) :
    w.frameSize ref header = Int32.ofNat k := by
  have hdiff : (w.ptr : ℤ) - ref - header = k := by omega
  rw [frameSize, hdiff]
  rfl

lemma not_ofNat_nonpos (hpos : 0 < n) (hn : n < 2 ^ 31) : ¬ Int32.ofNat n ≤ 0 := by
  rw [Int32.le_iff_toInt_le, toInt_ofNat_of_lt hn]
  simp only [Int32.toInt_zero]
  omega

lemma Wrote.pushBundle (h : Wrote w bs) (hroom : w.ptr + 16 < w.end_) (t : UInt64) :
    ∃ w', pushBundle t w = .ok (some (w.ptr, w')) ∧ (w'.buf = w.buf ∧ w'.end_ = w.end_) ∧
      Wrote w' (bs ++ (OscReader.bundleLiteral ++ be64 t)) := by
  have hlit : OscReader.bundleLiteral.length = 8 := rfl
  have hover : w.overflow 16 = false := by
    rw [h.overflow_eq (by decide), decide_eq_false_iff_not]
    omega
  have hover₈ : w.overflow OscReader.bundleLiteral.length = false := by
    rw [h.overflow_eq (by decide), decide_eq_false_iff_not, hlit]
    omega
  have hemit := @appends_emit OscReader.bundleLiteral (by decide) (by decide)
  obtain ⟨w₁, _, hop, -, rfl, hends, hw₁⟩ := hemit.writes h trivial (.inr (by rw [hlit]; omega))
  simp only [emit, hover₈, Bool.false_eq_true, if_false, Run.pure_eq, Run.bind_eq_ok] at hop
  obtain ⟨w₀, hstore, hadvance⟩ := hop
  obtain rfl := Option.some.inj (Except.ok.inj hadvance)
  rw [hlit] at hends hw₁
  have hroom₁ : (w₀.advance 8).Room (be64 t).length := by
    have hptr := h.ptr_eq
    have hptr₁ := hw₁.ptr_eq
    rw [List.length_append, hlit, hends.1] at hptr₁
    rw [length_be64]
    refine .inr ?_
    rw [hends.2, hptr₁]
    omega
  obtain ⟨w₂, _, hop₂, -, rfl, hends₂, hw₂⟩ := (appends_htobe64 t).writes hw₁ trivial hroom₁
  refine ⟨w₂, ?_, ⟨hends₂.1.trans hends.1, hends₂.2.trans hends.2⟩, ?_⟩
  · simp only [OscWriter.pushBundle, hover, hstore, addTimetag, hop₂, Bool.false_eq_true, if_false,
      Run.ok_bind, Run.pure_eq]
  · rwa [List.append_assoc] at hw₂

lemma Wrote.pushItem (h : Wrote w bs) (hroom : w.ptr + 4 < w.end_) :
    ∃ w' size, w.pushItem = some (w.ptr, w') ∧ size.length = 4 ∧
      (w'.buf = w.buf ∧ w'.end_ = w.end_) ∧ Wrote w' (bs ++ size) := by
  have hover : w.overflow 4 = false := by
    rw [h.overflow_eq (by decide), decide_eq_false_iff_not]
    omega
  obtain ⟨size, hsize, hat⟩ := h.exists_room (by decide) hover
  have hw := h.advance hat rfl
  rw [hsize] at hw
  exact ⟨w.advance 4, size, by simp [OscWriter.pushItem, hover], hsize, ⟨rfl, rfl⟩, hw⟩

lemma Wrote.popItem {size body : List UInt8} (h : Wrote w (bs ++ (size ++ body)))
    (hsize : size.length = 4) (hpos : 0 < body.length) (hlt : body.length < 2 ^ 31) :
    ∃ w', popItem (w.buf + bs.length) w = .ok (some w') ∧ (w'.buf = w.buf ∧ w'.end_ = w.end_) ∧
      Wrote w' (bs ++ (be32 (UInt32.ofNat body.length) ++ body)) := by
  have hframe : w.frameSize (w.buf + bs.length) 4 = Int32.ofNat body.length := by
    refine frameSize_eq ?_
    rw [h.ptr_eq, List.length_append, List.length_append, hsize]
    omega
  obtain ⟨m, hstore, hat, -, hlimit⟩ := h.at_.store
    (show (be32 (UInt32.ofNat body.length)).length = size.length by rw [length_be32, hsize])
  refine ⟨w.setMem m, ?_, ⟨rfl, rfl⟩, hat, ?_, ?_⟩
  · have hu : (Int32.ofNat body.length).toUInt32 = UInt32.ofNat body.length := rfl
    simp only [OscWriter.popItem, hframe, not_ofNat_nonpos hpos hlt, hu, hstore, if_false,
      Run.ok_bind, Run.pure_eq]
  · simp only [setMem_ptr, setMem_buf, h.ptr_eq, List.length_append, length_be32, hsize]
  · rw [setMem_end, setMem_mem, hlimit]
    exact h.end_le

lemma Appends.inBundle (h : Appends op ok n P) (hpos : 0 < n) (hn : n < 2 ^ 31) (t : UInt64) :
    Appends (inBundle t op) ok (16 + n) fun bs =>
      ∃ body, P body ∧ bs = OscReader.bundleLiteral ++ (be64 t ++ body) := by
  have hheader : (OscReader.bundleLiteral ++ be64 t).length = 16 := by
    rw [List.length_append, length_be64]
    rfl
  -- behind the header there is room for the items exactly if there was room for both
  have hpush : ∀ {w bs}, Wrote w bs → w.ptr + 16 < w.end_ → ∃ w₁,
      OscWriter.pushBundle t w = .ok (some (w.ptr, w₁)) ∧
      (w₁.buf = w.buf ∧ w₁.end_ = w.end_) ∧
      Wrote w₁ (bs ++ (OscReader.bundleLiteral ++ be64 t)) ∧
      (w.Room (16 + n) ↔ w₁.Room n) := by
    intro w bs hw hroom
    obtain ⟨w₁, hop, hends, hw₁⟩ := hw.pushBundle hroom t
    exact ⟨w₁, hop, hends, hw₁, hw.room_add_iff hw₁ hends hheader (.inr hroom)⟩
  constructor
  · intro w bs hw hnot
    by_cases hroom : w.ptr + 16 < w.end_
    · obtain ⟨w₁, hop, -, hw₁, hiff⟩ := hpush hw hroom
      have hop₁ := h.fails hw₁ fun hok => hnot ⟨hok.1, hiff.mpr hok.2⟩
      simp [OscWriter.inBundle, OscWriter.andThen, hop, hop₁]
    · have hover : w.overflow 16 = true := by
        rw [hw.overflow_eq (by decide), decide_eq_true_iff]
        omega
      simp [OscWriter.inBundle, OscWriter.pushBundle, hover]
  · intro w bs hw hok hroom
    have hlt := hroom.lt (by omega)
    obtain ⟨w₁, hop, hends, hw₁, hiff⟩ := hpush hw (by omega)
    obtain ⟨w₂, body, hop₁, hlen, hP, hends₂, hw₂⟩ := h.writes hw₁ hok (hiff.mp hroom)
    rw [List.append_assoc] at hw₂
    have hframe : w₂.frameSize w.ptr 16 = Int32.ofNat n := by
      refine frameSize_eq ?_
      rw [hw₂.ptr_eq, hends₂.1, hends.1, hw.ptr_eq, List.length_append, List.length_append,
        hheader, hlen]
      omega
    refine ⟨w₂, _, ?_, ?_, ⟨body, hP, rfl⟩,
      ⟨hends₂.1.trans hends.1, hends₂.2.trans hends.2⟩, by rwa [List.append_assoc] at hw₂⟩
    · simp [OscWriter.inBundle, OscWriter.andThen, hop, hop₁, popBundle, hframe,
        not_ofNat_nonpos hpos hn]
    · rw [← List.append_assoc, List.length_append, hheader, hlen]

lemma Appends.inItem (h : Appends op ok n P) (hpos : 0 < n) (hn : n < 2 ^ 31) :
    Appends (inItem op) ok (4 + n) fun bs =>
      ∃ body, P body ∧ bs = be32 (UInt32.ofNat body.length) ++ body := by
  have hpush : ∀ {w bs}, Wrote w bs → w.ptr + 4 < w.end_ → ∃ w₁ size,
      w.pushItem = some (w.ptr, w₁) ∧ size.length = 4 ∧ (w₁.buf = w.buf ∧ w₁.end_ = w.end_) ∧
      Wrote w₁ (bs ++ size) ∧ (w.Room (4 + n) ↔ w₁.Room n) := by
    intro w bs hw hroom
    obtain ⟨w₁, size, hop, hsize, hends, hw₁⟩ := hw.pushItem hroom
    exact ⟨w₁, size, hop, hsize, hends, hw₁, hw.room_add_iff hw₁ hends hsize (.inr hroom)⟩
  constructor
  · intro w bs hw hnot
    by_cases hroom : w.ptr + 4 < w.end_
    · obtain ⟨w₁, size, hop, -, -, hw₁, hiff⟩ := hpush hw hroom
      have hop₁ := h.fails hw₁ fun hok => hnot ⟨hok.1, hiff.mpr hok.2⟩
      simp [OscWriter.inItem, OscWriter.andThen, hop, hop₁]
    · have hover : w.overflow 4 = true := by
        rw [hw.overflow_eq (by decide), decide_eq_true_iff]
        omega
      simp [OscWriter.inItem, OscWriter.pushItem, hover]
  · intro w bs hw hok hroom
    have hlt := hroom.lt (by omega)
    obtain ⟨w₁, size, hop, hsize, hends, hw₁, hiff⟩ := hpush hw (by omega)
    obtain ⟨w₂, body, hop₁, hlen, hP, hends₂, hw₂⟩ := h.writes hw₁ hok (hiff.mp hroom)
    rw [List.append_assoc] at hw₂
    obtain ⟨w₃, hpop, hends₃, hw₃⟩ := hw₂.popItem hsize (by omega) (by omega)
    have href : w₂.buf + bs.length = w.ptr := by
      rw [hends₂.1, hends.1, hw.ptr_eq]
    rw [href] at hpop
    refine ⟨w₃, _, ?_, ?_, ⟨body, hP, rfl⟩,
      ⟨(hends₃.1.trans hends₂.1).trans hends.1, (hends₃.2.trans hends₂.2).trans hends.2⟩, hw₃⟩
    · simp [OscWriter.inItem, OscWriter.andThen, hop, hop₁, hpop]
    · rw [List.length_append, length_be32, hlen]

/-! ## An empty buffer -/

/-- **What is written into an empty buffer**, and handed out. -/
lemma Appends.run_initializeAt {mem : Memory} {buf size : ℕ} (h : Appends op ok n P) (hpos : 0 < n)
    (hbuf : mem.Holds buf size) :
    ∃ res, op (initializeAt mem buf size) = .ok res ∧ (res.isSome = true ↔ ok ∧ n < size) ∧
      ∀ w, res = some w → ∃ bs, P bs ∧ bs.length = n ∧ w.finalize = some (buf, n) ∧
        w.mem.At buf bs := by
  have hwrote := wrote_initializeAt hbuf
  have hroom := room_initializeAt hbuf hpos
  by_cases hok : ok ∧ n < size
  · obtain ⟨w, bs, hop, hlen, hP, hends, hw⟩ := h.writes hwrote hok.1 (hroom.mpr hok.2)
    rw [List.nil_append] at hw
    have hat := hw.at_
    obtain ⟨hfinalize, -⟩ := finalize_of_wrote hw (List.ne_nil_of_length_pos (by omega))
    rw [hends.1] at hat hfinalize
    rw [hlen] at hfinalize
    refine ⟨some w, hop, by simpa using hok, ?_⟩
    rintro _ ⟨⟩
    exact ⟨bs, hP, hlen, hfinalize, hat⟩
  · refine ⟨none, h.fails hwrote (by rwa [hroom]), by simpa using hok, ?_⟩
    intro w hw
    cases hw

end OscWriter

end MonoBus
