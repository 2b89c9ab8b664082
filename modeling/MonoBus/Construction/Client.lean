import MonoBus.Construction.MessageCalls
import MonoBus.Construction.WriterFrames

/-!
# The client (`monobusc.c`)

The client writes one message into a chunk of its ring buffer: a bitmap with its place, or a
message without arguments for option `-C`.  Reading the bitmap from a PBM file is left to the
PBM library; here it is any memory of the right size.
-/

namespace MonoBus

/-- The options of the client that go into its message, for a priority the daemon has. -/
structure Client where
  xoff : Int32
  yoff : Int32
  prio : Prio
  clr : Bool

/-- The chunk `varchunk_write_request_max` hands out. -/
structure WriteChunk where
  mem : Memory
  buf : ℕ
  size : ℕ
  holds : mem.Holds buf size

namespace Client

/-- `snprintf` with `"/monobus/%u"`. -/
def path (prio : Prio) : CString where
  chars := ('/'.toUInt8 :: rootName) ++ '/'.toUInt8 :: (Nat.toDigits 10 prio).map Char.toUInt8
  no_nul := by revert prio; decide

/-- The format of a message with a bitmap. -/
def setFormat : CString where
  chars := ['i', 'i', 'i', 'i', 'b'].map Char.toUInt8
  no_nul := by decide

/-- The empty format. -/
def clrFormat : CString where
  chars := []
  no_nul := by decide

/-- The part of `main` that writes the message. -/
def write (c : Client) (width height : Int32) (bitmap : Ptr) (writer : OscWriter) :
    Run (Option OscWriter) :=
  if c.clr then
    writer.messageVararg (path c.prio) clrFormat []
  else
    let stride := monobusStrideForWidth width.toUInt32
    let len := stride * height.toUInt32
    writer.messageVararg (path c.prio) setFormat
      [.int32 c.xoff, .int32 c.yoff, .int32 width, .int32 height, .blob len.toInt32 bitmap]

/-- The bytes that `main` advances the ring buffer by, if nothing fails. -/
def send (c : Client) (width height : Int32) (bitmap : Ptr) (chunk : WriteChunk) :
    Run (Option (List UInt8)) := do
  let writer := OscWriter.initializeAt chunk.mem chunk.buf chunk.size
  match ← c.write width height bitmap writer with
  | none => return none
  | some writer =>
      match writer.finalize with
      | none => return none
      | some (buf, written) => return some (← writer.mem.slice buf written)

/-! ## What is sent -/

/-- The client names a priority as the tables of the daemon do. -/
lemma path_eq (prio : Prio) : path prio = (PathSegment.ofPrio prio).path := by
  have hchars : (path prio).chars = (PathSegment.ofPrio prio).path.chars := by
    revert prio
    decide
  cases hpath : path prio
  cases hsegment : (PathSegment.ofPrio prio).path
  simp_all

lemma length_path (prio : Prio) : (path prio).chars.length < 2 ^ 62 := by
  revert prio
  decide

lemma encode_ne_nil (segment : PathSegment) (args : List OscArgument) :
    (messageTo segment args).encode ≠ [] := by
  simp [OscMessage.encode, OscMessage.header, CString.padded]

lemma exists_send {c : Client} {width height : Int32} {bitmap : Ptr} {n : ℕ}
    {P : List UInt8 → Prop} (h : OscWriter.Appends (c.write width height bitmap) True n P)
    (hpos : 0 < n) (chunk : WriteChunk) :
    ∃ res, c.send width height bitmap chunk = .ok res ∧ (res.isSome = true ↔ n < chunk.size) ∧
      ∀ sent, res = some sent → P sent ∧ sent.length = n := by
  obtain ⟨res, hres, hiff, hwritten⟩ := h.run_initializeAt hpos chunk.holds
  rw [true_and] at hiff
  cases res with
  | none =>
      refine ⟨none, by simp [send, hres], hiff, fun sent hsent => ?_⟩
      cases hsent
  | some w =>
      obtain ⟨bs, hP, hlen, hfinal, hat⟩ := hwritten w rfl
      have hslice := hat.slice
      rw [hlen] at hslice
      refine ⟨some bs, by simp [send, hres, hfinal, hslice], hiff, fun sent hsent => ?_⟩
      obtain rfl := Option.some.inj hsent
      exact ⟨hP, hlen⟩

/-- **With option `-C` a message without arguments is sent**, if it fits into the chunk. -/
theorem send_of_clr {c : Client} (hclr : c.clr = true) (width height : Int32) (bitmap : Ptr)
    (chunk : WriteChunk) :
    let message := (messageTo (.ofPrio c.prio) []).encode
    c.send width height bitmap chunk =
      .ok (if message.length < chunk.size then some message else none) := by
  intro message
  have hwrite : c.write width height bitmap =
      OscWriter.messageVararg (path c.prio) clrFormat [] := by
    funext writer
    rw [write, if_pos hclr]
  have hheader : message = OscMessage.header (path c.prio) [] := by
    rw [path_eq]
    exact List.append_nil _
  have hmessage : OscWriter.Appends (c.write width height bitmap) True message.length
      (· = message) := by
    rw [hwrite, hheader]
    refine (OscWriter.appends_nothing.message [] (length_path c.prio) rfl (by decide)).mono
      Iff.rfl ?_
    rintro _ ⟨_, rfl, rfl⟩
    exact List.append_nil _
  have hpos : 0 < message.length := List.length_pos_of_ne_nil (encode_ne_nil _ _)
  obtain ⟨res, hsend, hiff, hsent⟩ := exists_send hmessage hpos chunk
  rw [hsend]
  cases res with
  | none => rw [if_neg fun h => by simpa using hiff.mpr h]
  | some sent => rw [if_pos (hiff.mp rfl), (hsent sent rfl).1]

/-- The bytes of an image stand behind twenty others. -/
lemma exists_prefix_setArgs (offx offy width height : Int32) (blob : OscBlob) :
    ∃ pre, pre.length = 20 ∧
      (setArgs offx offy width height blob).flatMap OscArgument.encode =
        pre ++ (blob.data ++ blob.pad) := by
  refine ⟨be32 offx.toUInt32 ++ be32 offy.toUInt32 ++ be32 width.toUInt32 ++
    be32 height.toUInt32 ++ be32 (UInt32.ofNat blob.data.length), ?_, ?_⟩
  · simp
  · simp [setArgs, OscArgument.encode]

lemma appends_setArgs (offx offy width height : Int32) {body : Ptr} {bitmap : List UInt8}
    (hlt : bitmap.length < 2 ^ 31) (hbody : body.slice bitmap.length = .ok bitmap) :
    OscWriter.Appends (OscWriter.argVarlist setFormat.chars
      [.int32 offx, .int32 offy, .int32 width, .int32 height,
        .blob (Int32.ofNat bitmap.length) body]) True (20 + paddedSize bitmap.length)
      fun data => ∃ blob : OscBlob, blob.data = bitmap ∧
        data = (setArgs offx offy width height blob).flatMap OscArgument.encode := by
  have hint (i : Int32) := OscWriter.appends_htobe32 i.toUInt32
  have hints := (hint offx).andThen ((hint offy).andThen ((hint width).andThen
    ((hint height).andThen ((OscWriter.appends_addBlob hlt hbody).andThen
      OscWriter.appends_nothing))))
  have hlen : 20 + paddedSize bitmap.length =
      4 + (4 + (4 + (4 + (4 + paddedSize bitmap.length + 0)))) := by omega
  rw [hlen]
  refine hints.mono (by simp) ?_
  rintro data ⟨_, _, rfl, rfl, _, _, rfl, rfl, _, _, rfl, rfl, _, _, rfl, rfl, _, _, rfl,
    ⟨blob, hblob, rfl⟩, rfl⟩
  exact ⟨blob, hblob, rfl⟩

/-- **Otherwise the bitmap is sent with its place**, if the message fits into the chunk. -/
theorem send_of_set {c : Client} (hclr : c.clr = false) {width height : Int32} {bitmap : Memory}
    (hheight : 0 ≤ height.toInt)
    (hsize : (monobusStrideForWidth width.toUInt32).toNat * height.toInt.toNat =
      bitmap.bytes.length) (hlt : bitmap.bytes.length < 2 ^ 31) (chunk : WriteChunk) :
    ∃ blob : OscBlob, blob.data = bitmap.bytes ∧
      let message := (messageTo (.ofPrio c.prio) (setArgs c.xoff c.yoff width height blob)).encode
      c.send width height ⟨bitmap, bitmap.base⟩ chunk =
        .ok (if message.length < chunk.size then some message else none) := by
  set types : List OscType := [.int32, .int32, .int32, .int32, .blob] with htypes
  set body : Ptr := ⟨bitmap, bitmap.base⟩ with hbody
  have hlen : (monobusStrideForWidth width.toUInt32 * height.toUInt32).toInt32 =
      Int32.ofNat bitmap.bytes.length := by rw [stride_mul_height_eq hheight, hsize]
  have hwrite : c.write width height body = OscWriter.messageVararg (path c.prio) setFormat
      [.int32 c.xoff, .int32 c.yoff, .int32 width, .int32 height,
        .blob (Int32.ofNat bitmap.bytes.length) body] := by
    funext writer
    rw [write, if_neg (by rw [hclr]; exact Bool.false_ne_true), ← hlen]
  have hslice : body.slice bitmap.bytes.length = .ok bitmap.bytes := bitmap.at_base.slice
  have hmessage : OscWriter.Appends (c.write width height body) True
      ((OscMessage.header (path c.prio) types).length + (20 + paddedSize bitmap.bytes.length))
      fun bs => ∃ blob : OscBlob, blob.data = bitmap.bytes ∧ bs =
        (messageTo (.ofPrio c.prio) (setArgs c.xoff c.yoff width height blob)).encode := by
    rw [hwrite]
    refine ((appends_setArgs c.xoff c.yoff width height hlt hslice).message types
      (length_path c.prio) rfl (by decide)).mono Iff.rfl ?_
    rintro _ ⟨_, ⟨blob, hblob, rfl⟩, rfl⟩
    rw [path_eq]
    exact ⟨blob, hblob, rfl⟩
  have hlength (blob : OscBlob) (hblob : blob.data = bitmap.bytes) :
      (messageTo (.ofPrio c.prio) (setArgs c.xoff c.yoff width height blob)).encode.length =
        (OscMessage.header (path c.prio) types).length +
          (20 + paddedSize bitmap.bytes.length) := by
    obtain ⟨pre, hpre, hdata⟩ := exists_prefix_setArgs c.xoff c.yoff width height blob
    rw [path_eq, ← hblob, ← blob.length_padded, ← hpre, ← List.length_append, ← hdata]
    exact List.length_append
  obtain ⟨res, hsend, hiff, hsent⟩ := exists_send hmessage (by omega) chunk
  cases res with
  | none =>
      refine ⟨⟨bitmap.bytes, List.replicate ((4 - bitmap.bytes.length % 4) % 4) 0, hlt,
        List.length_replicate⟩, rfl, ?_⟩
      dsimp only
      rw [hsend, hlength _ rfl, if_neg fun h => by simpa using hiff.mpr h]
  | some sent =>
      obtain ⟨⟨blob, hblob, rfl⟩, -⟩ := hsent sent rfl
      refine ⟨blob, hblob, ?_⟩
      dsimp only
      rw [hsend, hlength blob hblob, if_pos (hiff.mp rfl)]

lemma sent_of_clr {c : Client} (hclr : c.clr = true) {width height : Int32} {bitmap : Ptr}
    {chunk : WriteChunk} {sent : List UInt8}
    (h : c.send width height bitmap chunk = .ok (some sent)) :
    sent = (messageTo (.ofPrio c.prio) []).encode := by
  rw [send_of_clr hclr, Except.ok.injEq, Option.ite_none_right_eq_some, Option.some.injEq] at h
  exact h.2.symm

lemma sent_of_set {c : Client} (hclr : c.clr = false) {width height : Int32} {bitmap : Memory}
    (hheight : 0 ≤ height.toInt)
    (hsize : (monobusStrideForWidth width.toUInt32).toNat * height.toInt.toNat =
      bitmap.bytes.length) (hlt : bitmap.bytes.length < 2 ^ 31)
    {chunk : WriteChunk} {sent : List UInt8}
    (h : c.send width height ⟨bitmap, bitmap.base⟩ chunk = .ok (some sent)) :
    ∃ blob : OscBlob, blob.data = bitmap.bytes ∧
      sent = (messageTo (.ofPrio c.prio) (setArgs c.xoff c.yoff width height blob)).encode := by
  obtain ⟨blob, hblob, hsend⟩ := send_of_set hclr hheight hsize hlt chunk
  rw [hsend, Except.ok.injEq, Option.ite_none_right_eq_some, Option.some.injEq] at h
  exact ⟨blob, hblob, h.2.symm⟩

end Client

end MonoBus
