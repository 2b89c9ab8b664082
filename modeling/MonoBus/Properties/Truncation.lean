import MonoBus.Construction.MessageEnds

/-!
# Truncated messages

A message is truncated if its argument data end before some argument that its type tags
announce.  Loading that argument fails (`argRaw_truncated`), and both places where that can be
noticed go on with the null pointer: `lv2_osc_reader_match` takes `arg->path`, and the loop of
`_priority` reads `arg->type` in its condition.  No truncated message is ever handled to the
end (`handleOscMessage_truncated`); one that is scheduled is only copied.
-/

namespace MonoBus

/-- A message to `/monobus/prio` with complete arguments `args`, of which the next argument
`cut` is announced and only `data` is there.  It may announce further arguments. -/
structure TruncatedMessage where
  prio : Prio
  args : List OscArgument
  cut : OscArgument
  types : List OscType
  data : List UInt8
  data_prefix : data <+: cut.encode
  data_lt : data.length < cut.encode.length

namespace TruncatedMessage

variable (msg : TruncatedMessage)

/-- The arguments that the message announces. -/
def announced : List OscType := msg.args.map OscArgument.oscType ++ msg.cut.oscType :: msg.types

def bytes : List UInt8 :=
  OscMessage.header (PathSegment.ofPrio msg.prio).path msg.announced ++
    (msg.args.flatMap OscArgument.encode ++ msg.data)

end TruncatedMessage

/-! ## Loading the argument -/

namespace OscReader

variable {r : OscReader} {data : List UInt8}

lemma overflow_of_lt {n : ℕ} (h : r.Rest data) (hlt : data.length < n) (hn : n < 2 ^ 63) :
    r.overflow n = true := by
  rw [h.overflow_eq hn]
  exact decide_eq_true hlt

lemma getInt32_truncated (h : r.Rest data) (hlt : data.length < 4) :
    r.getInt32 = .ok none := by
  simp [getInt32, be32toh, overflow_of_lt h hlt]

lemma be64toh_truncated (h : r.Rest data) (hlt : data.length < 8) :
    r.be64toh = .ok none := by
  simp [be64toh, overflow_of_lt h hlt]

/-- A string that is cut is longer than what is left of it, or not terminated at all. -/
lemma getString_truncated {s : CString} (h : r.Rest data) (hstart : data <+: s.padded)
    (hlt : data.length < s.padded.length) :
    r.getString = .ok none ∨ r.getString = .error .outOfRange := by
  unfold getString
  cases hcstr : r.mem.cstr r.ptr with
  | error e =>
      right
      unfold Memory.cstr at hcstr
      split_ifs at hcstr
      simp [← Except.error.inj hcstr]
  | ok str =>
      left
      obtain ⟨tail, hstr, hnul⟩ := Memory.exists_of_cstr hcstr
      obtain ⟨post, hfrom⟩ := h.at_.exists_from
      -- the characters that are left come before any terminator
      have hlong : min s.chars.length data.length ≤ str.length := by
        by_contra hshort
        rw [not_le, lt_min_iff] at hshort
        have hchar := List.prefix_iff_getElem?.mp hstart _ hshort.2
        have hdata : data[str.length] = 0 := by
          rw [hfrom] at hstr
          have hget := congrArg (·[str.length]?) hstr
          simpa [List.getElem?_append_left hshort.2, hshort.2] using hget
        rw [hdata, CString.padded, List.getElem?_append_left hshort.1] at hchar
        exact s.no_nul (List.mem_of_getElem? hchar)
      have hend : r.ptr + (str.length + 1) ≤ 2 ^ 63 := by
        have hlen := congrArg List.length hstr
        have hfits := r.mem.fits
        rw [Memory.from_, List.length_drop, List.length_append, List.length_cons] at hlen
        have hbase := h.at_.base_le
        omega
      have hover : r.overflow (paddedSize (str.length + 1)) = true := by
        have hpadded := s.length_padded
        have hbase := h.at_.base_le
        have hpos := r.mem.base_pos
        rw [paddedSize_eq (by omega), overflow, h.end_eq,
          addPtr_of_lt (by omega)]
        simp only [decide_eq_true_eq]
        omega
      simp [hover]

lemma getBlob_truncated {b : OscBlob} (h : r.Rest data)
    (hstart : data <+: (OscArgument.blob b).encode)
    (hlt : data.length < (OscArgument.blob b).encode.length) :
    r.getBlob = .ok none := by
  unfold getBlob
  by_cases hsize : data.length < 4
  · simp [getInt32_truncated h hsize]
  · -- the size is there, and the body is cut
    set size := be32 (UInt32.ofNat b.data.length) with hsize_def
    have hlen : size.length = 4 := length_be32 _
    rw [OscArgument.encode, ← hsize_def] at hstart hlt
    obtain ⟨body, rfl⟩ : ∃ body, data = size ++ body := by
      have htake : data.take 4 = size := by
        have heq := hstart.take 4
        rw [← hlen, List.take_left] at heq
        exact heq.eq_of_length (by rw [List.length_take, hlen]; omega)
      exact ⟨data.drop 4, by rw [← htake, List.take_append_drop]⟩
    have hbody := h.advance
    have hblob := b.length_padded
    have hdata := b.data_lt
    rw [List.length_append, List.length_append] at hlt
    rw [hlen] at hbody
    have hover : (r.advance 4).overflow (paddedSize b.data.length) = true := by
      rw [← hblob]
      refine overflow_of_lt hbody (by omega) ?_
      rw [hblob, paddedSize_eq (by omega)]
      omega
    simp only [getInt32_eq h, toInt32_ofNat, Run.ok_bind, sizeOfInt32_ofNat hdata, hover,
      if_true, Run.pure_eq]

/-- **A truncated argument cannot be loaded.** -/
theorem argRaw_truncated {arg : OscArg} {x : OscArgument} (htag : arg.tag = x.tag)
    (h : r.Rest data) (hstart : data <+: x.encode) (hlt : data.length < x.encode.length) :
    r.argRaw arg = .ok none ∨ r.argRaw arg = .error .outOfRange := by
  have hkind : OscType.ofByte arg.tag = some x.oscType := by
    rw [htag, OscArgument.tag, OscType.ofByte_code]
  unfold argRaw
  rw [hkind]
  cases x with
  | int32 v =>
      rw [OscArgument.encode, length_be32] at hlt
      simp [OscArgument.oscType, getInt32_truncated h hlt]
  | float bits =>
      rw [OscArgument.encode, length_be32] at hlt
      simp [OscArgument.oscType, getFloat, be32toh, overflow_of_lt h hlt]
  | string s =>
      rcases getString_truncated h hstart hlt with hget | hget <;>
        simp [OscArgument.oscType, hget]
  | blob b => simp [OscArgument.oscType, getBlob_truncated h hstart hlt]
  | true | false | nil | impulse => simp [OscArgument.encode] at hlt
  | int64 v =>
      rw [OscArgument.encode, length_be64] at hlt
      simp [OscArgument.oscType, getInt64, be64toh_truncated h hlt]
  | double bits =>
      rw [OscArgument.encode, length_be64] at hlt
      simp [OscArgument.oscType, getDouble, be64toh_truncated h hlt]
  | timetag v =>
      rw [OscArgument.encode, length_be64] at hlt
      simp [OscArgument.oscType, getTimetag, be64toh_truncated h hlt]
  | symbol s =>
      rcases getString_truncated h hstart hlt with hget | hget <;>
        simp [OscArgument.oscType, getSymbol, hget]
  | char v =>
      rw [OscArgument.encode, length_be32] at hlt
      simp [OscArgument.oscType, getChar, getInt32_truncated h hlt]
  | midi port status data₁ data₂ =>
      have hover : r.overflow 4 = Bool.true := overflow_of_lt h hlt (by decide)
      simp [OscArgument.oscType, getMidi, hover]
  | rgba red green blue alpha =>
      have hover : r.overflow 4 = Bool.true := overflow_of_lt h hlt (by decide)
      simp [OscArgument.oscType, getRgba, hover]

end OscReader

/-! ## Handling the message -/

section Handler

variable {σ : Type} {draw : σ → Call → Run σ} {prio : Prio}

lemma exists_of_priorityLoop {x : OscArgument} {r : OscReader} {arg : OscArg} {bs : List UInt8}
    (htag : arg.tag = x.tag) (hrest : r.Rest bs) (hend : arg.end_ = r.end_) {fuel a : ℕ}
    {l : PriorityLocals} {s : σ} {res : OscArg × PriorityLocals × σ}
    (h : priorityLoop draw prio fuel r (x.loadInto arg a) l s = .ok res) :
    ∃ fuel' l' s' arg' r',
      r.argRaw { x.loadInto arg a with type := arg.type.tail } = .ok (some (arg', r')) ∧
        priorityLoop draw prio fuel' r' arg' l' s' = .ok res := by
  have hgo := OscReader.argIsEnd_loadInto htag hrest hend a
  cases fuel with
  | zero => simp [priorityLoop, hgo] at h
  | succ fuel =>
      rw [priorityLoop, hgo] at h
      obtain ⟨⟨l', s'⟩, -, h⟩ := Run.bind_eq_ok.mp h
      obtain ⟨next, hnext, h⟩ := Run.bind_eq_ok.mp h
      rw [OscReader.argNext, OscArgument.loadInto_type] at hnext
      cases next with
      | none => simp at h
      | some next => exact ⟨fuel, l', s', next.1, next.2, hnext, h⟩

/-- The loop comes to the argument that is cut, unless a fault stops it before. -/
lemma priorityLoop_truncated (msg : TruncatedMessage) (xs : List OscArgument) :
    ∀ {x : OscArgument} {r : OscReader} {arg : OscArg},
      arg.type = (x :: xs).map OscArgument.tag ++ msg.cut.tag :: msg.types.map OscType.code →
      r.Rest (xs.flatMap OscArgument.encode ++ msg.data) → arg.end_ = r.end_ →
      ∀ fuel a l (s : σ) res,
        priorityLoop draw prio fuel r (x.loadInto arg a) l s ≠ .ok res := by
  induction xs with
  | nil =>
      intro x r arg htype hrest hend fuel a l s res h
      have htag : arg.tag = x.tag := by simp [OscArg.tag, htype]
      obtain ⟨-, -, -, arg', r', hnext, -⟩ := exists_of_priorityLoop htag hrest hend h
      set arg₁ : OscArg := { x.loadInto arg a with type := arg.type.tail } with harg₁
      have htag₁ : arg₁.tag = msg.cut.tag := by simp [harg₁, OscArg.tag, htype]
      rcases OscReader.argRaw_truncated htag₁ hrest msg.data_prefix msg.data_lt with hcut | hcut
      · rw [hcut] at hnext
        simp at hnext
      · rw [hcut] at hnext
        simp at hnext
  | cons y ys ih =>
      intro x r arg htype hrest hend fuel a l s res h
      have htag : arg.tag = x.tag := by simp [OscArg.tag, htype]
      obtain ⟨fuel', l', s', arg', r', hnext, h⟩ := exists_of_priorityLoop htag hrest hend h
      set arg₁ : OscArg := { x.loadInto arg a with type := arg.type.tail } with harg₁
      have htype₁ : arg₁.type =
          (y :: ys).map OscArgument.tag ++ msg.cut.tag :: msg.types.map OscType.code := by
        simp [harg₁, htype]
      rw [List.flatMap_cons, List.append_assoc] at hrest
      rw [OscReader.argRaw_encode (by simp [OscArg.tag, htype₁]) hrest] at hnext
      obtain ⟨rfl, rfl⟩ := Prod.mk.inj (Option.some.inj (Except.ok.inj hnext))
      exact ih htype₁ hrest.advance (by simp [harg₁, hend]) fuel' r.ptr l' s' res h

/-- **Truncated messages are never handled to the end.** -/
theorem handleOscMessage_truncated (msg : TruncatedMessage) (fn : Fnmatch) {r : OscReader}
    (hrest : r.Rest msg.bytes) (s s' : σ) :
    handleOscMessage draw fn r msg.bytes.length s ≠ .ok s' := by
  intro h
  obtain ⟨first, hfirst, h⟩ := Run.bind_eq_ok.mp h
  rw [TruncatedMessage.bytes] at hrest hfirst
  rw [OscReader.argBegin_header hrest] at hfirst
  have hbody := hrest.advance
  set arg := OscReader.headerArg (PathSegment.ofPrio msg.prio).path msg.announced r.end_ with harg
  cases hargs : msg.args with
  | nil =>
      rw [hargs, List.flatMap_nil, List.nil_append] at hbody
      have htag : arg.tag = msg.cut.tag := by
        simp [harg, OscReader.headerArg, TruncatedMessage.announced, hargs, OscArg.tag,
          OscArgument.tag]
      rcases OscReader.argRaw_truncated htag hbody msg.data_prefix msg.data_lt with hcut | hcut
      · rw [hcut] at hfirst
        rw [← Except.ok.inj hfirst] at h
        simp at h
      · simp [hcut] at hfirst
  | cons x xs =>
      rw [hargs, List.flatMap_cons, List.append_assoc] at hbody
      have htype : arg.type =
          (x :: xs).map OscArgument.tag ++ msg.cut.tag :: msg.types.map OscType.code := by
        simp [harg, OscReader.headerArg, TruncatedMessage.announced, hargs, OscArgument.tag]
      rw [OscReader.argRaw_encode (by simp [OscArg.tag, htype]) hbody] at hfirst
      rw [← Except.ok.inj hfirst] at h
      obtain ⟨res, hmatch, -⟩ := Run.bind_eq_ok.mp h
      have hpath : arg.path.tail.splitOn '/'.toUInt8 =
          [rootName, (PathSegment.ofPrio msg.prio).chars] := PathSegment.splitOn_path _
      rw [OscArgument.loadInto_path, hpath, oscTreesInternal_treeRoot, matchingPrios_ofPrio,
        List.foldlM_cons] at hmatch
      obtain ⟨res', hpriority, -⟩ := Run.bind_eq_ok.mp hmatch
      obtain ⟨res'', hloop, -⟩ := Run.bind_eq_ok.mp hpriority
      exact priorityLoop_truncated msg xs htype hbody.advance rfl _ _ _ _ _ hloop

end Handler

/-! ## Packets -/

/-- A packet is rejected without effect on the bitmap. -/
def RejectedWithoutEffect (libc : Libc) (fuel : ℕ) (app : App State) (timetag : UInt64)
    {bytes : List UInt8} (pkt : Packet bytes) : Prop :=
  ∃ app', pkt.handle Call.exec libc fuel app timetag = .ok app' ∧ app'.state = app.state

/-- **Truncated messages.**  The handling of a truncated message comes to an end.  If the message
is to be handled at once it ends in a fault: only one that is merely scheduled is without
effect. -/
theorem truncated_iff (libc : Libc) (fuel : ℕ) (app : App State) (timetag : UInt64)
    (msg : TruncatedMessage) (pkt : Packet msg.bytes) :
    Ends (pkt.handle Call.exec libc (fuel + 1) app timetag) ∧
      (RejectedWithoutEffect libc (fuel + 1) app timetag pkt ↔ timetag ≠ oscImmediate) := by
  have hrest := pkt.rest_reader
  obtain ⟨bs, hslash⟩ : ∃ bs, msg.bytes = '/'.toUInt8 :: bs := ⟨_, rfl⟩
  have hbytes : pkt.mem.At pkt.mem.base msg.bytes := hrest.at_
  have hfirst : pkt.mem.At pkt.mem.base ('/'.toUInt8 :: bs) := by
    rw [← hslash]
    exact hbytes
  unfold RejectedWithoutEffect Packet.handle
  rw [handleOscPacket_message fuel app timetag _ hfirst]
  by_cases himmediate : timetag = oscImmediate
  · rw [if_pos himmediate]
    refine ⟨(ends_handleOscMessage ends_exec _ _ _ _).bind fun _ _ => ends_ok _, ?_⟩
    refine iff_of_false ?_ (not_not_intro himmediate)
    rintro ⟨app', h, -⟩
    obtain ⟨state, hstate, -⟩ := Run.bind_eq_ok.mp h
    exact handleOscMessage_truncated msg libc.fnmatch hrest _ _ hstate
  · rw [if_neg himmediate]
    obtain ⟨-, h⟩ | ⟨elmnt, -, -, -, h⟩ := @schedule_eq _ libc _ _ _ app timetag hbytes
    · rw [h]
      exact ⟨ends_ok _, iff_of_true ⟨_, rfl, rfl⟩ himmediate⟩
    · rw [h]
      exact ⟨ends_ok _, iff_of_true ⟨_, rfl, rfl⟩ himmediate⟩

/-- A message that announces an integer and has no argument data. -/
def intWithoutData (prio : Prio) : TruncatedMessage where
  prio := prio
  args := []
  cut := .int32 0
  types := []
  data := []
  data_prefix := List.nil_prefix
  data_lt := by decide

/-- It makes `lv2_osc_reader_match` take `arg->path` of the null pointer. -/
theorem truncated_counterexample :
    (Packet.placed (intWithoutData 0).bytes (by decide)).handle Call.exec .simple 1
        ⟨State.zero, [], 0⟩ oscImmediate = .error .nullPointer ∧
      ¬ ∀ timetag, RejectedWithoutEffect .simple 1 ⟨State.zero, [], 0⟩ timetag
        (Packet.placed (intWithoutData 0).bytes (by decide)) := by
  have hfault : (Packet.placed (intWithoutData 0).bytes (by decide)).handle Call.exec .simple 1
      ⟨State.zero, [], 0⟩ oscImmediate = .error .nullPointer := rfl
  refine ⟨hfault, fun h => ?_⟩
  obtain ⟨app', happ', -⟩ := h oscImmediate
  rw [hfault] at happ'
  simp at happ'

end MonoBus
