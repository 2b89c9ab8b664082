import MonoBus.Construction.BundleWalk

/-!
# Where a message is read

The getters check that what they read ends in front of the end of the message, and the end of a
message that has been found lies in the packet.  They do not check that the pointer has not been
moved in front of the packet, which a negative blob length can do; and a string is scanned before
its length is checked.  `ArgInside` says for each type tag what is needed.
-/

namespace MonoBus

/-! ## One getter -/

namespace OscReader

/-- The reader has gone on, and has not passed the end. -/
structure Moved (r r' : OscReader) : Prop where
  mem_eq : r'.mem = r.mem
  end_eq : r'.end_ = r.end_
  ptr_le : r'.ptr ≤ r'.end_

/-- What is read for a type tag lies in the object. -/
def ArgInside (r : OscReader) (tag : UInt8) : Prop :=
  match OscType.ofByte tag with
  | some .string | some .symbol => r.mem.Terminated r.ptr
  | some .int64 | some .double | some .timetag => r.overflow 8 = false → r.mem.base ≤ r.ptr
  | some .int32 | some .float | some .blob | some .char | some .rgba =>
      r.overflow 4 = false → r.mem.base ≤ r.ptr
  | _ => True

variable {r r' : OscReader} {n : ℕ}

lemma moved_advance (h : r.overflow n = false) : r.Moved (r.advance n) where
  mem_eq := rfl
  end_eq := rfl
  ptr_le := by
    have hle := of_decide_eq_false h
    exact not_lt.mp hle

lemma Moved.trans {r'' : OscReader} (h : r.Moved r') (h' : r'.Moved r'') : r.Moved r'' :=
  ⟨h'.mem_eq.trans h.mem_eq, h'.end_eq.trans h.end_eq, h'.ptr_le⟩

/-- The overflow check and the start of the object are all that a read of `n` bytes needs. -/
lemma holds_iff_of_overflow (hptr : r.ptr ≤ r.mem.limit) (hend : r.end_ ≤ r.mem.limit)
    (hn : n < 2 ^ 63) (hover : r.overflow n = false) :
    r.mem.Holds r.ptr n ↔ r.mem.base ≤ r.ptr := by
  have hfits := r.mem.fits
  have hlimit : r.mem.limit = r.mem.base + r.mem.bytes.length := rfl
  have hle := le_of_overflow hover (by omega)
  exact ⟨fun h => h.1, fun h => ⟨h, by omega⟩⟩

lemma avoids_bind_ok_iff {α β : Type} {e : Stop} {x : Run α} {f : α → β} :
    Avoids e (x >>= fun a => .ok (f a)) ↔ Avoids e x :=
  ⟨fun h => h.left, fun h => h.bind fun _ _ => avoids_ok _⟩

lemma avoids_getString_iff : Avoids .outOfRange r.getString ↔ r.mem.Terminated r.ptr := by
  rw [← Memory.avoids_cstr_iff]
  exact ⟨fun h => h.left, fun h => h.bind fun _ _ => .ite (avoids_ok _) (avoids_ok _)⟩

section Getters

variable (hptr : r.ptr ≤ r.mem.limit) (hend : r.end_ ≤ r.mem.limit)
include hptr hend

lemma avoids_checked_iff {α : Type} (hn : n < 2 ^ 63) {f : List UInt8 → α} :
    Avoids .outOfRange (if r.overflow n then .ok none
      else r.mem.slice r.ptr n >>= fun bytes => .ok (some (f bytes, r.advance n)) :
        Run (Option (α × OscReader))) ↔ (r.overflow n = false → r.mem.base ≤ r.ptr) := by
  cases hover : r.overflow n with
  | true => simp
  | false =>
      rw [if_neg Bool.false_ne_true, avoids_bind_ok_iff, Memory.avoids_slice_iff,
        holds_iff_of_overflow hptr hend hn hover]
      exact (imp_iff_right rfl).symm

lemma avoids_be32toh_iff :
    Avoids .outOfRange r.be32toh ↔ (r.overflow 4 = false → r.mem.base ≤ r.ptr) :=
  avoids_checked_iff hptr hend (by norm_num)

lemma avoids_be64toh_iff :
    Avoids .outOfRange r.be64toh ↔ (r.overflow 8 = false → r.mem.base ≤ r.ptr) :=
  avoids_checked_iff hptr hend (by norm_num)

lemma avoids_getInt32_iff :
    Avoids .outOfRange r.getInt32 ↔ (r.overflow 4 = false → r.mem.base ≤ r.ptr) :=
  avoids_bind_ok_iff.trans (avoids_be32toh_iff hptr hend)

lemma avoids_getRgba_iff :
    Avoids .outOfRange r.getRgba ↔ (r.overflow 4 = false → r.mem.base ≤ r.ptr) := by
  unfold getRgba
  cases hover : r.overflow 4 with
  | true => simp
  | false =>
      have hfits := r.mem.fits
      have hlimit : r.mem.limit = r.mem.base + r.mem.bytes.length := rfl
      have hle := le_of_overflow hover (by omega)
      simp only [Bool.false_eq_true, if_false, forall_const]
      constructor
      · intro h
        exact (Memory.avoids_load_iff.mp h.left).1
      · intro hbase
        have hload {i : ℕ} (hi : i < 4) : Avoids .outOfRange (r.mem.load (addPtr r.ptr i)) := by
          rw [Memory.avoids_load_iff, addPtr_of_lt (by omega)]
          exact ⟨by omega, by omega⟩
        refine Avoids.bind ?_ fun _ _ => (hload (by norm_num)).bind fun _ _ => ?_
        · have hfirst := hload (show 0 < 4 by norm_num)
          rwa [addPtr_of_lt (by omega), Nat.add_zero] at hfirst
        · exact (hload (by norm_num)).bind fun _ _ => (hload (by norm_num)).bind fun _ _ =>
            avoids_ok _

lemma avoids_getBlob_iff :
    Avoids .outOfRange r.getBlob ↔ (r.overflow 4 = false → r.mem.base ≤ r.ptr) := by
  rw [← avoids_getInt32_iff hptr hend]
  constructor
  · intro h
    exact h.left
  · intro h
    refine h.bind fun len _ => ?_
    cases len with
    | none => exact avoids_ok _
    | some len => exact .ite (avoids_ok _) (avoids_ok _)

lemma avoids_itemRaw_iff {itm : OscItem} :
    Avoids .outOfRange (r.itemRaw itm) ↔ (r.overflow 4 = false → r.mem.base ≤ r.ptr) := by
  rw [← avoids_getInt32_iff hptr hend]
  constructor
  · intro h
    exact h.left
  · intro h
    refine h.bind fun size _ => ?_
    cases size with
    | none => exact avoids_ok _
    | some size => exact .ite (avoids_ok _) (avoids_ok _)

lemma avoids_argRaw_iff (arg : OscArg) :
    Avoids .outOfRange (r.argRaw arg) ↔ r.ArgInside arg.tag := by
  unfold argRaw ArgInside
  cases OscType.ofByte arg.tag with
  | none => simp
  | some type =>
      cases type with
      | int32 => exact avoids_bind_ok_iff.trans (avoids_getInt32_iff hptr hend)
      | float => exact avoids_bind_ok_iff.trans (avoids_be32toh_iff hptr hend)
      | string | symbol => exact avoids_bind_ok_iff.trans avoids_getString_iff
      | blob => exact avoids_bind_ok_iff.trans (avoids_getBlob_iff hptr hend)
      | int64 => exact avoids_bind_ok_iff.trans (avoids_bind_ok_iff.trans
          (avoids_be64toh_iff hptr hend))
      | double | timetag => exact avoids_bind_ok_iff.trans (avoids_be64toh_iff hptr hend)
      | char => exact avoids_bind_ok_iff.trans (avoids_bind_ok_iff.trans
          (avoids_getInt32_iff hptr hend))
      | rgba => exact avoids_bind_ok_iff.trans (avoids_getRgba_iff hptr hend)
      | midi | true | false | nil | impulse => simp

end Getters

/-! ## The reader goes on -/

lemma moved_of_getString {str : List UInt8} (h : r.getString = .ok (some (str, r'))) :
    r.Moved r' := by
  obtain ⟨chars, -, h⟩ := Run.bind_eq_ok.mp h
  dsimp only at h
  split_ifs at h with hover
  · simp at h
  · obtain ⟨-, rfl⟩ := Prod.mk.inj (Option.some.inj (Except.ok.inj h))
    exact moved_advance (by simpa using hover)

lemma moved_of_getBlob {blob : Int32 × ℕ} (h : r.getBlob = .ok (some (blob, r'))) :
    r.Moved r' := by
  obtain ⟨len, hlen, h⟩ := Run.bind_eq_ok.mp h
  cases len with
  | none => simp at h
  | some len =>
      obtain ⟨hfirst, hread⟩ := getInt32_eq_some hlen
      dsimp only at h
      split_ifs at h with hover
      · simp at h
      · obtain ⟨-, rfl⟩ := Prod.mk.inj (Option.some.inj (Except.ok.inj h))
        rw [hread] at hover ⊢
        exact (moved_advance hfirst).trans (moved_advance (by simpa using hover))

lemma moved_of_getRgba {rgba : UInt8 × UInt8 × UInt8 × UInt8}
    (h : r.getRgba = .ok (some (rgba, r'))) : r.Moved r' := by
  unfold getRgba at h
  split_ifs at h with hover
  · simp at h
  · obtain ⟨red, -, h⟩ := Run.bind_eq_ok.mp h
    obtain ⟨green, -, h⟩ := Run.bind_eq_ok.mp h
    obtain ⟨blue, -, h⟩ := Run.bind_eq_ok.mp h
    obtain ⟨alpha, -, h⟩ := Run.bind_eq_ok.mp h
    obtain ⟨-, rfl⟩ := Prod.mk.inj (Option.some.inj (Except.ok.inj h))
    exact moved_advance (by simpa using hover)

/-- An argument that has been read leaves the end where it was, in the record as well. -/
lemma moved_of_argRaw {arg arg' : OscArg} (hptr : r.ptr ≤ r.end_)
    (h : r.argRaw arg = .ok (some (arg', r'))) : r.Moved r' ∧ arg'.end_ = arg.end_ := by
  unfold argRaw at h
  cases htype : OscType.ofByte arg.tag with
  | none =>
      rw [htype] at h
      obtain ⟨rfl, rfl⟩ := Prod.mk.inj (Option.some.inj (Except.ok.inj h))
      exact ⟨⟨rfl, rfl, hptr⟩, rfl⟩
  | some type =>
      rw [htype] at h
      cases type with
      | true | false | nil | impulse =>
          obtain ⟨rfl, rfl⟩ := Prod.mk.inj (Option.some.inj (Except.ok.inj h))
          exact ⟨⟨rfl, rfl, hptr⟩, rfl⟩
      | midi =>
          obtain ⟨⟨m, r₁⟩, hm, ha⟩ := Option.map_eq_some_iff.mp (Except.ok.inj h)
          obtain ⟨rfl, rfl⟩ := Prod.mk.inj ha
          unfold getMidi at hm
          split_ifs at hm with hover
          obtain ⟨-, rfl⟩ := Prod.mk.inj (Option.some.inj hm)
          exact ⟨moved_advance (by simpa using hover), rfl⟩
      | string | symbol =>
          obtain ⟨⟨str, r₁⟩, hstr, ha⟩ := exists_of_map_eq_ok h
          obtain ⟨rfl, rfl⟩ := Prod.mk.inj ha
          exact ⟨moved_of_getString hstr, rfl⟩
      | blob =>
          obtain ⟨⟨blob, r₁⟩, hblob, ha⟩ := exists_of_map_eq_ok h
          obtain ⟨rfl, rfl⟩ := Prod.mk.inj ha
          exact ⟨moved_of_getBlob hblob, rfl⟩
      | int32 =>
          obtain ⟨⟨i, r₁⟩, hint, ha⟩ := exists_of_map_eq_ok h
          obtain ⟨rfl, rfl⟩ := Prod.mk.inj ha
          obtain ⟨hover, rfl⟩ := getInt32_eq_some hint
          exact ⟨moved_advance hover, rfl⟩
      | float =>
          obtain ⟨⟨f, r₁⟩, hfloat, ha⟩ := exists_of_map_eq_ok h
          obtain ⟨rfl, rfl⟩ := Prod.mk.inj ha
          obtain ⟨hover, rfl⟩ := be32toh_eq_some hfloat
          exact ⟨moved_advance hover, rfl⟩
      | double | timetag =>
          obtain ⟨⟨t, r₁⟩, htime, ha⟩ := exists_of_map_eq_ok h
          obtain ⟨rfl, rfl⟩ := Prod.mk.inj ha
          obtain ⟨hover, rfl⟩ := be64toh_eq_some htime
          exact ⟨moved_advance hover, rfl⟩
      | int64 =>
          obtain ⟨⟨i, r₁⟩, hint, ha⟩ := exists_of_map_eq_ok h
          obtain ⟨rfl, rfl⟩ := Prod.mk.inj ha
          obtain ⟨⟨u, r₂⟩, hread, hu⟩ := exists_of_map_eq_ok hint
          obtain ⟨-, rfl⟩ := Prod.mk.inj hu
          obtain ⟨hover, rfl⟩ := be64toh_eq_some hread
          exact ⟨moved_advance hover, rfl⟩
      | char =>
          obtain ⟨⟨c, r₁⟩, hchar, ha⟩ := exists_of_map_eq_ok h
          obtain ⟨rfl, rfl⟩ := Prod.mk.inj ha
          obtain ⟨⟨i, r₂⟩, hread, hi⟩ := exists_of_map_eq_ok hchar
          obtain ⟨-, rfl⟩ := Prod.mk.inj hi
          obtain ⟨hover, rfl⟩ := getInt32_eq_some hread
          exact ⟨moved_advance hover, rfl⟩
      | rgba =>
          obtain ⟨⟨rgba, r₁⟩, hrgba, ha⟩ := exists_of_map_eq_ok h
          obtain ⟨rfl, rfl⟩ := Prod.mk.inj ha
          exact ⟨moved_of_getRgba hrgba, rfl⟩

end OscReader

/-! ## Drawing a bitmap -/

/-- The bytes that a call reads lie in the object of its blob. -/
def Call.Inside : Call → Prop
  | .setPixels _ offx offy width height blob => ∀ k ∈ rectKeys offx offy width height,
      blob.mem.Holds (addPtr blob.addr
        (getBitIndex k.1.toUInt32 k.2.toUInt32 width.toUInt32).toNat) 1
  | .clrPixels .. => True

lemma avoids_getBit_iff {blob : Ptr} {y x width : UInt32} :
    Avoids .outOfRange (getBit blob y x width) ↔
      blob.mem.Holds (addPtr blob.addr (getBitIndex y x width).toNat) 1 :=
  OscReader.avoids_bind_ok_iff.trans Memory.avoids_load_iff

lemma avoids_exec_iff (state : State) (call : Call) :
    Avoids .outOfRange (call.exec state) ↔ call.Inside := by
  cases call with
  | clrPixels prio offx offy width height =>
      rw [Call.exec, clrPixels_eq]
      exact iff_of_true (avoids_ok _) trivial
  | setPixels prio offx offy width height blob =>
      rw [Call.exec]
      cases hrun : setPixels state prio offx offy width height blob with
      | ok state' =>
          refine iff_of_true (avoids_ok _) fun k hk => ?_
          rw [setPixels_eq_sweep] at hrun
          obtain ⟨bit, hbit⟩ := read_ok_of_sweep_ok hrun k hk
          exact avoids_getBit_iff.mp (.of_eq_ok hbit)
      | error e =>
          refine iff_of_false (fun h => h (error_of_setPixels hrun ▸ rfl)) fun h => ?_
          rw [setPixels_eq_sweep] at hrun
          obtain ⟨k, hk, hbit⟩ := exists_read_error_of_sweep_error hrun
          have herror : getBit blob k.1.toUInt32 k.2.toUInt32 width.toUInt32 =
              .error .outOfRange := by
            rw [hbit, error_of_setPixels (setPixels_eq_sweep.trans hrun)]
          exact avoids_getBit_iff.mpr (h k hk) herror

end MonoBus
