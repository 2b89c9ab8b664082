import MonoBus.Construction.ArgumentWalk

/-!
# Where a packet is read

The items of a bundle end in front of the end of the bundle, negative sizes included, for the
overflow check is made with wrapping addresses (`Held`).  What can be read outside of the packet
is the literal `#bundle` at its end, a message, the copy of a message with a negative size, and
the size of an item in front of the packet.
-/

namespace MonoBus

/-! ## What is needed -/

/-- The bytes that are copied lie in the packet, unless the request for them is more than there
is. -/
def CopyInside (mem : Memory) (buf len : ℕ) : Prop :=
  mem.Holds buf len ∨ 2 ^ 63 ≤ addPtr sizeofSched len

/-- A packet is read inside: what tells its kind, and if it is a message, the message or what is
copied of it. -/
structure PacketInside (fn : Fnmatch) (timetag : UInt64) (mem : Memory) (buf len : ℕ) : Prop where
  kind : ¬ mem.EndsWithin buf OscReader.bundleLiteral
  message : mem.load buf = .ok '/'.toUInt8 → timetag = oscImmediate →
    MessageInside fn (.initializeAt mem buf len) len
  copy : mem.load buf = .ok '/'.toUInt8 → timetag ≠ oscImmediate → CopyInside mem buf len

/-- The size of the next item is read inside. -/
def NextInside (itm : OscItem) (reader : OscReader) : Prop :=
  (reader.advance (sizeOfInt32 itm.size)).overflow 4 = false →
    reader.mem.base ≤ (reader.advance (sizeOfInt32 itm.size)).ptr

/-! ## What the overflow check promises -/

/-- A packet starts and ends in the object, or its size is a negative number. -/
structure PacketHeld (mem : Memory) (buf len : ℕ) : Prop where
  base_le : mem.base ≤ buf
  le_limit : buf ≤ mem.limit
  end_le : addPtr buf len ≤ mem.limit
  size : mem.Holds buf len ∨ 2 ^ 64 - 2 ^ 31 ≤ len ∧ len < 2 ^ 64

/-- An item starts in the object, and it ends in front of the end of the bundle. -/
structure ItemHeld (itm : OscItem) (reader : OscReader) : Prop where
  base_le : reader.mem.base ≤ reader.ptr
  ptr_le : reader.ptr ≤ reader.end_
  end_le : reader.end_ ≤ reader.mem.limit
  body : itm.body = reader.ptr
  size : addPtr reader.ptr (sizeOfInt32 itm.size) ≤ reader.end_

/-- A place that has been reached by reads inside. -/
def Place.Held : Place → Prop
  | .packet mem buf len => PacketHeld mem buf len
  | .item itm reader => ItemHeld itm reader

section Held

variable {mem : Memory} {buf len : ℕ} {itm itm' : OscItem} {reader reader' : OscReader}

lemma itemHeld_of_itemRaw (hbase : reader.mem.base ≤ reader.ptr)
    (hend : reader.end_ ≤ reader.mem.limit) (hptr : reader.ptr ≤ reader.mem.limit)
    (h : reader.itemRaw itm = .ok (some (itm', reader'))) : ItemHeld itm' reader' := by
  obtain ⟨hover, rfl, hfits, hbody, -⟩ := OscReader.itemRaw_eq_some h
  have hlimit := reader.mem.fits
  have heq : reader.mem.limit = reader.mem.base + reader.mem.bytes.length := rfl
  have hle := OscReader.le_of_overflow hover (by omega)
  have hadvance : (reader.advance 4).ptr = reader.ptr + 4 := addPtr_of_lt (by omega)
  refine ⟨?_, ?_, hend, hbody, (OscReader.moved_advance hfits).ptr_le⟩
  · show reader.mem.base ≤ (reader.advance 4).ptr
    omega
  · show (reader.advance 4).ptr ≤ reader.end_
    omega

lemma ItemHeld.packetHeld_body (h : ItemHeld itm reader) :
    PacketHeld reader.mem itm.body (sizeOfInt32 itm.size) := by
  have hsize := h.size
  have hptr := h.ptr_le
  have hend := h.end_le
  have hfits := reader.mem.fits
  have hlimit : reader.mem.limit = reader.mem.base + reader.mem.bytes.length := rfl
  have hbounds := int32_toInt_bounds itm.size
  rw [h.body]
  refine ⟨h.base_le, hptr.trans hend, hsize.trans hend, ?_⟩
  by_cases hneg : itm.size.toInt < 0
  · right
    rw [sizeOfInt32]
    omega
  · left
    rw [sizeOfInt32_of_nonneg (not_lt.mp hneg), addPtr_of_lt (by omega)] at hsize
    rw [sizeOfInt32_of_nonneg (not_lt.mp hneg)]
    exact ⟨h.base_le, hsize.trans hend⟩

lemma ItemHeld.next (h : ItemHeld itm reader) (hinside : NextInside itm reader)
    (hnext : reader.itemNext itm = .ok (some (itm', reader'))) : ItemHeld itm' reader' := by
  have hraw : (reader.advance (sizeOfInt32 itm.size)).itemRaw itm = .ok (some (itm', reader')) :=
    hnext
  have hover := (OscReader.itemRaw_eq_some hraw).1
  have hptr : (reader.advance (sizeOfInt32 itm.size)).ptr ≤ reader.mem.limit :=
    h.size.trans h.end_le
  have hend : (reader.advance (sizeOfInt32 itm.size)).end_ ≤
      (reader.advance (sizeOfInt32 itm.size)).mem.limit := h.end_le
  exact itemHeld_of_itemRaw (hinside hover) hend hptr hraw

lemma ItemHeld.avoids_itemNext_iff (h : ItemHeld itm reader) :
    Avoids .outOfRange (reader.itemNext itm) ↔ NextInside itm reader := by
  have hptr : (reader.advance (sizeOfInt32 itm.size)).ptr ≤ reader.mem.limit :=
    h.size.trans h.end_le
  exact OscReader.avoids_itemRaw_iff hptr h.end_le

lemma PacketHeld.avoids_itemBegin (h : PacketHeld mem buf len)
    (hbundle : (OscReader.initializeAt mem buf len).isBundle = .ok true) :
    Avoids .outOfRange ((OscReader.initializeAt mem buf len).itemBegin len) := by
  have hfits := mem.fits
  have hlimit : mem.limit = mem.base + mem.bytes.length := rfl
  have hbase := h.base_le
  have hle := h.le_limit
  unfold OscReader.itemBegin
  refine .ite (avoids_ok _) ?_
  split_ifs with hheader
  · exact avoids_ok _
  -- sixteen bytes are left, and the first item is read at the address behind them
  have hroom := OscReader.le_of_overflow (Bool.eq_false_iff.mpr hheader)
    (show buf + 16 < 2 ^ 64 by omega)
  have hptr : buf + 16 ≤ mem.limit := le_trans hroom h.end_le
  have hmid : addPtr buf 8 = buf + 8 := addPtr_of_lt (by omega)
  have hskip : (((OscReader.initializeAt mem buf len).advance 8).advance 8).ptr = buf + 16 :=
    OscReader.advance_header (by omega)
  refine Avoids.bind (.of_eq_ok hbundle) fun isBundle _ => .ite (avoids_ok _) ?_
  refine Avoids.bind ?_ fun timetag htimetag => ?_
  · refine (OscReader.avoids_be64toh_iff ?_ h.end_le).mpr fun _ => ?_
    · show addPtr buf 8 ≤ mem.limit
      omega
    · show mem.base ≤ addPtr buf 8
      omega
  · cases timetag with
    | none => exact avoids_ok _
    | some timetag =>
        obtain ⟨-, hread⟩ := OscReader.be64toh_eq_some htimetag
        dsimp only
        rw [hread]
        refine (OscReader.avoids_itemRaw_iff ?_ h.end_le).mpr fun _ => ?_
        · rw [hskip]
          exact hptr
        · rw [hskip]
          exact hbase.trans (Nat.le_add_right _ _)

lemma PacketHeld.first (h : PacketHeld mem buf len)
    (hbegin : (OscReader.initializeAt mem buf len).itemBegin len = .ok (some (itm, reader))) :
    ItemHeld itm reader := by
  obtain ⟨hover, itm₀, -, hraw⟩ := OscReader.itemBegin_eq_some hbegin
  have hfits := mem.fits
  have hlimit : mem.limit = mem.base + mem.bytes.length := rfl
  have hbase := h.base_le
  have hle := h.le_limit
  have hend := h.end_le
  have hheader := OscReader.le_of_overflow hover (show buf + 16 < 2 ^ 64 by omega)
  have hskip : (((OscReader.initializeAt mem buf len).advance 8).advance 8).ptr = buf + 16 :=
    OscReader.advance_header (by omega)
  have hptr : buf + 16 ≤ addPtr buf len := hheader
  refine itemHeld_of_itemRaw ?_ hend ?_ hraw
  · rw [hskip]
    exact hbase.trans (Nat.le_add_right _ _)
  · rw [hskip]
    exact hptr.trans hend

end Held

/-! ## One packet -/

section Packet

variable {libc : Libc} {app : App State} {timetag : UInt64} {mem : Memory} {buf len fuel : ℕ}

/-- What is copied inside is copied, or there is no memory for the copy. -/
lemma CopyInside.avoids_schedule (h : CopyInside mem buf len) :
    Avoids .outOfRange (schedule libc app timetag mem buf len) := by
  unfold schedule
  split
  next elmnt hmalloc =>
    have hfits := (libc.malloc.fits hmalloc).2
    rcases h with hholds | hrequest
    · have hlt : sizeofSched + len < 2 ^ 64 := by
        have hend := hholds.2
        have hlimit : mem.limit = mem.base + mem.bytes.length := rfl
        have hmem := mem.fits
        unfold sizeofSched
        omega
      refine Avoids.bind (Memory.avoids_slice_iff.mpr hholds) fun bytes hbytes => ?_
      refine Avoids.bind ?_ fun _ _ => avoids_ok _
      have hlen : bytes.length ≤ len := by
        rw [Memory.slice, if_pos hholds] at hbytes
        rw [← Except.ok.inj hbytes]
        exact List.length_take_le _ _
      rw [addPtr_of_lt hlt] at hfits
      rw [Memory.block, dif_pos ⟨by unfold sizeofSched; omega, by omega⟩]
      exact avoids_ok _
    · have hpos := (libc.malloc.fits hmalloc).1
      omega
  next => exact avoids_ok _

/-- A request that wraps around is for fewer bytes than the header of an element. -/
lemma PacketHeld.copyInside (h : PacketHeld mem buf len) (hgrants : libc.malloc.Grants 31)
    (havoids : Avoids .outOfRange (schedule libc app timetag mem buf len)) :
    CopyInside mem buf len := by
  rcases h.size with hholds | ⟨hge, hlt⟩
  · exact .inl hholds
  by_cases hrequest : 2 ^ 63 ≤ addPtr sizeofSched len
  · exact .inr hrequest
  have hsmall : addPtr sizeofSched len ≤ 31 := by
    unfold addPtr sizeofSched at hrequest ⊢
    omega
  obtain ⟨elmnt, hmalloc⟩ := Option.isSome_iff_exists.mp (hgrants app.allocs _ hsmall)
  unfold schedule at havoids
  rw [hmalloc] at havoids
  exact .inl (Memory.avoids_slice_iff.mp havoids.left)

/-- A packet that is read inside, up to the items of a bundle. -/
lemma PacketHeld.avoids_handleOscPacket (h : PacketHeld mem buf len)
    (hinside : PacketInside libc.fnmatch timetag mem buf len)
    (hitems : (OscReader.initializeAt mem buf len).isBundle = .ok true →
      Avoids .outOfRange
        (handleOscBundle Call.exec libc fuel app (OscReader.initializeAt mem buf len) len)) :
    Avoids .outOfRange (handleOscPacket Call.exec libc (fuel + 1) app timetag mem buf len) := by
  by_cases hslash : mem.load buf = .ok '/'.toUInt8
  · rw [handleOscPacket_message fuel app timetag len (.of_load hslash)]
    split_ifs with htimetag
    · refine Avoids.bind ?_ fun _ _ => avoids_ok _
      exact (avoids_handleOscMessage_iff h.end_le rfl _).mpr (hinside.message hslash htimetag)
    · exact (hinside.copy hslash htimetag).avoids_schedule
  rw [handleOscPacket]
  refine Avoids.bind ((Memory.avoids_strncmpEq_iff h.base_le).mpr hinside.kind) ?_
  intro isBundle hbundle
  cases isBundle with
  | true => exact hitems hbundle
  | false =>
      refine Avoids.bind ?_ fun isMessage hmessage => ?_
      · -- the comparison has read the first byte
        obtain ⟨b, hb, -⟩ := Run.bind_eq_ok.mp hbundle
        exact Avoids.bind (.of_eq_ok hb) fun _ _ => avoids_ok _
      · obtain ⟨b, hb, hkind⟩ := Run.bind_eq_ok.mp hmessage
        have hne : b ≠ '/'.toUInt8 := by
          rintro rfl
          exact hslash hb
        rw [← Except.ok.inj hkind, decide_eq_false hne]
        exact avoids_ok _

/-- Nothing less than that is needed. -/
lemma PacketHeld.packetInside (h : PacketHeld mem buf len) (hgrants : libc.malloc.Grants 31)
    (havoids :
      Avoids .outOfRange (handleOscPacket Call.exec libc (fuel + 1) app timetag mem buf len)) :
    PacketInside libc.fnmatch timetag mem buf len := by
  refine ⟨?_, fun hslash htimetag => ?_, fun hslash htimetag => ?_⟩
  · rw [handleOscPacket] at havoids
    exact (Memory.avoids_strncmpEq_iff h.base_le).mp havoids.left
  · rw [handleOscPacket_message fuel app timetag len (.of_load hslash), if_pos htimetag]
      at havoids
    exact (avoids_handleOscMessage_iff h.end_le rfl _).mp havoids.left
  · rw [handleOscPacket_message fuel app timetag len (.of_load hslash), if_neg htimetag]
      at havoids
    exact h.copyInside hgrants havoids

end Packet

end MonoBus
