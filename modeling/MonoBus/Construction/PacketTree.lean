import MonoBus.Construction.Daemon

/-!
# Packets as trees

A bundle is a list of packets, each with its size in front, and a packet is a message or a
bundle.  `OscPacket.visits` lists the messages of a tree from left to right, each with the
timetag of the bundle it stands in and with its place in memory.
-/

namespace MonoBus

/-- A packet.  Of a message only the slash at its start matters here. -/
inductive OscPacket
  | message (rest : List UInt8)
  | bundle (timetag : UInt64) (items : List OscPacket)

namespace OscPacket

mutual

/-- The bytes of a packet. -/
def encode : OscPacket → List UInt8
  | .message rest => '/'.toUInt8 :: rest
  | .bundle timetag items => OscReader.bundleLiteral ++ (be64 timetag ++ encodeItems items)

/-- The bytes of the items of a bundle. -/
def encodeItems : List OscPacket → List UInt8
  | [] => []
  | p :: ps => be32 (UInt32.ofNat p.encode.length) ++ (p.encode ++ encodeItems ps)

end

mutual

/-- The size of every item is a positive `int32_t`. -/
def WellSized : OscPacket → Prop
  | .message _ => True
  | .bundle _ items => WellSizedItems items

/-- The sizes of items are positive `int32_t`s, and so are those of their own items. -/
def WellSizedItems : List OscPacket → Prop
  | [] => True
  | p :: ps => p.encode.length < 2 ^ 31 ∧ WellSized p ∧ WellSizedItems ps

end

mutual

/-- The messages of a packet from left to right, with the timetag of the innermost bundle. -/
def leaves (timetag : UInt64) : OscPacket → List (UInt64 × List UInt8)
  | .message rest => [(timetag, '/'.toUInt8 :: rest)]
  | .bundle timetag items => leavesItems timetag items

/-- The messages of the items of a bundle. -/
def leavesItems (timetag : UInt64) : List OscPacket → List (UInt64 × List UInt8)
  | [] => []
  | p :: ps => leaves timetag p ++ leavesItems timetag ps

end

end OscPacket

/-- A message in a packet: the timetag of its bundle, its address and its bytes. -/
structure Visit where
  timetag : UInt64
  addr : ℕ
  bytes : List UInt8

namespace OscPacket

mutual

/-- The messages of a packet that stands at address `a`. -/
def visits (timetag : UInt64) (a : ℕ) : OscPacket → List Visit
  | .message rest => [⟨timetag, a, '/'.toUInt8 :: rest⟩]
  | .bundle timetag items => visitsItems timetag (a + 16) items

/-- The messages of items that stand at address `a`. -/
def visitsItems (timetag : UInt64) (a : ℕ) : List OscPacket → List Visit
  | [] => []
  | p :: ps =>
      visits timetag (a + 4) p ++ visitsItems timetag (a + (4 + p.encode.length)) ps

end

mutual

lemma map_visits (timetag : UInt64) (a : ℕ) :
    ∀ p : OscPacket, (p.visits timetag a).map (fun v => (v.timetag, v.bytes)) = p.leaves timetag
  | .message rest => rfl
  | .bundle timetag' items => by
      rw [visits, leaves]
      exact map_visitsItems timetag' (a + 16) items

lemma map_visitsItems (timetag : UInt64) (a : ℕ) :
    ∀ ps : List OscPacket,
      (visitsItems timetag a ps).map (fun v => (v.timetag, v.bytes)) = leavesItems timetag ps
  | [] => rfl
  | p :: ps => by
      rw [visitsItems, leavesItems, List.map_append, map_visits timetag (a + 4) p,
        map_visitsItems timetag (a + (4 + p.encode.length)) ps]

end

section Memory

variable {mem : Memory}

mutual

lemma at_of_mem_visits (timetag : UInt64) {a : ℕ} :
    ∀ p : OscPacket, mem.At a p.encode → ∀ v ∈ p.visits timetag a, mem.At v.addr v.bytes
  | .message rest, h, v, hv => by
      rw [visits, List.mem_singleton] at hv
      rwa [hv]
  | .bundle timetag' items, h, v, hv => by
      have hitems := h.right.right
      exact at_of_mem_visitsItems timetag' items hitems v hv

lemma at_of_mem_visitsItems (timetag : UInt64) {a : ℕ} :
    ∀ ps : List OscPacket, mem.At a (encodeItems ps) →
      ∀ v ∈ visitsItems timetag a ps, mem.At v.addr v.bytes
  | [], h, v, hv => by simp [visitsItems] at hv
  | p :: ps, h, v, hv => by
      have hitem := h.right
      rw [visitsItems] at hv
      rcases List.mem_append.mp hv with hv | hv
      · exact at_of_mem_visits timetag p hitem.left v hv
      · have hrest := hitem.right
        rw [length_be32, Nat.add_assoc] at hrest
        exact at_of_mem_visitsItems timetag ps hrest v hv

end

end Memory

end OscPacket

/-! ## What is done with a message -/

/-- The message is handled at once if its bundle is immediate, and scheduled otherwise. -/
def Visit.run {σ : Type} (draw : σ → Call → Run σ) (libc : Libc) (mem : Memory) (app : App σ)
    (v : Visit) : Run (App σ) :=
  if v.timetag = oscImmediate then do
    let state ← handleOscMessage draw libc.fnmatch
      (OscReader.initializeAt mem v.addr v.bytes.length) v.bytes.length app.state
    .ok { app with state := state }
  else schedule libc app v.timetag mem v.addr v.bytes.length

/-! ## The items of a bundle -/

namespace OscReader

variable {r : OscReader}

/-- Behind the last item there is no size to read. -/
lemma itemRaw_nil (itm : OscItem) (h : r.Rest []) : r.itemRaw itm = .ok none := by
  have hover : r.overflow 4 = true := by
    rw [h.overflow_eq (by decide)]
    rfl
  simp [itemRaw, getInt32, be32toh, hover]

lemma itemRaw_cons (itm : OscItem) {p : OscPacket} {ps : List OscPacket}
    (hsize : p.encode.length < 2 ^ 31) (h : r.Rest (OscPacket.encodeItems (p :: ps))) :
    r.itemRaw itm = .ok (some
      ({ itm with size := Int32.ofNat p.encode.length, body := r.ptr + 4 }, r.advance 4)) := by
  rw [OscPacket.encodeItems] at h
  have hptr := h.advance_ptr
  have hbody := h.advance
  rw [length_be32] at hptr hbody
  have hfits := hbody.not_overflow
  simp only [itemRaw, getInt32_eq h, toInt32_ofNat, sizeOfInt32_ofNat hsize, hfits, hptr,
    Run.ok_bind, Bool.false_eq_true, if_false, Run.pure_eq]

/-- The items of a bundle start behind its timetag. -/
lemma rest_items {timetag : UInt64} {items : List OscPacket}
    (h : r.Rest (OscPacket.bundle timetag items).encode) :
    (r.advance 16).Rest (OscPacket.encodeItems items) ∧ (r.advance 16).ptr = r.ptr + 16 := by
  rw [OscPacket.encode, ← List.append_assoc] at h
  have hheader : (bundleLiteral ++ be64 timetag).length = 16 := by simp [bundleLiteral]
  rw [← hheader]
  exact ⟨h.advance, h.advance_ptr⟩

lemma itemBegin_bundle {timetag : UInt64} {items : List OscPacket}
    (h : r.Rest (OscPacket.bundle timetag items).encode) :
    r.itemBegin (OscPacket.bundle timetag items).encode.length =
      (r.advance 16).itemRaw { size := 0, body := 0, timetag := timetag, end_ := r.end_ } := by
  have hlen := h.overflow_length
  have hend := h.addPtr_length
  rw [OscPacket.encode] at h
  have hheader : r.overflow 16 = false := by
    rw [← List.append_assoc] at h
    simpa [bundleLiteral] using h.not_overflow
  have htimetag := h.advance
  have hadvance : (r.advance 8).advance 8 = r.advance 16 := by
    simpa [bundleLiteral] using h.advance_advance
  have hlit : r.mem.strncmpEq r.ptr bundleLiteral = .ok true := h.at_.left.strncmpEq
  have hget : (r.advance 8).getTimetag = .ok (some (timetag, r.advance 16)) := by
    rw [← hadvance]
    exact be64toh_eq htimetag
  simp only [itemBegin, hlen, hheader, hlit, hget, hend, Run.ok_bind, Bool.false_eq_true,
    if_false, Bool.not_true]

end OscReader

end MonoBus
