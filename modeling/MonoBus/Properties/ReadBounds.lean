import MonoBus.Construction.PacketVisits

/-!
# Whether a packet is read inside its bytes

The items of bundles lie in the packet as long as the size of the next one does, so packet
handling reads inside exactly if every place that it comes to does (`packet_reads_iff`).  It comes
to what is behind an item only if handling the item comes to an end without a null pointer, and
that is a question about the bytes as well (`Passes`).
-/

namespace MonoBus

/-! ## What has to be inside -/

/-- What is read at a place lies in the packet. -/
def Place.Inside (fn : Fnmatch) (timetag : UInt64) : Place → Prop
  | .packet mem buf len => PacketInside fn timetag mem buf len
  | .item itm reader => reader.itemIsEnd itm = false →
      Passes (MessageComplete fn) itm.timetag
        (.packet reader.mem itm.body (sizeOfInt32 itm.size)) →
      NextInside itm reader

/-- Every place that packet handling comes to is inside. -/
def ReadsInside (fn : Fnmatch) (timetag : UInt64) (c : Place) : Prop :=
  ∀ d, Relation.ReflTransGen (VisitStep (MessageComplete fn)) (timetag, c) d → d.2.Inside fn d.1

/-! ## Packet handling from a place on -/

section Run

variable {libc : Libc} {app : App State} {timetag : UInt64}

lemma ReadsInside.step {fn : Fnmatch} {c d : Place} {timetag' : UInt64}
    (h : ReadsInside fn timetag c)
    (hstep : VisitStep (MessageComplete fn) (timetag, c) (timetag', d)) :
    ReadsInside fn timetag' d :=
  fun e he => h e (.head hstep he)

/-- **Enough.**  From a place from which on all is inside, no read is outside. -/
lemma avoids_run : ∀ (fuel : ℕ) {app : App State} {timetag : UInt64} {c : Place},
    c.Held → ReadsInside libc.fnmatch timetag c →
      Avoids .outOfRange (c.run libc fuel app timetag) := by
  intro fuel
  induction fuel using Nat.strong_induction_on with
  | _ fuel ih =>
    intro app timetag c hheld hinside
    -- the loop, from the next item on
    have hloop (fuel' : ℕ) (hlt : fuel' < fuel) (app : App State)
        (next : Option (OscItem × OscReader))
        (h : ∀ itm reader, next = some (itm, reader) → ItemHeld itm reader ∧
          ReadsInside libc.fnmatch itm.timetag (.item itm reader)) :
        Avoids .outOfRange (bundleForeach Call.exec libc fuel' app next) := by
      cases next with
      | none =>
          cases fuel' with
          | zero => simp [Avoids, bundleForeach]
          | succ fuel' => exact avoids_ok _
      | some next =>
          obtain ⟨hitem, hrest⟩ := h next.1 next.2 rfl
          exact ih fuel' hlt (c := .item next.1 next.2) hitem hrest
    cases fuel with
    | zero => cases c <;> simp [Avoids, Place.run, handleOscPacket, bundleForeach]
    | succ fuel =>
      cases c with
      | packet mem buf len =>
          have hpacket : PacketHeld mem buf len := hheld
          refine hpacket.avoids_handleOscPacket (hinside _ .refl) fun hbundle => ?_
          cases fuel with
          | zero => simp [Avoids, handleOscBundle]
          | succ fuel =>
              refine Avoids.bind (hpacket.avoids_itemBegin hbundle) fun next hbegin => ?_
              refine hloop fuel (by omega) app next ?_
              rintro itm reader rfl
              exact ⟨hpacket.first hbegin, hinside.step (.first hbundle hbegin)⟩
      | item itm reader =>
          have hitem : ItemHeld itm reader := hheld
          rw [Place.run, bundleForeach]
          cases hend : reader.itemIsEnd itm with
          | true => exact avoids_ok _
          | false =>
              have hlt := Nat.lt_succ_self fuel
              have hbody := hitem.packetHeld_body
              refine Avoids.bind (ih fuel hlt (c := .packet _ _ _) hbody
                (hinside.step (.body hend))) fun mid hmid => ?_
              have hpasses : Passes (MessageComplete libc.fnmatch) itm.timetag
                  (.packet reader.mem itm.body (sizeOfInt32 itm.size)) :=
                (passes_of_run_eq_ok fuel (c := .packet _ _ _) hbody hmid).mono fun _ _ h => h.2
              have hnextInside : NextInside itm reader := hinside _ .refl hend hpasses
              refine Avoids.bind (hitem.avoids_itemNext_iff.mpr hnextInside) fun next hnext => ?_
              refine hloop fuel hlt mid next ?_
              rintro itm' reader' rfl
              exact ⟨hitem.next hnextInside hnext, hinside.step (.next hend hpasses hnext)⟩

/-! ## What no read outside tells -/

/-- With enough fuel, no read from a place on is outside. -/
def Place.StaysInside (libc : Libc) (app : App State) (timetag : UInt64) (c : Place) : Prop :=
  ∃ n, ∀ fuel ≥ n, Avoids .outOfRange (c.run libc fuel app timetag)

section StaysInside

variable {mem : Memory} {buf len : ℕ} {itm itm' : OscItem} {reader reader' : OscReader}

lemma Place.StaysInside.packetInside
    (h : Place.StaysInside libc app timetag (.packet mem buf len))
    (hgrants : libc.malloc.Grants 31) (hheld : PacketHeld mem buf len) :
    PacketInside libc.fnmatch timetag mem buf len := by
  obtain ⟨n, h⟩ := h
  exact hheld.packetInside hgrants (h (n + 1) (Nat.le_succ n))

lemma Place.StaysInside.first (h : Place.StaysInside libc app timetag (.packet mem buf len))
    (hbundle : (OscReader.initializeAt mem buf len).isBundle = .ok true)
    (hbegin : (OscReader.initializeAt mem buf len).itemBegin len = .ok (some (itm, reader))) :
    Place.StaysInside libc app itm.timetag (.item itm reader) := by
  obtain ⟨n, h⟩ := h
  refine ⟨n, fun fuel hfuel => ?_⟩
  have hrun := h (fuel + 2) (by omega)
  rw [Place.run, handleOscPacket, hbundle] at hrun
  simp only [Run.ok_bind, if_true, handleOscBundle, hbegin] at hrun
  exact hrun

lemma Place.StaysInside.body (h : Place.StaysInside libc app timetag (.item itm reader))
    (hend : reader.itemIsEnd itm = false) :
    Place.StaysInside libc app itm.timetag
      (.packet reader.mem itm.body (sizeOfInt32 itm.size)) := by
  obtain ⟨n, h⟩ := h
  refine ⟨n, fun fuel hfuel => ?_⟩
  have hrun := h (fuel + 1) (by omega)
  rw [Place.run, bundleForeach, hend] at hrun
  exact hrun.left

lemma Place.StaysInside.behind (h : Place.StaysInside libc app timetag (.item itm reader))
    (hend : reader.itemIsEnd itm = false) {m : ℕ} {app' : App State}
    (hbody : ∀ fuel ≥ m, handleOscPacket Call.exec libc fuel app itm.timetag reader.mem itm.body
      (sizeOfInt32 itm.size) = .ok app') :
    ∃ n, ∀ fuel ≥ n, Avoids .outOfRange (do
      let next ← reader.itemNext itm
      bundleForeach Call.exec libc fuel app' next) := by
  obtain ⟨n, h⟩ := h
  refine ⟨max n m, fun fuel hfuel => ?_⟩
  have hrun := h (fuel + 1) (by omega)
  rw [Place.run, bundleForeach, hend, hbody fuel (by omega)] at hrun
  exact hrun

lemma Place.StaysInside.nextInside (h : Place.StaysInside libc app timetag (.item itm reader))
    (hheld : ItemHeld itm reader) (hend : reader.itemIsEnd itm = false)
    (hbody : Place.Returns libc app itm.timetag
      (.packet reader.mem itm.body (sizeOfInt32 itm.size))) : NextInside itm reader := by
  obtain ⟨m, app', hbody⟩ := hbody
  obtain ⟨n, hrun⟩ := h.behind hend hbody
  exact hheld.avoids_itemNext_iff.mp (hrun n le_rfl).left

lemma Place.StaysInside.next (h : Place.StaysInside libc app timetag (.item itm reader))
    (hend : reader.itemIsEnd itm = false) {m : ℕ} {app' : App State}
    (hbody : ∀ fuel ≥ m, handleOscPacket Call.exec libc fuel app itm.timetag reader.mem itm.body
      (sizeOfInt32 itm.size) = .ok app')
    (hnext : reader.itemNext itm = .ok (some (itm', reader'))) :
    Place.StaysInside libc app' itm'.timetag (.item itm' reader') := by
  obtain ⟨n, hrun⟩ := h.behind hend hbody
  refine ⟨n, fun fuel hfuel => ?_⟩
  have hrest := hrun fuel hfuel
  rw [hnext] at hrest
  exact hrest

lemma Place.StaysInside.messageInside
    (h : Place.StaysInside libc app timetag (.packet mem buf len)) (hheld : PacketHeld mem buf len)
    (hslash : mem.load buf = .ok '/'.toUInt8) (htimetag : timetag = oscImmediate) :
    MessageInside libc.fnmatch (.initializeAt mem buf len) len := by
  obtain ⟨n, hrun⟩ := h
  have hmessage := hrun (n + 1) (Nat.le_succ n)
  rw [Place.run, handleOscPacket_message n app timetag len (.of_load hslash), if_pos htimetag]
    at hmessage
  exact (avoids_handleOscMessage_iff hheld.end_le rfl _).mp hmessage.left

lemma Place.StaysInside.exists_schedule
    (h : Place.StaysInside libc app timetag (.packet mem buf len))
    (hslash : mem.load buf = .ok '/'.toUInt8) (htimetag : timetag ≠ oscImmediate) :
    ∃ app', schedule libc app timetag mem buf len = .ok app' := by
  obtain ⟨n, hrun⟩ := h
  have hcopy := hrun (n + 1) (Nat.le_succ n)
  rw [Place.run, handleOscPacket_message n app timetag len (.of_load hslash), if_neg htimetag]
    at hcopy
  exact (onlyStrays_schedule app timetag mem buf len).exists_ok hcopy

end StaysInside

/-- Packet handling returns from a place that it gets past, if no read is outside. -/
lemma returns_of_passes {c : Place} (hpasses : Passes (MessageComplete libc.fnmatch) timetag c)
    (hheld : c.Held) (hinside : c.StaysInside libc app timetag) : c.Returns libc app timetag := by
  induction hpasses generalizing app with
  | other hbundle hslash => exact .other hbundle hslash
  | message hslash htimetag hcomplete =>
      exact .message hheld hslash htimetag
        ⟨hinside.messageInside hheld hslash htimetag, hcomplete⟩
  | copy hslash htimetag =>
      obtain ⟨app', hschedule⟩ := hinside.exists_schedule hslash htimetag
      exact .copy hslash htimetag hschedule
  | empty hbundle hbegin => exact .empty hbundle hbegin
  | first hbundle hbegin _ ih =>
      have hpacket : PacketHeld _ _ _ := hheld
      exact .first hbundle hbegin (ih (hpacket.first hbegin) (hinside.first hbundle hbegin))
  | stop hend => exact .stop hend
  | last hend _ hnext ih =>
      have hitem : ItemHeld _ _ := hheld
      exact .last hend (ih hitem.packetHeld_body (hinside.body hend)) hnext
  | next hend _ hnext _ ihBody ihNext =>
      have hitem : ItemHeld _ _ := hheld
      have hreturns := ihBody hitem.packetHeld_body (hinside.body hend)
      have hitem' := hitem.next (hinside.nextInside hitem hend hreturns) hnext
      obtain ⟨m, mid, hbody⟩ := hreturns
      exact .next hend hbody hnext (ihNext hitem' (hinside.next hend hbody hnext))

/-- **Needed.**  If no read is outside, every place that packet handling comes to is inside. -/
lemma readsInside_of_staysInside {c : Place} (hgrants : libc.malloc.Grants 31) (hheld : c.Held)
    (h : c.StaysInside libc app timetag) : ReadsInside libc.fnmatch timetag c := by
  intro d hd
  have hinvariant : d.2.Held ∧ ∃ app, d.2.StaysInside libc app d.1 := by
    induction hd with
    | refl => exact ⟨hheld, app, h⟩
    | tail _ hstep ih =>
        obtain ⟨hheld, app, h⟩ := ih
        cases hstep with
        | first hbundle hbegin =>
            have hpacket : PacketHeld _ _ _ := hheld
            exact ⟨hpacket.first hbegin, app, h.first hbundle hbegin⟩
        | body hend =>
            have hitem : ItemHeld _ _ := hheld
            exact ⟨hitem.packetHeld_body, app, h.body hend⟩
        | next hend hpasses hnext =>
            have hitem : ItemHeld _ _ := hheld
            have hreturns := returns_of_passes hpasses hitem.packetHeld_body (h.body hend)
            have hitem' := hitem.next (h.nextInside hitem hend hreturns) hnext
            obtain ⟨n, mid, hbody⟩ := hreturns
            exact ⟨hitem', mid, h.next hend hbody hnext⟩
  obtain ⟨hheld', app', h'⟩ := hinvariant
  obtain ⟨timetag', c'⟩ := d
  cases c' with
  | packet mem buf len => exact h'.packetInside hgrants hheld'
  | item itm reader =>
      intro hend hpasses
      have hitem : ItemHeld itm reader := hheld'
      exact h'.nextInside hitem hend
        (returns_of_passes hpasses hitem.packetHeld_body (h'.body hend))

end Run

/-! ## Packets -/

/-- **Reads.**  Whatever `malloc` grants and whatever has been received before, handling a packet
reads inside the packet if and only if every place that it comes to does. -/
theorem packet_reads_iff (fn : Fnmatch) {bytes : List UInt8} (pkt : Packet bytes)
    (timetag : UInt64) :
    (∀ malloc fuel app,
      Avoids .outOfRange (pkt.handle Call.exec ⟨fn, malloc⟩ fuel app timetag)) ↔
      ReadsInside fn timetag pkt.place := by
  constructor
  · intro h
    have hstays : pkt.place.StaysInside ⟨fn, .plenty⟩ ⟨State.zero, [], 0⟩ timetag :=
      ⟨0, fun fuel _ => h .plenty fuel _⟩
    have hplenty : Malloc.plenty.Grants 31 := Malloc.plenty_grants (by norm_num)
    have hreads := readsInside_of_staysInside hplenty pkt.held_place hstays
    exact hreads
  · intro hinside malloc fuel app
    have hrun : Avoids .outOfRange (pkt.place.run ⟨fn, malloc⟩ fuel app timetag) :=
      avoids_run fuel pkt.held_place hinside
    exact hrun

/-- The packet of one byte that could be the first of `#bundle`. -/
def hashPacket : Packet ['#'.toUInt8] := .placed _ (by decide)

/-- The literal is compared with what stands behind it. -/
theorem packet_reads_counterexample :
    ¬ ∀ {bytes : List UInt8} (pkt : Packet bytes), 1 ≤ bytes.length →
      ∀ libc fuel app timetag,
        Avoids .outOfRange (pkt.handle Call.exec libc fuel app timetag) := by
  intro h
  exact h hashPacket le_rfl .simple 1 ⟨State.zero, [], 0⟩ oscImmediate rfl

end MonoBus
