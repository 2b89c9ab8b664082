import MonoBus.Construction.PacketReads

/-!
# Where packet handling goes

The loop over a bundle comes to what is behind an item only if the handling of the item returns,
and that is a question about the bytes: whether the messages in it that are handled at once return,
and no item leads back to itself (`Passes`).  So is where packet handling goes next (`VisitStep`).
-/

namespace MonoBus

/-! ## What packet handling comes to -/

/-- Packet handling gets past a place: there are finitely many steps to go, and the messages on the
way that are handled at once are complete, in a sense still to be given. -/
inductive Passes (complete : OscReader → ℕ → Prop) : UInt64 → Place → Prop
  | other {timetag : UInt64} {mem : Memory} {buf len : ℕ} :
      (OscReader.initializeAt mem buf len).isBundle = .ok false →
      mem.load buf ≠ .ok '/'.toUInt8 →
      Passes complete timetag (.packet mem buf len)
  | message {timetag : UInt64} {mem : Memory} {buf len : ℕ} :
      mem.load buf = .ok '/'.toUInt8 → timetag = oscImmediate →
      complete (.initializeAt mem buf len) len →
      Passes complete timetag (.packet mem buf len)
  | copy {timetag : UInt64} {mem : Memory} {buf len : ℕ} :
      mem.load buf = .ok '/'.toUInt8 → timetag ≠ oscImmediate →
      Passes complete timetag (.packet mem buf len)
  | empty {timetag : UInt64} {mem : Memory} {buf len : ℕ} :
      (OscReader.initializeAt mem buf len).isBundle = .ok true →
      (OscReader.initializeAt mem buf len).itemBegin len = .ok none →
      Passes complete timetag (.packet mem buf len)
  | first {timetag : UInt64} {mem : Memory} {buf len : ℕ} {itm : OscItem} {reader : OscReader} :
      (OscReader.initializeAt mem buf len).isBundle = .ok true →
      (OscReader.initializeAt mem buf len).itemBegin len = .ok (some (itm, reader)) →
      Passes complete itm.timetag (.item itm reader) →
      Passes complete timetag (.packet mem buf len)
  | stop {timetag : UInt64} {itm : OscItem} {reader : OscReader} :
      reader.itemIsEnd itm = true →
      Passes complete timetag (.item itm reader)
  | last {timetag : UInt64} {itm : OscItem} {reader : OscReader} :
      reader.itemIsEnd itm = false →
      Passes complete itm.timetag (.packet reader.mem itm.body (sizeOfInt32 itm.size)) →
      reader.itemNext itm = .ok none →
      Passes complete timetag (.item itm reader)
  | next {timetag : UInt64} {itm itm' : OscItem} {reader reader' : OscReader} :
      reader.itemIsEnd itm = false →
      Passes complete itm.timetag (.packet reader.mem itm.body (sizeOfInt32 itm.size)) →
      reader.itemNext itm = .ok (some (itm', reader')) →
      Passes complete itm'.timetag (.item itm' reader') →
      Passes complete timetag (.item itm reader)

/-- Where packet handling goes next, with the timetag it has there. -/
inductive VisitStep (complete : OscReader → ℕ → Prop) : UInt64 × Place → UInt64 × Place → Prop
  | first {timetag : UInt64} {mem : Memory} {buf len : ℕ} {itm : OscItem} {reader : OscReader} :
      (OscReader.initializeAt mem buf len).isBundle = .ok true →
      (OscReader.initializeAt mem buf len).itemBegin len = .ok (some (itm, reader)) →
      VisitStep complete (timetag, .packet mem buf len) (itm.timetag, .item itm reader)
  | body {timetag : UInt64} {itm : OscItem} {reader : OscReader} :
      reader.itemIsEnd itm = false →
      VisitStep complete (timetag, .item itm reader)
        (itm.timetag, .packet reader.mem itm.body (sizeOfInt32 itm.size))
  | next {timetag : UInt64} {itm itm' : OscItem} {reader reader' : OscReader} :
      reader.itemIsEnd itm = false →
      Passes complete itm.timetag (.packet reader.mem itm.body (sizeOfInt32 itm.size)) →
      reader.itemNext itm = .ok (some (itm', reader')) →
      VisitStep complete (timetag, .item itm reader) (itm'.timetag, .item itm' reader')

/-- A message whose handling returns: it is read inside, and it is not cut off. -/
def MessageReturns (fn : Fnmatch) (r : OscReader) (len : ℕ) : Prop :=
  MessageInside fn r len ∧ MessageComplete fn r len

section Visits

variable {complete complete' : OscReader → ℕ → Prop} {x y : UInt64 × Place}

lemma Passes.mono (h : ∀ r len, complete r len → complete' r len) {timetag : UInt64} {c : Place}
    (hpasses : Passes complete timetag c) : Passes complete' timetag c := by
  induction hpasses with
  | other hbundle hslash => exact .other hbundle hslash
  | message hslash htimetag hcomplete => exact .message hslash htimetag (h _ _ hcomplete)
  | copy hslash htimetag => exact .copy hslash htimetag
  | empty hbundle hbegin => exact .empty hbundle hbegin
  | first hbundle hbegin _ ih => exact .first hbundle hbegin ih
  | stop hend => exact .stop hend
  | last hend _ hnext ih => exact .last hend ih hnext
  | next hend _ hnext _ ihBody ihNext => exact .next hend ihBody hnext ihNext

lemma VisitStep.walkStep (h : VisitStep complete x y) : WalkStep x.2 y.2 := by
  cases h with
  | first hbundle hbegin => exact .first hbundle hbegin
  | body hend => exact .body hend
  | next hend _ hnext => exact .next hend hnext

/-- An item whose size has been read is held, and so is its body. -/
lemma VisitStep.held (h : VisitStep complete x y) (hx : x.2.Held) : y.2.Held := by
  cases h with
  | first _ hbegin =>
      have hpacket : PacketHeld _ _ _ := hx
      exact hpacket.first hbegin
  | body _ =>
      have hitem : ItemHeld _ _ := hx
      exact hitem.packetHeld_body
  | next _ _ hnext =>
      have hitem : ItemHeld _ _ := hx
      exact hitem.next (hitem.avoids_itemNext_iff.mp (.of_eq_ok hnext)) hnext

end Visits

/-- Where the handling of a packet starts. -/
def Packet.place {bytes : List UInt8} (pkt : Packet bytes) : Place :=
  .packet pkt.mem pkt.mem.base bytes.length

/-- Where the handling of a packet with other bytes around it starts. -/
def Embedded.place {bytes : List UInt8} (pkt : Embedded bytes) : Place :=
  .packet pkt.mem pkt.buf bytes.length

lemma Embedded.held_place {bytes : List UInt8} (pkt : Embedded bytes) : pkt.place.Held := by
  have hend := pkt.at_.end_le
  have hlt := pkt.at_.end_lt
  refine ⟨pkt.at_.base_le, (Nat.le_add_right _ _).trans hend, ?_, .inl pkt.at_.holds⟩
  rwa [addPtr_of_lt (by omega)]

lemma Packet.held_place {bytes : List UInt8} (pkt : Packet bytes) : pkt.place.Held :=
  pkt.embedded.held_place

/-! ## Packet handling from a place on -/

section Run

variable {libc : Libc} {app : App State} {timetag : UInt64}

/-- Packet handling from a place on. -/
def Place.run (libc : Libc) (fuel : ℕ) (app : App State) (timetag : UInt64) :
    Place → Run (App State)
  | .packet mem buf len => handleOscPacket Call.exec libc fuel app timetag mem buf len
  | .item itm reader => bundleForeach Call.exec libc fuel app (some (itm, reader))

lemma passes_of_run_eq_ok : ∀ (fuel : ℕ) {app app' : App State} {timetag : UInt64} {c : Place},
    c.Held → c.run libc fuel app timetag = .ok app' →
      Passes (MessageReturns libc.fnmatch) timetag c := by
  intro fuel
  -- the handling of an item takes two units of fuel less than that of its bundle
  induction fuel using Nat.strong_induction_on with
  | _ fuel ih =>
    intro app app' timetag c hheld hrun
    cases fuel with
    | zero => cases c <;> simp [Place.run, handleOscPacket, bundleForeach] at hrun
    | succ fuel =>
      cases c with
      | packet mem buf len =>
          have hpacket : PacketHeld mem buf len := hheld
          rw [Place.run] at hrun
          by_cases hslash : mem.load buf = .ok '/'.toUInt8
          · rw [handleOscPacket_message fuel app timetag len (.of_load hslash)] at hrun
            split_ifs at hrun with htimetag
            · obtain ⟨state, hstate, -⟩ := Run.bind_eq_ok.mp hrun
              have hmessage :=
                (exists_handleOscMessage_iff hpacket.end_le rfl _).mp ⟨state, hstate⟩
              exact .message hslash htimetag hmessage
            · exact .copy hslash htimetag
          rw [handleOscPacket] at hrun
          obtain ⟨isBundle, hbundle, hrun⟩ := Run.bind_eq_ok.mp hrun
          cases isBundle with
          | false => exact .other hbundle hslash
          | true =>
              cases fuel with
              | zero => simp [handleOscBundle] at hrun
              | succ fuel =>
                  obtain ⟨next, hbegin, hrun⟩ := Run.bind_eq_ok.mp hrun
                  cases next with
                  | none => exact .empty hbundle hbegin
                  | some next =>
                      have hitem : Place.Held (.item next.1 next.2) := hpacket.first hbegin
                      exact .first hbundle hbegin (ih fuel (by omega) hitem hrun)
      | item itm reader =>
          have hitem : ItemHeld itm reader := hheld
          rw [Place.run, bundleForeach] at hrun
          cases hend : reader.itemIsEnd itm with
          | true => exact .stop hend
          | false =>
              rw [hend] at hrun
              obtain ⟨mid, hmid, hrun⟩ := Run.bind_eq_ok.mp hrun
              obtain ⟨next, hnext, hrun⟩ := Run.bind_eq_ok.mp hrun
              have hlt := Nat.lt_succ_self fuel
              have hbody : Passes (MessageReturns libc.fnmatch) itm.timetag
                  (.packet reader.mem itm.body (sizeOfInt32 itm.size)) :=
                ih fuel hlt hitem.packetHeld_body hmid
              cases next with
              | none => exact .last hend hbody hnext
              | some next =>
                  have hinside := hitem.avoids_itemNext_iff.mp (.of_eq_ok hnext)
                  have hitem' : Place.Held (.item next.1 next.2) := hitem.next hinside hnext
                  exact .next hend hbody hnext (ih fuel hlt hitem' hrun)

/-- With enough fuel, packet handling from a place on returns. -/
def Place.Returns (libc : Libc) (app : App State) (timetag : UInt64) (c : Place) : Prop :=
  ∃ n app', ∀ fuel ≥ n, c.run libc fuel app timetag = .ok app'

section Returns

variable {mem : Memory} {buf len : ℕ} {itm itm' : OscItem} {reader reader' : OscReader}

lemma Place.Returns.of_run {c : Place} (n : ℕ) (app' : App State)
    (h : ∀ k, c.run libc (k + n) app timetag = .ok app') : c.Returns libc app timetag := by
  refine ⟨n, app', fun fuel hfuel => ?_⟩
  obtain ⟨k, rfl⟩ := Nat.exists_eq_add_of_le' hfuel
  exact h k

lemma Place.Returns.other (hbundle : (OscReader.initializeAt mem buf len).isBundle = .ok false)
    (hslash : mem.load buf ≠ .ok '/'.toUInt8) :
    Place.Returns libc app timetag (.packet mem buf len) := by
  -- the comparison has read the first byte
  obtain ⟨b, hb, -⟩ := Run.bind_eq_ok.mp hbundle
  have hload : mem.load buf = .ok b := hb
  have hne : b ≠ '/'.toUInt8 := by
    rintro rfl
    exact hslash hload
  refine .of_run 1 app fun k => ?_
  rw [Place.run, handleOscPacket, hbundle]
  simp only [Run.ok_bind, Bool.false_eq_true, if_false, isMessage_eq (.of_load hload),
    decide_eq_false hne, Run.pure_eq]

lemma Place.Returns.message (hheld : PacketHeld mem buf len)
    (hslash : mem.load buf = .ok '/'.toUInt8) (htimetag : timetag = oscImmediate)
    (h : MessageReturns libc.fnmatch (.initializeAt mem buf len) len) :
    Place.Returns libc app timetag (.packet mem buf len) := by
  obtain ⟨state, hstate⟩ := (exists_handleOscMessage_iff hheld.end_le rfl app.state).mpr h
  refine .of_run 1 { app with state := state } fun k => ?_
  rw [Place.run, handleOscPacket_message k app timetag len (.of_load hslash), if_pos htimetag,
    hstate, Run.ok_bind]

lemma Place.Returns.copy {app' : App State} (hslash : mem.load buf = .ok '/'.toUInt8)
    (htimetag : timetag ≠ oscImmediate)
    (hschedule : schedule libc app timetag mem buf len = .ok app') :
    Place.Returns libc app timetag (.packet mem buf len) := by
  refine .of_run 1 app' fun k => ?_
  rw [Place.run, handleOscPacket_message k app timetag len (.of_load hslash), if_neg htimetag,
    hschedule]

lemma Place.Returns.empty (hbundle : (OscReader.initializeAt mem buf len).isBundle = .ok true)
    (hbegin : (OscReader.initializeAt mem buf len).itemBegin len = .ok none) :
    Place.Returns libc app timetag (.packet mem buf len) := by
  refine .of_run 3 app fun k => ?_
  rw [Place.run, handleOscPacket, hbundle]
  simp only [Run.ok_bind, if_true, handleOscBundle, hbegin, bundleForeach]

lemma Place.Returns.first (hbundle : (OscReader.initializeAt mem buf len).isBundle = .ok true)
    (hbegin : (OscReader.initializeAt mem buf len).itemBegin len = .ok (some (itm, reader)))
    (h : Place.Returns libc app itm.timetag (.item itm reader)) :
    Place.Returns libc app timetag (.packet mem buf len) := by
  obtain ⟨n, app', hitem⟩ := h
  refine .of_run (n + 2) app' fun k => ?_
  have hrun := hitem (k + n) (Nat.le_add_left n k)
  rw [← Nat.add_assoc, Place.run, handleOscPacket, hbundle]
  simp only [Run.ok_bind, if_true, handleOscBundle, hbegin]
  exact hrun

lemma Place.Returns.stop (hend : reader.itemIsEnd itm = true) :
    Place.Returns libc app timetag (.item itm reader) := by
  refine .of_run 1 app fun k => ?_
  rw [Place.run, bundleForeach, if_pos hend]

lemma Place.Returns.last (hend : reader.itemIsEnd itm = false)
    (hbody : Place.Returns libc app itm.timetag
      (.packet reader.mem itm.body (sizeOfInt32 itm.size)))
    (hnext : reader.itemNext itm = .ok none) :
    Place.Returns libc app timetag (.item itm reader) := by
  obtain ⟨n, app', hbody⟩ := hbody
  refine .of_run (n + 2) app' fun k => ?_
  have hmid : handleOscPacket Call.exec libc (k + n + 1) app itm.timetag reader.mem itm.body
      (sizeOfInt32 itm.size) = .ok app' := hbody (k + n + 1) (by omega)
  rw [← Nat.add_assoc, Place.run, bundleForeach, hend, hmid]
  simp only [Bool.false_eq_true, if_false, Run.ok_bind, hnext, bundleForeach]

/-- The loop returns where its body does, and then the loop from the next item on. -/
lemma Place.Returns.next (hend : reader.itemIsEnd itm = false) {m : ℕ} {mid : App State}
    (hbody : ∀ fuel ≥ m, handleOscPacket Call.exec libc fuel app itm.timetag reader.mem itm.body
      (sizeOfInt32 itm.size) = .ok mid)
    (hnext : reader.itemNext itm = .ok (some (itm', reader')))
    (hrest : Place.Returns libc mid itm'.timetag (.item itm' reader')) :
    Place.Returns libc app timetag (.item itm reader) := by
  obtain ⟨n, app', hrest⟩ := hrest
  refine .of_run (max m n + 1) app' fun k => ?_
  have hlast := hrest (k + max m n) (by omega)
  rw [← Nat.add_assoc, Place.run, bundleForeach, hend, hbody (k + max m n) (by omega)]
  simp only [Bool.false_eq_true, if_false, Run.ok_bind, hnext]
  exact hlast

end Returns

end Run

end MonoBus
