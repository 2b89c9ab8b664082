import Mathlib.Data.FinEnum
import MonoBus.Construction.PacketVisits

/-!
# Whether packet handling comes to an end

An item of a bundle has a signed size, and the overflow check, made with wrapping addresses,
lets a negative one pass.  The pointer then moves backwards, and the loop may get to an item it
has been at before.  Packet handling ends, however `malloc` answers, exactly if that never happens
(`packetHandling_ends`); without negative sizes it does not.  The packet need not be all of its
object: in the ring the walk may go on through the bytes around it.
-/

namespace MonoBus

/-! ## Sizes that are not negative -/

/-- The sizes of the items that packet handling comes to are not negative. -/
def SizesNonneg (fn : Fnmatch) (timetag : UInt64) (root : Place) : Prop :=
  ∀ timetag' itm reader, Relation.ReflTransGen (VisitStep (MessageReturns fn)) (timetag, root)
    (timetag', .item itm reader) → 0 ≤ itm.size.toInt

namespace Place

/-- The bytes that are left at a place lie in the lower half of the address space, and the item
is within them. -/
def InRange : Place → Prop
  | .packet _ buf len => buf + len ≤ 2 ^ 63
  | .item itm reader =>
      itm.body = reader.ptr ∧ reader.ptr + itm.size.toInt.toNat ≤ reader.end_ ∧
        reader.end_ ≤ 2 ^ 63

/-- Twice the number of bytes that are left, with an item ahead of its body. -/
def left : Place → ℕ
  | .packet _ _ len => 2 * len + 1
  | .item _ reader => 2 * (reader.end_ - reader.ptr) + 2

lemma inRange_of_itemRaw {r r' : OscReader} {itm itm' : OscItem} (hend : r.end_ ≤ 2 ^ 63)
    (hptr : r.ptr ≤ 2 ^ 63) (hsize : 0 ≤ itm'.size.toInt)
    (h : r.itemRaw itm = .ok (some (itm', r'))) :
    InRange (.item itm' r') ∧ r'.end_ = r.end_ ∧ r'.ptr = r.ptr + 4 := by
  obtain ⟨-, rfl, hfits, hbody, -⟩ := OscReader.itemRaw_eq_some h
  have hlt := int32_toInt_bounds itm'.size
  have hadvance : (r.advance 4).ptr = r.ptr + 4 := addPtr_of_lt (by omega)
  rw [sizeOfInt32_of_nonneg hsize] at hfits
  exact ⟨⟨hbody, OscReader.le_of_overflow hfits (by omega), hend⟩, rfl, hadvance⟩

lemma left_of_step {c d : Place} (hc : c.InRange)
    (hsize : ∀ itm reader, c = .item itm reader ∨ d = .item itm reader → 0 ≤ itm.size.toInt)
    (h : WalkStep c d) : d.InRange ∧ d.left < c.left := by
  cases h with
  | @first mem buf len itm reader _ hbegin =>
      obtain ⟨hover, itm₀, -, hraw⟩ := OscReader.itemBegin_eq_some hbegin
      have hlen : buf + len ≤ 2 ^ 63 := hc
      set r := OscReader.initializeAt mem buf len with hr
      have hbuf : r.ptr = buf := rfl
      have hend : r.end_ = buf + len := addPtr_of_lt (by omega)
      have hheader : r.ptr + 16 ≤ r.end_ := OscReader.le_of_overflow hover (by omega)
      have hskip : ((r.advance 8).advance 8).ptr = buf + 16 :=
        OscReader.advance_header (by omega)
      obtain ⟨hrange, hend', hptr⟩ := inRange_of_itemRaw (r := (r.advance 8).advance 8)
        (by simp only [OscReader.advance_end]; omega) (by omega) (hsize itm reader (.inr rfl)) hraw
      simp only [OscReader.advance_end] at hend'
      refine ⟨hrange, ?_⟩
      simp only [left]
      omega
  | @body itm reader _ =>
      obtain ⟨hbody, hfits, hend⟩ := hc
      have hpos := hsize itm reader (.inl rfl)
      simp only [InRange, left, hbody, sizeOfInt32_of_nonneg hpos]
      omega
  | @next itm itm' reader reader' _ hnext =>
      obtain ⟨-, hfits, hend⟩ := hc
      have hpos := hsize itm reader (.inl rfl)
      have hskip : (reader.advance (sizeOfInt32 itm.size)).ptr =
          reader.ptr + itm.size.toInt.toNat := by
        rw [sizeOfInt32_of_nonneg hpos]
        exact addPtr_of_lt (by omega)
      obtain ⟨hrange, hend', hptr⟩ := inRange_of_itemRaw
        (r := reader.advance (sizeOfInt32 itm.size)) hend (by omega)
        (hsize itm' reader' (.inr rfl)) hnext
      refine ⟨hrange, ?_⟩
      simp only [OscReader.advance_end] at hend'
      obtain ⟨-, hfits', -⟩ := hrange
      simp only [left]
      omega

end Place

lemma acyclic_of_sizesNonneg {fn : Fnmatch} {timetag : UInt64} {bytes : List UInt8}
    (pkt : Embedded bytes) (h : SizesNonneg fn timetag pkt.place) :
    Acyclic (VisitStep (MessageReturns fn)) (timetag, pkt.place) := by
  have hroot : pkt.place.InRange := pkt.at_.end_lt
  refine acyclic_of_measure (P := fun x => x.2.InRange) (fun x => x.2.left) hroot ?_
  rintro ⟨t, c⟩ ⟨t', d⟩ hc hrange hstep
  refine Place.left_of_step hrange (fun itm reader hitem => ?_) hstep.walkStep
  rcases hitem with rfl | rfl
  · exact h t itm reader hc
  · exact h t' itm reader (hc.tail hstep)

/-! ## No cycle, no endless run -/

section Ends

variable {fn : Fnmatch} {timetag : UInt64}

/-- Packet handling comes to an end from a place on, with enough fuel. -/
def EndsFrom (fn : Fnmatch) (fuel : ℕ) (x : UInt64 × Place) : Prop :=
  x.2.Held → ∀ malloc app, Ends (x.2.run ⟨fn, malloc⟩ fuel app x.1)

lemma ends_bundleForeach {libc : Libc} {fuel : ℕ} {next : Option (OscItem × OscReader)}
    {app : App State} (hfuel : 0 < fuel) (h : ∀ itm reader, next = some (itm, reader) →
      Ends (bundleForeach Call.exec libc fuel app (some (itm, reader)))) :
    Ends (bundleForeach Call.exec libc fuel app next) := by
  obtain ⟨fuel, rfl⟩ := Nat.exists_eq_add_of_le' hfuel
  cases next with
  | none => exact ends_ok _
  | some next => exact h next.1 next.2 rfl

lemma endsFrom_packet {mem : Memory} {buf len fuel : ℕ} (hfuel : 0 < fuel)
    (h : ∀ y, VisitStep (MessageReturns fn) (timetag, .packet mem buf len) y →
      EndsFrom fn fuel y) : EndsFrom fn (fuel + 2) (timetag, .packet mem buf len) := by
  intro hheld malloc app
  rw [Place.run, handleOscPacket]
  refine (Memory.onlyStrays_strncmpEq _ _).ends.bind fun isBundle hbundle => ?_
  cases isBundle with
  | true =>
      refine (OscReader.onlyStrays_itemBegin _ _).ends.bind fun itm hitm => ?_
      refine ends_bundleForeach hfuel fun itm' reader hnext => ?_
      have hstep : VisitStep (MessageReturns fn) (timetag, .packet mem buf len)
          (itm'.timetag, .item itm' reader) := .first hbundle (hnext ▸ hitm)
      exact h _ hstep (hstep.held hheld) malloc app
  | false =>
      refine ((Memory.onlyStrays_load _).ends.bind fun _ _ => ends_ok _).bind fun isMessage _ => ?_
      refine .ite (.ite ?_ (onlyStrays_schedule app timetag mem buf len).ends) (ends_ok _)
      exact (ends_handleOscMessage ends_exec _ _ _ _).bind fun _ _ => ends_ok _

/-- An item needs one unit of fuel more than its body and, if that returns, the next item. -/
lemma endsFrom_item {itm : OscItem} {reader : OscReader} {fuel : ℕ} (hfuel : 0 < fuel)
    (h : ∀ y, VisitStep (MessageReturns fn) (timetag, .item itm reader) y → EndsFrom fn fuel y) :
    EndsFrom fn (fuel + 1) (timetag, .item itm reader) := by
  intro hheld malloc app
  have hitem : ItemHeld itm reader := hheld
  rw [Place.run, bundleForeach]
  cases hend : reader.itemIsEnd itm with
  | true => exact ends_ok _
  | false =>
      have hbody := hitem.packetHeld_body
      refine Ends.bind (h _ (.body hend) hbody malloc app) fun app' happ' => ?_
      have hpasses := passes_of_run_eq_ok fuel (c := .packet _ _ _) hbody happ'
      refine (OscReader.onlyStrays_itemRaw _ _).ends.bind fun next hnext => ?_
      refine ends_bundleForeach hfuel fun itm' reader' hsome => ?_
      have hstep : VisitStep (MessageReturns fn) (timetag, .item itm reader)
          (itm'.timetag, .item itm' reader') := .next hend hpasses (hsome ▸ hnext)
      exact h _ hstep (hstep.held hheld) malloc app'

lemma finite_visited {complete : OscReader → ℕ → Prop} {mem : Memory} {root : Place}
    (h : root.Bounded mem) :
    {x | Relation.ReflTransGen (VisitStep complete) (timetag, root) x}.Finite := by
  refine (Set.finite_univ.prod (Place.finite_reached h)).subset fun x hx => ?_
  have hwalk : Relation.ReflTransGen WalkStep root x.2 :=
    Relation.ReflTransGen.lift Prod.snd (fun _ _ hstep => hstep.walkStep) _ _ hx
  exact ⟨Set.mem_univ _, hwalk⟩

theorem ends_of_acyclic {mem : Memory} {root : Place} (hbounded : root.Bounded mem)
    (h : Acyclic (VisitStep (MessageReturns fn)) (timetag, root)) :
    ∃ fuel₀, ∀ fuel ≥ fuel₀, EndsFrom fn fuel (timetag, root) := by
  refine enough_of_acyclic (finite_visited hbounded) h ?_
  rintro ⟨t, c⟩ n hnext
  cases c with
  | packet mem buf len =>
      refine ⟨n + 3, fun fuel hfuel => ?_⟩
      obtain ⟨k, rfl⟩ : ∃ k, fuel = k + 2 := ⟨fuel - 2, by omega⟩
      exact endsFrom_packet (by omega) fun y hy => hnext y hy k (by omega)
  | item itm reader =>
      refine ⟨n + 2, fun fuel hfuel => ?_⟩
      obtain ⟨k, rfl⟩ : ∃ k, fuel = k + 1 := ⟨fuel - 1, by omega⟩
      exact endsFrom_item (by omega) fun y hy => hnext y hy k (by omega)

/-! ## An end, no cycle -/

/-- An allocator that has no memory. -/
def Malloc.never : Malloc where
  run _ _ := none
  fits h := nomatch h

lemma returns_of_passes_never {c : Place} {app : App State}
    (hpasses : Passes (MessageReturns fn) timetag c) (hheld : c.Held) :
    c.Returns ⟨fn, .never⟩ app timetag := by
  induction hpasses generalizing app with
  | other hbundle hslash => exact .other hbundle hslash
  | message hslash htimetag hreturns => exact .message hheld hslash htimetag hreturns
  | copy hslash htimetag => exact .copy hslash htimetag rfl
  | empty hbundle hbegin => exact .empty hbundle hbegin
  | first hbundle hbegin _ ih =>
      have hpacket : PacketHeld _ _ _ := hheld
      exact .first hbundle hbegin (ih (hpacket.first hbegin))
  | stop hend => exact .stop hend
  | last hend _ hnext ih =>
      have hitem : ItemHeld _ _ := hheld
      exact .last hend (ih hitem.packetHeld_body) hnext
  | next hend _ hnext _ ihBody ihNext =>
      have hitem : ItemHeld _ _ := hheld
      obtain ⟨m, mid, hbody⟩ := @ihBody app hitem.packetHeld_body
      have hitem' := hitem.next (hitem.avoids_itemNext_iff.mp (.of_eq_ok hnext)) hnext
      exact .next hend hbody hnext (ihNext hitem')

/-- Packet handling without memory for copies comes to an end from a place on. -/
def StopsFrom (fn : Fnmatch) (fuel : ℕ) (x : UInt64 × Place) : Prop :=
  x.2.Held ∧ ∃ app, Ends (x.2.run ⟨fn, .never⟩ fuel app x.1)

lemma stopsFrom_of_step (fuel : ℕ) (x y : UInt64 × Place) (hx : StopsFrom fn fuel x)
    (h : VisitStep (MessageReturns fn) x y) : ∃ fuel' < fuel, StopsFrom fn fuel' y := by
  have hheld := h.held hx.1
  obtain ⟨hx, app, hrun⟩ := hx
  cases h with
  | first hbundle hbegin =>
      match fuel, hrun with
      | 0, hrun => exact absurd rfl hrun
      | 1, hrun =>
          rw [Place.run, handleOscPacket, hbundle] at hrun
          exact absurd rfl hrun
      | fuel + 2, hrun =>
          rw [Place.run, handleOscPacket, hbundle] at hrun
          simp only [Run.ok_bind, if_true, handleOscBundle, hbegin] at hrun
          exact ⟨fuel, by omega, hheld, app, hrun⟩
  | body hend =>
      cases fuel with
      | zero => exact absurd rfl hrun
      | succ fuel =>
          rw [Place.run, bundleForeach, hend] at hrun
          exact ⟨fuel, by omega, hheld, app, hrun.left⟩
  | next hend hpasses hnext =>
      cases fuel with
      | zero => exact absurd rfl hrun
      | succ fuel =>
          rw [Place.run, bundleForeach, hend] at hrun
          have hitem : ItemHeld _ _ := hx
          obtain ⟨n, mid, hreturns⟩ :=
            @returns_of_passes_never _ _ _ app hpasses hitem.packetHeld_body
          -- what ends with this fuel ends in the same way with more
          have hmid := (handleOscPacket_of_le (le_max_left fuel n) hrun.left).symm.trans
            (hreturns _ (le_max_right fuel n))
          simp only [Bool.false_eq_true, if_false, hmid, Run.ok_bind, hnext] at hrun
          exact ⟨fuel, by omega, hheld, mid, hrun⟩

end Ends

/-- **Termination.**  Whatever stands around a packet, its handling comes to an end, for every
application and however `malloc` answers, if and only if the walk through its items, which goes on
behind an item when the body of the item returns, comes back to no place it has been at.  The fuel
does not depend on the application or on `malloc`, and without negative sizes there is no such
place. -/
theorem packetHandling_ends (fn : Fnmatch) {bytes : List UInt8} (pkt : Embedded bytes)
    (timetag : UInt64) :
    ((∀ malloc app, ∃ fuel, Ends (pkt.handle Call.exec ⟨fn, malloc⟩ fuel app timetag)) ↔
      Acyclic (VisitStep (MessageReturns fn)) (timetag, pkt.place)) ∧
    (Acyclic (VisitStep (MessageReturns fn)) (timetag, pkt.place) →
      ∃ fuel₀, ∀ fuel ≥ fuel₀, ∀ malloc app,
        Ends (pkt.handle Call.exec ⟨fn, malloc⟩ fuel app timetag)) ∧
    (SizesNonneg fn timetag pkt.place →
      Acyclic (VisitStep (MessageReturns fn)) (timetag, pkt.place)) := by
  have hends : Acyclic (VisitStep (MessageReturns fn)) (timetag, pkt.place) →
      ∃ fuel₀, ∀ fuel ≥ fuel₀, ∀ malloc app,
        Ends (pkt.handle Call.exec ⟨fn, malloc⟩ fuel app timetag) := by
    intro hacyclic
    have hlt := pkt.at_.end_lt
    have hbounded : pkt.place.Bounded pkt.mem := ⟨rfl, by omega, by omega⟩
    obtain ⟨fuel₀, hrun⟩ := ends_of_acyclic hbounded hacyclic
    exact ⟨fuel₀, fun fuel hfuel => hrun fuel hfuel pkt.held_place⟩
  refine ⟨⟨fun h => ?_, fun hacyclic malloc app => ?_⟩, hends, acyclic_of_sizesNonneg pkt⟩
  · obtain ⟨fuel, hfuel⟩ := h .never ⟨State.zero, [], 0⟩
    have hstops : StopsFrom fn fuel (timetag, pkt.place) := ⟨pkt.held_place, _, hfuel⟩
    exact acyclic_of_cost hstops stopsFrom_of_step
  · obtain ⟨fuel₀, hrun⟩ := hends hacyclic
    exact ⟨fuel₀, hrun fuel₀ le_rfl malloc app⟩

/-! ## A step back -/

/-- A bundle with one item, whose size `-4` leads back to the size itself. -/
def steppingBack : List UInt8 :=
  OscReader.bundleLiteral ++ (be64 1 ++ (be32 0xfffffffc ++ [0, 0, 0, 0]))

def steppingBackPacket : Packet steppingBack := .placed steppingBack (by decide)

def steppingBackItem : OscItem where
  size := -4
  body := 4116
  timetag := 1
  end_ := 4120

def steppingBackReader : OscReader where
  mem := steppingBackPacket.mem
  buf := 4096
  ptr := 4116
  end_ := 4120

/-- The loop stays at the item forever. -/
lemma steppingBack_loops (fuel : ℕ) (app : App State) :
    bundleForeach Call.exec .simple fuel app (some (steppingBackItem, steppingBackReader)) =
      .error .outOfFuel := by
  have hend : steppingBackReader.itemIsEnd steppingBackItem = false := by decide
  have hnext : steppingBackReader.itemNext steppingBackItem =
      .ok (some (steppingBackItem, steppingBackReader)) := by
    rfl
  have hbody : steppingBackReader.mem.At steppingBackItem.body [0, 0, 0, 0] :=
    ⟨steppingBack.take 20, [], rfl, rfl⟩
  induction fuel generalizing app with
  | zero => rfl
  | succ fuel ih =>
      rw [bundleForeach, hend]
      cases fuel with
      | zero => rfl
      | succ fuel =>
          rw [handleOscPacket_other fuel app _ _ hbody (by decide) (by decide)]
          simp only [Run.ok_bind, Bool.false_eq_true, if_false, hnext, ih]

/-- Packet handling never ends on it. -/
theorem packetHandling_counterexample :
    ¬ ∃ fuel, Ends (steppingBackPacket.handle Call.exec .simple fuel ⟨State.zero, [], 0⟩
      oscImmediate) := by
  rintro ⟨fuel, hends⟩
  refine hends ?_
  have hbundle : (OscReader.initializeAt steppingBackPacket.mem 4096 24).isBundle = .ok true := by
    rfl
  have hbegin : (OscReader.initializeAt steppingBackPacket.mem 4096 24).itemBegin 24 =
      .ok (some (steppingBackItem, steppingBackReader)) := by
    rfl
  match fuel with
  | 0 => rfl
  | 1 => rfl
  | fuel + 2 =>
      change handleOscPacket Call.exec .simple (fuel + 2) _ _ steppingBackPacket.mem 4096 24 = _
      rw [handleOscPacket, hbundle]
      simp only [Run.ok_bind, if_true, handleOscBundle, hbegin, steppingBack_loops]

end MonoBus
