import MonoBus.Construction.MessageEnds
import MonoBus.Framework.Acyclic

/-!
# The walk through a packet

`_handle_osc_packet` and the loop of `_handle_osc_bundle` go from a packet to the first item of
a bundle, and from an item to its body and to the next item.  Where they can go depends on the
bytes only, those around the packet included, so this is a relation between places in memory
(`WalkStep`), and finitely many places can be reached (`finite_reached`).
-/

namespace MonoBus

/-! ## Places -/

/-- Where packet handling is: at a packet, or at an item of a bundle. -/
inductive Place
  | packet (mem : Memory) (buf len : ℕ)
  | item (itm : OscItem) (reader : OscReader)

/-- Where it goes next. -/
inductive WalkStep : Place → Place → Prop
  | first {mem : Memory} {buf len : ℕ} {itm : OscItem} {reader : OscReader} :
      (OscReader.initializeAt mem buf len).isBundle = .ok true →
      (OscReader.initializeAt mem buf len).itemBegin len = .ok (some (itm, reader)) →
      WalkStep (.packet mem buf len) (.item itm reader)
  | body {itm : OscItem} {reader : OscReader} :
      reader.itemIsEnd itm = false →
      WalkStep (.item itm reader) (.packet reader.mem itm.body (sizeOfInt32 itm.size))
  | next {itm itm' : OscItem} {reader reader' : OscReader} :
      reader.itemIsEnd itm = false →
      reader.itemNext itm = .ok (some (itm', reader')) →
      WalkStep (.item itm reader) (.item itm' reader')

/-! ## Reading an item -/

namespace OscReader

variable {r r' : OscReader} {itm itm' : OscItem}

/-- What the overflow check promises where the addition does not wrap. -/
lemma le_of_overflow {n : ℕ} (h : r.overflow n = false) (hlt : r.ptr + n < 2 ^ 64) :
    r.ptr + n ≤ r.end_ := by
  have hle := of_decide_eq_false h
  rw [addPtr_of_lt hlt] at hle
  omega

lemma eq_some_of_checked {α : Type} {n : ℕ} {f : List UInt8 → α} {v : α}
    (h : (if r.overflow n then .ok none
      else r.mem.slice r.ptr n >>= fun bytes => .ok (some (f bytes, r.advance n)) :
        Run (Option (α × OscReader))) = .ok (some (v, r'))) :
    r.overflow n = false ∧ r' = r.advance n := by
  split_ifs at h with hover
  · cases h
  · obtain ⟨bytes, -, h⟩ := Run.bind_eq_ok.mp h
    obtain ⟨-, rfl⟩ := Prod.mk.inj (Option.some.inj (Except.ok.inj h))
    exact ⟨by simpa using hover, rfl⟩

lemma be32toh_eq_some {v : UInt32} (h : r.be32toh = .ok (some (v, r'))) :
    r.overflow 4 = false ∧ r' = r.advance 4 := eq_some_of_checked h

lemma be64toh_eq_some {v : UInt64} (h : r.be64toh = .ok (some (v, r'))) :
    r.overflow 8 = false ∧ r' = r.advance 8 := eq_some_of_checked h

lemma getInt32_eq_some {i : Int32} (h : r.getInt32 = .ok (some (i, r'))) :
    r.overflow 4 = false ∧ r' = r.advance 4 := by
  obtain ⟨v, hv, h⟩ := Run.bind_eq_ok.mp h
  obtain ⟨⟨u, r₁⟩, rfl, hu⟩ := Option.map_eq_some_iff.mp (Except.ok.inj h)
  rw [← (Prod.mk.inj hu).2]
  exact be32toh_eq_some hv

/-- An item that has been read lies in the packet, as far as the overflow check can tell. -/
lemma itemRaw_eq_some (h : r.itemRaw itm = .ok (some (itm', r'))) :
    r.overflow 4 = false ∧ r' = r.advance 4 ∧ r'.overflow (sizeOfInt32 itm'.size) = false ∧
      itm'.body = r'.ptr ∧ itm'.end_ = itm.end_ := by
  obtain ⟨size, hsize, h⟩ := Run.bind_eq_ok.mp h
  cases size with
  | none => simp at h
  | some size =>
      obtain ⟨hover, hadvance⟩ := getInt32_eq_some hsize
      dsimp only at h
      split_ifs at h with hitem
      · simp at h
      · obtain ⟨rfl, rfl⟩ := Prod.mk.inj (Option.some.inj (Except.ok.inj h))
        exact ⟨hover, hadvance, by simpa using hitem, rfl, rfl⟩

/-- The first item stands behind the literal and the timetag. -/
lemma advance_header {mem : Memory} {buf len : ℕ} (h : buf + 16 < 2 ^ 64) :
    (((initializeAt mem buf len).advance 8).advance 8).ptr = buf + 16 := by
  show addPtr (addPtr buf 8) 8 = buf + 16
  rw [addPtr_of_lt (show buf + 8 < 2 ^ 64 by omega), addPtr_of_lt (by omega)]

lemma itemBegin_eq_some {len : ℕ} (h : r.itemBegin len = .ok (some (itm', r'))) :
    r.overflow 16 = false ∧ ∃ itm : OscItem, itm.end_ = addPtr r.ptr len ∧
      ((r.advance 8).advance 8).itemRaw itm = .ok (some (itm', r')) := by
  unfold itemBegin at h
  split_ifs at h with hlen hheader
  · simp at h
  · simp at h
  obtain ⟨isBundle, -, h⟩ := Run.bind_eq_ok.mp h
  cases isBundle with
  | false => simp at h
  | true =>
      obtain ⟨timetag, htimetag, h⟩ := Run.bind_eq_ok.mp h
      cases timetag with
      | none => simp at h
      | some timetag =>
          rw [← (be64toh_eq_some htimetag).2]
          exact ⟨by simpa using hheader, _, rfl, h⟩

end OscReader

/-! ## Finitely many places -/

namespace Place

/-- All addresses and sizes at a place are 64-bit numbers. -/
def Bounded (mem : Memory) : Place → Prop
  | .packet mem' buf len => mem' = mem ∧ buf < 2 ^ 64 ∧ len < 2 ^ 64
  | .item itm reader =>
      reader.mem = mem ∧ (itm.body < 2 ^ 64 ∧ itm.end_ < 2 ^ 64) ∧
        (reader.buf < 2 ^ 64 ∧ reader.ptr < 2 ^ 64 ∧ reader.end_ < 2 ^ 64)

/-- The numbers at a place. -/
def code : Place → Fin 8 → ℕ
  | .packet _ buf len => ![0, buf, len, 0, 0, 0, 0, 0]
  | .item itm reader =>
      ![1, itm.size.toUInt32.toNat, itm.body, itm.timetag.toNat, itm.end_,
        reader.buf, reader.ptr, reader.end_]

lemma code_injOn (mem : Memory) : Set.InjOn code {c | Bounded mem c} := by
  rintro (⟨m, buf, len⟩ | ⟨itm, r⟩) hc (⟨m', buf', len'⟩ | ⟨itm', r'⟩) hd h
  · have h₁ := congrFun h 1
    have h₂ := congrFun h 2
    have hmem : m = m' := hc.1.trans hd.1.symm
    simp only [code, Matrix.cons_val] at h₁ h₂
    rw [hmem, h₁, h₂]
  · exact absurd (congrFun h 0) (by simp [code])
  · exact absurd (congrFun h 0) (by simp [code])
  · have hmem : r.mem = r'.mem := hc.1.trans hd.1.symm
    have h₁ := congrFun h 1
    have h₂ := congrFun h 2
    have h₃ := congrFun h 3
    have h₄ := congrFun h 4
    have h₅ := congrFun h 5
    have h₆ := congrFun h 6
    have h₇ := congrFun h 7
    simp only [code, Matrix.cons_val] at h₁ h₂ h₃ h₄ h₅ h₆ h₇
    have hsize : itm.size = itm'.size := congrArg UInt32.toInt32 (UInt32.toNat_inj.mp h₁)
    have htimetag : itm.timetag = itm'.timetag := UInt64.toNat_inj.mp h₃
    cases itm
    cases itm'
    cases r
    cases r'
    simp_all

lemma finite_bounded (mem : Memory) : {c | Bounded mem c}.Finite := by
  have hnumbers : {f : Fin 8 → ℕ | ∀ i, f i ∈ Set.Iio (2 ^ 64)}.Finite :=
    Set.Finite.pi' fun _ => Set.finite_Iio _
  refine Set.Finite.of_injOn (fun c hc => ?_) (code_injOn mem) hnumbers
  intro i
  rw [Set.mem_Iio]
  cases c with
  | packet m buf len =>
      obtain ⟨-, hbuf, hlen⟩ := hc
      fin_cases i <;> simp [code] <;> omega
  | item itm r =>
      have hsize := itm.size.toUInt32.toNat_lt
      have htimetag := itm.timetag.toNat_lt
      obtain ⟨-, ⟨hbody, hend⟩, hbuf, hptr, hlimit⟩ := hc
      fin_cases i <;> simp [code] <;> omega

lemma addPtr_lt (a n : ℕ) : addPtr a n < 2 ^ 64 := Nat.mod_lt _ (by decide)

/-- Reading an item from a reader whose buffer and end are 64-bit numbers. -/
lemma bounded_of_itemRaw {mem : Memory} {r r' : OscReader} {itm itm' : OscItem}
    (hmem : r.mem = mem) (hbuf : r.buf < 2 ^ 64) (hend : r.end_ < 2 ^ 64)
    (hitm : itm.end_ < 2 ^ 64) (h : r.itemRaw itm = .ok (some (itm', r'))) :
    Bounded mem (.item itm' r') := by
  obtain ⟨-, rfl, -, hbody, hend'⟩ := OscReader.itemRaw_eq_some h
  refine ⟨hmem, ⟨?_, hend' ▸ hitm⟩, hbuf, addPtr_lt _ _, hend⟩
  rw [hbody]
  exact addPtr_lt _ _

lemma bounded_of_step {mem : Memory} {c d : Place} (hc : Bounded mem c) (h : WalkStep c d) :
    Bounded mem d := by
  cases h with
  | first _ hbegin =>
      obtain ⟨hmem, hbuf, -⟩ := hc
      obtain ⟨-, itm, hend, hraw⟩ := OscReader.itemBegin_eq_some hbegin
      exact bounded_of_itemRaw hmem hbuf (addPtr_lt _ _) (hend ▸ addPtr_lt _ _) hraw
  | body _ =>
      obtain ⟨hmem, ⟨hbody, -⟩, -⟩ := hc
      refine ⟨hmem, hbody, ?_⟩
      unfold sizeOfInt32
      omega
  | @next _ _ reader _ _ hnext =>
      obtain ⟨hmem, ⟨-, hitm⟩, hbuf, -, hend⟩ := hc
      exact bounded_of_itemRaw (r := reader.advance _) hmem hbuf hend hitm hnext

lemma finite_reached {mem : Memory} {root : Place} (h : Bounded mem root) :
    {c | Relation.ReflTransGen WalkStep root c}.Finite := by
  refine (finite_bounded mem).subset fun c hc => ?_
  induction hc with
  | refl => exact h
  | tail _ hstep ih => exact bounded_of_step ih hstep

end Place

/-! ## Copies -/

lemma onlyStrays_schedule {σ : Type} {libc : Libc} (app : App σ) (timetag : UInt64) (mem : Memory)
    (buf len : ℕ) : OnlyStrays (schedule libc app timetag mem buf len) := by
  have hblock (a : ℕ) (bytes : List UInt8) : OnlyStrays (Memory.block a bytes) := by
    unfold Memory.block
    split_ifs
    · exact onlyStrays_ok _
    · exact fun e h => (Except.error.inj h).symm
  unfold schedule
  split
  · refine (Memory.onlyStrays_slice _ _).bind fun bytes _ => ?_
    exact (hblock _ _).bind fun _ _ => onlyStrays_ok _
  · exact onlyStrays_ok _

end MonoBus
