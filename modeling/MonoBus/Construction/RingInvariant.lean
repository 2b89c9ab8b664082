import MonoBus.Construction.RingLayout

/-!
# What holds of the ring between the steps of its parties

`RingInv` relates `head` and `tail` to positions and `buf` to the pieces of the unread part.  The
producer knows a grant behind `hi` and which bytes of the headers it has stored; the consumer knows
the first piece.  As long as every size written leaves room for the header and the padding, each
step of either party keeps this (`RingInv.producerStep`, `RingInv.consumerStep`).
-/

namespace MonoBus

/-! ## Stores of headers -/

/-- The size fits in the grant, with the header in front of it and padded. -/
def Reservation.Holds (r : Reservation) (written : ℕ) : Prop :=
  written ≤ r.rsvd ∧ 8 + varchunkPad written ≤ r.rsvd

@[simp] lemma length_elmntBytes (size gap : ℕ) : (elmntBytes size gap).length = 8 := by
  simp [elmntBytes]

section Header

variable {size lo hi minimum : ℕ} {r : Reservation}

/-- The headers are stored behind `hi`, inside the grant. -/
lemma Granted.headerPosition (h : Granted size lo hi r minimum) {written x : ℕ} {b : UInt8}
    (hx : (x, b) ∈ headerStores (hi % size) r.gapd written) :
    ∃ v, hi ≤ v ∧ v < lo + size ∧ x = v % size := by
  have hroom := h.room
  have hfits := h.fits
  have hmin := h.minimum_le
  rw [headerStores] at hx
  split_ifs at hx with hgap
  · have hend := h.gap.resolve_left (by omega)
    have h8 := Nat.le_of_dvd hgap h.aligned
    have hzero : (hi + r.gapd) % size = 0 := add_mod_of_eq hend
    obtain hx | hx := List.mem_append.mp hx
    · obtain ⟨hle, hlt⟩ := mem_storesAt hx
      rw [length_elmntBytes] at hlt
      refine ⟨hi + (x - hi % size), by omega, by omega, ?_⟩
      rw [add_mod_of_lt (by omega)]
      omega
    · obtain ⟨-, hlt⟩ := mem_storesAt hx
      rw [length_elmntBytes] at hlt
      refine ⟨hi + r.gapd + x, by omega, by omega, ?_⟩
      rw [add_mod_of_lt (by omega)]
      omega
  · obtain hzero : r.gapd = 0 := by omega
    rw [hzero, Nat.add_zero] at hroom hfits
    obtain ⟨hle, hlt⟩ := mem_storesAt hx
    rw [length_elmntBytes] at hlt
    refine ⟨hi + (x - hi % size), by omega, by omega, ?_⟩
    rw [add_mod_of_lt (by omega)]
    omega

/-- No byte of the headers is stored twice. -/
lemma Granted.nodup_headerStores (h : Granted size lo hi r minimum) (hle : lo ≤ hi)
    (written : ℕ) : ((headerStores (hi % size) r.gapd written).map Prod.fst).Nodup := by
  rw [headerStores]
  split_ifs with hgap
  · have hend := h.gap.resolve_left (by omega)
    have hroom := h.room
    have hmin := h.minimum_le
    rw [List.map_append, List.nodup_append]
    refine ⟨nodup_storesAt _ _, nodup_storesAt _ _, ?_⟩
    intro x hx y hy
    obtain ⟨⟨x, b⟩, hxb, rfl⟩ := List.mem_map.mp hx
    obtain ⟨⟨y, c⟩, hyc, rfl⟩ := List.mem_map.mp hy
    have hle := (mem_storesAt hxb).1
    have hlt := (mem_storesAt hyc).2
    rw [length_elmntBytes] at hlt
    show x ≠ y
    omega
  · exact nodup_storesAt _ _

/-- When all of them are stored, a piece stands at `hi`. -/
lemma Granted.laidAt (h : Granted size lo hi r minimum) {written : ℕ} (hholds : r.Holds written)
    (hsize : size ≤ 2 ^ 31) (hle : lo ≤ hi) {buf : ℕ → UInt8}
    (hdone : ∀ p ∈ headerStores (hi % size) r.gapd written, buf p.1 = p.2) :
    Piece.LaidAt size buf hi { gap := r.gapd, bytes := bytesAt buf r.ptr written } := by
  obtain ⟨hrsvd, hpad⟩ := hholds
  have hroom := h.room
  have hfits := h.fits
  have hheader : HoldsAt buf ((hi + r.gapd) % size) (elmntBytes written 0) ∧
      (r.gapd ≠ 0 → HoldsAt buf (hi % size + 4) (le32 1)) := by
    rw [headerStores] at hdone
    split_ifs at hdone with hgap
    · rw [List.forall_mem_append] at hdone
      rw [add_mod_of_eq (h.gap.resolve_left (by omega))]
      refine ⟨holdsAt_of_stores hdone.2, fun _ => ?_⟩
      have hright := (holdsAt_of_stores hdone.1).right
      rwa [length_le32] at hright
    · have hzero : r.gapd = 0 := by omega
      rw [hzero, Nat.add_zero]
      exact ⟨holdsAt_of_stores hdone, fun hne => absurd rfl hne⟩
  constructor
  · exact h.aligned
  · by_cases hgap : r.gapd = 0
    · exact .inl hgap
    · exact .inr ⟨h.gap.resolve_left hgap, hheader.2 hgap⟩
  · rw [length_bytesAt]
    show (hi + r.gapd) % size + 8 + varchunkPad written ≤ size
    omega
  · rw [length_bytesAt]
    omega
  · rw [length_bytesAt]
    exact hheader.1
  · show HoldsAt buf ((hi + r.gapd) % size + 8) (bytesAt buf r.ptr written)
    rw [← h.ptr]
    exact holdsAt_bytesAt _ _ _

/-- The headers of an element do not meet its bytes. -/
lemma Granted.header_ne (h : Granted size lo hi r minimum) (hsize : size ≤ 2 ^ 31) (hle : lo ≤ hi)
    {written x i : ℕ} {b : UInt8} (hholds : r.Holds written)
    (hx : (x, b) ∈ headerStores (hi % size) r.gapd written) (hi' : i < written) :
    x ≠ r.ptr + i := by
  have hptr := h.ptr
  have hroom := h.room
  obtain ⟨hrsvd, hpad⟩ := hholds
  have hwritten := le_varchunkPad (show written < 2 ^ 31 by omega)
  rw [headerStores] at hx
  split_ifs at hx with hgap
  · have hend := h.gap.resolve_left (by omega)
    rw [add_mod_of_eq hend] at hptr
    rcases List.mem_append.mp hx with hx | hx
    · have hge := (mem_storesAt hx).1
      omega
    · have hlt := (mem_storesAt hx).2
      rw [length_elmntBytes] at hlt
      omega
  · have hzero : r.gapd = 0 := by omega
    have hlt := (mem_storesAt hx).2
    rw [length_elmntBytes] at hlt
    simp only [hzero, Nat.add_zero] at hptr
    omega

/-- So storing them leaves the bytes as they are. -/
lemma Granted.bytesAt_update (h : Granted size lo hi r minimum) (hsize : size ≤ 2 ^ 31)
    (hle : lo ≤ hi) {written x : ℕ} {b : UInt8} (hholds : r.Holds written)
    (hx : (x, b) ∈ headerStores (hi % size) r.gapd written) (buf : ℕ → UInt8) :
    bytesAt (Function.update buf x b) r.ptr written = bytesAt buf r.ptr written := by
  refine List.map_congr_left fun i hi => Function.update_of_ne ?_ _ _
  exact (h.header_ne hsize hle hholds hx (List.mem_range.mp hi)).symm

end Header

/-! ## The parties -/

/-- What the producer knows.  In `header` the stores that are done are there. -/
def ProducerOk (size lo hi : ℕ) (buf : ℕ → UInt8) : ProducerPc → Prop
  | .idle => True
  | .loadHead minimum => minimum < 2 ^ 31
  | .loadTail minimum head => minimum < 2 ^ 31 ∧ head = hi % size
  | .granted r minimum => minimum < 2 ^ 31 ∧ Granted size lo hi r minimum
  | .advance r written => r.Holds written ∧ ∃ minimum, Granted size lo hi r minimum
  | .header r written head stores => head = hi % size ∧ r.Holds written ∧
      (∃ minimum, Granted size lo hi r minimum) ∧
      ∃ before, headerStores head r.gapd written = before ++ stores ∧ ∀ p ∈ before, buf p.1 = p.2

/-- While the producer advances a chunk, its bytes stand as they did when it began to. -/
def ProducerKept (buf : ℕ → UInt8) (advancing : List UInt8) : ProducerPc → Prop
  | .advance r written => advancing = bytesAt buf r.ptr written
  | .header r written _ _ => advancing = bytesAt buf r.ptr written
  | _ => True

/-- What the consumer knows: the first piece is there, and what it has read of it is right. -/
def ConsumerOk (size lo : ℕ) (ps : List Piece) : ConsumerPc → Prop
  | .idle => True
  | .loadHead tail => tail = lo % size
  | .readGap tail got => tail = lo % size ∧ ∃ p ∈ ps.head?, got <+: le32 p.flag
  | .skipGap tail => tail = lo % size ∧ ∃ p ∈ ps.head?, p.gap ≠ 0
  | .readSize elmnt got => elmnt = lo % size ∧ ∃ p ∈ ps.head?, p.gap = 0 ∧
      got <+: le32 p.bytes.length
  | .handle ptr toread got => ptr = lo % size + 8 ∧ ∃ p ∈ ps.head?, p.gap = 0 ∧
      toread = p.bytes.length ∧ got <+: p.bytes
  | .loadTail => ∃ p ∈ ps.head?, p.gap = 0
  | .readAgain tail got => tail = lo % size ∧ ∃ p ∈ ps.head?, p.gap = 0 ∧
      got <+: le32 p.bytes.length
  | .storeTail tail read => tail = lo % size ∧ ∃ p ∈ ps.head?, p.gap = 0 ∧
      read = p.bytes.length

/-- How many chunks the consumer has handled and not released. -/
def ConsumerPc.done : ConsumerPc → ℕ
  | .loadTail => 1
  | .readAgain _ _ => 1
  | .storeTail _ _ => 1
  | _ => 0

/-- The unread part of the ring consists of the pieces `ps` from position `lo` on. -/
structure RingInv (size : ℕ) (s : Varchunk) (lo : ℕ) (ps : List Piece) : Prop where
  aligned : 8 ∣ lo
  room : extents ps < size
  head : s.head = (lo + extents ps) % size
  tail : s.tail = lo % size
  laid : Laid size s.buf lo ps
  unread : s.unread = places size lo ps
  producer : ProducerOk size lo (lo + extents ps) s.buf s.producer
  kept : ProducerKept s.buf s.advancing s.producer
  consumer : ConsumerOk size lo ps s.consumer
  done_le : s.released + s.consumer.done ≤ s.advanced.length
  handled : s.handled = (s.advanced.take (s.released + s.consumer.done)).map Prod.snd

/-! ## Steps of the producer -/

lemma ProducerOk.mono {size lo lo' hi : ℕ} {buf : ℕ → UInt8} {pc : ProducerPc}
    (h : ProducerOk size lo hi buf pc) (hle : lo ≤ lo') : ProducerOk size lo' hi buf pc := by
  cases pc with
  | granted r minimum => exact ⟨h.1, h.2.mono hle⟩
  | advance r written =>
      obtain ⟨hholds, minimum, hgranted⟩ := h
      exact ⟨hholds, minimum, hgranted.mono hle⟩
  | header r written head stores =>
      obtain ⟨hhead, hholds, ⟨minimum, hgranted⟩, hstores⟩ := h
      exact ⟨hhead, hholds, ⟨minimum, hgranted.mono hle⟩, hstores⟩
  | _ => exact h

lemma producerKept_ofRequest (buf : ℕ → UInt8) (advancing : List UInt8) (minimum : ℕ)
    (answer : Option Reservation) :
    ProducerKept buf advancing (.ofRequest minimum answer) := by
  cases answer <;> trivial

lemma ConsumerOk.concat {size lo : ℕ} {ps : List Piece} {pc : ConsumerPc}
    (h : ConsumerOk size lo ps pc) (q : Piece) : ConsumerOk size lo (ps ++ [q]) pc := by
  have happend {P : Piece → Prop} (hp : ∃ p ∈ ps.head?, P p) : ∃ p ∈ (ps ++ [q]).head?, P p := by
    obtain ⟨p, hmem, hp⟩ := hp
    exact ⟨p, List.mem_head?_append_of_mem_head? hmem, hp⟩
  cases pc with
  | idle => trivial
  | loadHead tail => exact h
  | loadTail => exact happend h
  | _ => exact ⟨h.1, happend h.2⟩

/-- Sizes that are permitted fit. -/
def Permits (permit : Reservation → ℕ → ℕ → Prop) : Prop :=
  ∀ r minimum written, minimum < 2 ^ 31 → 16 + varchunkPad minimum ≤ r.rsvd →
    permit r minimum written → r.Holds written

namespace RingInv

variable {size k lo : ℕ} {s : Varchunk} {ps : List Piece} {permit : Reservation → ℕ → ℕ → Prop}

lemma producerPc (h : RingInv size s lo ps) {pc : ProducerPc} {advancing : List UInt8}
    (hpc : ProducerOk size lo (lo + extents ps) s.buf pc)
    (hkept : ProducerKept s.buf advancing pc) :
    RingInv size { s with producer := pc, advancing := advancing } lo ps :=
  { h with
    producer := hpc
    kept := hkept }

lemma store (h : RingInv size s lo ps) {v : ℕ} {b : UInt8} {pc : ProducerPc}
    (hle : lo + extents ps ≤ v) (hlt : v < lo + size)
    (hpc : ProducerOk size lo (lo + extents ps) (Function.update s.buf (v % size) b) pc)
    (hkept : ProducerKept (Function.update s.buf (v % size) b) s.advancing pc) :
    RingInv size { s with buf := Function.update s.buf (v % size) b, producer := pc } lo ps :=
  { h with
    laid := h.laid.update (fun _ _ _ => (mod_ne_mod (by omega) (by omega)).symm) b
    producer := hpc
    kept := hkept }

/-- What is behind the unread part meets no chunk of it. -/
lemma untouched (h : RingInv size s lo ps) {v : ℕ} (hle : lo + extents ps ≤ v)
    (hlt : v < lo + size) {c : ℕ × List UInt8} (hc : c ∈ s.unread) {i : ℕ} (hi : i < c.2.length) :
    v % size ≠ c.1 + i := by
  obtain ⟨u, hlo, hhi, hu⟩ := h.laid.position (h.unread ▸ hc) hi
  rw [hu]
  exact (mod_ne_mod (by omega) (by omega)).symm

/-- The producer stores behind the unread part only. -/
lemma stored (h : RingInv size s lo ps) (hsize : size ≤ 2 ^ 31) (hpermit : Permits permit)
    {x : ℕ} {t : Varchunk} (hst : ProducerStep size permit s (some x) t) :
    ∃ v, lo + extents ps ≤ v ∧ v < lo + size ∧ x = v % size := by
  have hprod := h.producer
  cases hst with
  | @fill r _ i b hpc hw =>
      rw [hpc] at hprod
      obtain ⟨hmin, hgranted⟩ := hprod
      have hroom := hgranted.room
      have hfits := hgranted.fits
      obtain ⟨hrsvd, hpad⟩ := hpermit _ _ _ hmin hgranted.minimum_le hw
      have hle := le_varchunkPad (show i + 1 < 2 ^ 31 by omega)
      refine ⟨lo + extents ps + r.gapd + (8 + i), by omega, by omega, ?_⟩
      rw [add_mod_of_lt (by omega), hgranted.ptr]
      omega
  | storeHeader hpc =>
      rw [hpc] at hprod
      obtain ⟨rfl, -, ⟨minimum, hgranted⟩, before, heq, -⟩ := hprod
      exact hgranted.headerPosition (heq ▸ List.mem_append_right _ List.mem_cons_self)

/-- The store of `head`: one more piece. -/
lemma storeHead (h : RingInv size s lo ps) (hsize : size = 2 ^ k) (hk : size ≤ 2 ^ 31)
    {r : Reservation} {written head : ℕ} (hpc : s.producer = .header r written head []) :
    RingInv size { s with
        head := (head + (r.gapd + 8 + varchunkPad written)) &&& (size - 1)
        producer := .idle
        advanced := s.advanced ++ [(r.ptr, s.advancing)] } lo
      (ps ++ [{ gap := r.gapd, bytes := s.advancing }]) := by
  have hprod := h.producer
  have hkept := h.kept
  rw [hpc] at hprod hkept
  rw [show s.advancing = bytesAt s.buf r.ptr written from hkept]
  obtain ⟨rfl, hholds, ⟨minimum, hgranted⟩, before, heq, hbefore⟩ := hprod
  rw [List.append_nil] at heq
  have hroom := hgranted.room
  have hpad := hholds.2
  have hdone := h.done_le
  have hextent : extents [({ gap := r.gapd, bytes := bytesAt s.buf r.ptr written } : Piece)] =
      r.gapd + 8 + varchunkPad written := by
    simp [Piece.extent]
  constructor
  · exact h.aligned
  · rw [extents_append, hextent]
    omega
  · show ((lo + extents ps) % size + (r.gapd + 8 + varchunkPad written)) &&& (size - 1) = _
    rw [and_mask hsize, Nat.mod_add_mod, extents_append, hextent, Nat.add_assoc]
  · exact h.tail
  · refine h.laid.concat (hgranted.laidAt hholds hk (Nat.le_add_right _ _) ?_)
    exact heq ▸ hbefore
  · rw [places_concat, ← h.unread, Piece.place, ← hgranted.ptr]
    exact List.drop_append_of_le_length ((Nat.le_add_right _ _).trans hdone)
  · trivial
  · trivial
  · exact h.consumer.concat _
  · rw [List.length_append]
    exact hdone.trans (Nat.le_add_right _ _)
  · rw [h.handled, List.take_append_of_le_length hdone]

theorem producerStep (h : RingInv size s lo ps) (hsize : size = 2 ^ k) (hk : size ≤ 2 ^ 31)
    (hpermit : Permits permit) {stored : Option ℕ} {t : Varchunk}
    (hst : ProducerStep size permit s stored t) : ∃ ps, RingInv size t lo ps := by
  have hprod := h.producer
  have hkept := h.kept
  have hroom := h.room
  have hstored (x : ℕ) (hx : stored = some x) := h.stored hk hpermit (hx ▸ hst)
  cases hst with
  | request hpc hmin => exact ⟨ps, h.producerPc hmin trivial⟩
  | loadHead hpc =>
      rw [hpc] at hprod
      exact ⟨ps, h.producerPc ⟨hprod, h.head⟩ trivial⟩
  | @loadTail minimum head hpc =>
      rw [hpc] at hprod
      obtain ⟨hmin, rfl⟩ := hprod
      refine ⟨ps, h.producerPc ?_ (producerKept_ofRequest _ _ _ _)⟩
      rw [h.tail]
      cases hreq : varchunkWriteRequestMax size ((lo + extents ps) % size) (lo % size) minimum with
      | none => trivial
      | some r =>
          have halign := h.aligned.add h.laid.dvd_extents
          exact ⟨hmin, granted_of_request hsize (by omega) (by omega) halign hreq⟩
  | fill i b hpc hw =>
      obtain ⟨v, hle, hlt, hv⟩ := hstored _ rfl
      rw [hpc] at hprod
      have hstore : RingInv size { s with buf := Function.update s.buf (v % size) b } lo ps :=
        h.store hle hlt (by rw [hpc]; exact hprod) (by rw [hpc]; trivial)
      rw [← hv] at hstore
      exact ⟨ps, hstore⟩
  | advance written hpc hw =>
      rw [hpc] at hprod
      obtain ⟨hmin, hgranted⟩ := hprod
      exact ⟨ps, h.producerPc ⟨hpermit _ _ _ hmin hgranted.minimum_le hw, _, hgranted⟩ rfl⟩
  | loadOwnHead hpc =>
      rw [hpc] at hprod hkept
      obtain ⟨hholds, hgranted⟩ := hprod
      exact ⟨ps, h.producerPc ⟨h.head, hholds, hgranted, [], rfl, by simp⟩ hkept⟩
  | @storeHeader r written head x b stores hpc =>
      obtain ⟨v, hle, hlt, rfl⟩ := hstored _ rfl
      rw [hpc] at hprod hkept
      obtain ⟨rfl, hholds, ⟨minimum, hgranted⟩, before, heq, hbefore⟩ := hprod
      have hbytes := hgranted.bytesAt_update hk (Nat.le_add_right _ _) hholds
        (heq ▸ List.mem_append_right before List.mem_cons_self) s.buf
      refine ⟨ps, h.store hle hlt ⟨rfl, hholds, ⟨minimum, hgranted⟩,
        before ++ [(v % size, b)], by simp [heq], ?_⟩ ((show _ = _ from hkept).trans hbytes.symm)⟩
      -- the store does not undo one of those before
      have hnodup := hgranted.nodup_headerStores (by omega) written
      rw [heq, List.map_append, List.map_cons, List.nodup_append] at hnodup
      intro p hp
      rw [List.mem_append, List.mem_singleton] at hp
      obtain hp | rfl := hp
      · have hne := hnodup.2.2 p.1 (List.mem_map_of_mem hp) (v % size) List.mem_cons_self
        rw [Function.update_of_ne hne]
        exact hbefore p hp
      · exact Function.update_self _ _ _
  | storeHead hpc => exact ⟨_, h.storeHead hsize hk hpc⟩

/-! ## Steps of the consumer -/

lemma consumerPc (h : RingInv size s lo ps) {pc : ConsumerPc} (hdone : pc.done = s.consumer.done)
    (hpc : ConsumerOk size lo ps pc) : RingInv size { s with consumer := pc } lo ps :=
  { h with
    consumer := hpc
    done_le := hdone ▸ h.done_le
    handled := hdone ▸ h.handled }

/-- The first piece, where the consumer knows that there is one. -/
lemma laid_head (h : RingInv size s lo ps) {p : Piece} (hp : p ∈ ps.head?) :
    p.LaidAt size s.buf lo ∧ ∃ rest, ps = p :: rest := by
  cases ps with
  | nil => cases hp
  | cons q rest =>
      obtain rfl := Option.some.inj hp
      exact ⟨h.laid.1, rest, rfl⟩

/-- The load of `head`: a gap is at the end of the buffer, and what is behind it is readable. -/
lemma readStart_ok (h : RingInv size s lo ps) (hsize : size = 2 ^ k) :
    ConsumerOk size lo ps (readStart size (lo % size) s.head) := by
  have hroom := h.room
  rw [readStart, h.head, readableSpace_eq hsize (Nat.le_add_right _ _) (by omega),
    Nat.add_sub_cancel_left]
  cases ps with
  | nil => trivial
  | cons p rest =>
      split_ifs with hpos hwrap
      · exact ⟨rfl, p, rfl, List.nil_prefix⟩
      · refine ⟨rfl, p, rfl, ?_, List.nil_prefix⟩
        by_contra hgap
        have hend := (h.laid.1.gap.resolve_left hgap).1
        rw [extents_cons, Piece.extent] at hwrap
        omega
      · trivial

lemma skipGap (h : RingInv size s lo ps) (hsize : size = 2 ^ k) {tail : ℕ}
    (hpc : s.consumer = .skipGap tail) : ∃ lo ps, RingInv size { s with
      tail := (tail + (size - tail)) &&& (size - 1), consumer := .readSize 0 [] } lo ps := by
  have hcons := h.consumer
  have hdone := h.done_le
  have hhandled := h.handled
  rw [hpc] at hcons hdone hhandled
  obtain ⟨rfl, p, hp, hgap⟩ := hcons
  obtain ⟨hlaid, rest, rfl⟩ := h.laid_head hp
  have hend := (hlaid.gap.resolve_left hgap).1
  have hnext : lo + p.extent = lo + p.gap + Piece.extent { p with gap := 0 } := by
    simp only [Piece.extent]
    omega
  have hextents : lo + p.gap + extents ({ p with gap := 0 } :: rest) =
      lo + extents (p :: rest) := by
    rw [extents_cons, extents_cons, ← Nat.add_assoc, ← hnext, Nat.add_assoc]
  have hzero : (lo + p.gap) % size = 0 := add_mod_of_eq hend
  refine ⟨lo + p.gap, { p with gap := 0 } :: rest, ?_⟩
  constructor
  · exact h.aligned.add hlaid.aligned
  · have hroom := h.room
    omega
  · rw [hextents]
    exact h.head
  · show (lo % size + (size - lo % size)) &&& (size - 1) = _
    rw [hzero, and_mask hsize, show lo % size + (size - lo % size) = size by omega, Nat.mod_self]
  · exact ⟨hlaid.skip, hnext ▸ h.laid.2⟩
  · have hunread := h.unread
    rw [places, hnext] at hunread
    exact hunread
  · rw [hextents]
    exact h.producer.mono (Nat.le_add_right _ _)
  · exact h.kept
  · exact ⟨hzero.symm, _, rfl, rfl, List.nil_prefix⟩
  · exact hdone
  · exact hhandled

/-- The chunk that is next is the chunk of the first piece. -/
lemma getElem?_advanced (h : RingInv size s lo ps) {p : Piece} (hp : p ∈ ps.head?) :
    s.advanced[s.released]? = some (p.place size lo) := by
  obtain ⟨-, rest, rfl⟩ := h.laid_head hp
  have hhead := congrArg List.head? h.unread
  rwa [Varchunk.unread, List.head?_drop] at hhead

lemma handleEnd (h : RingInv size s lo ps) {ptr toread : ℕ} {got : List UInt8}
    (hpc : s.consumer = .handle ptr toread got) (hlen : toread ≤ got.length) :
    RingInv size { s with consumer := .loadTail, handled := s.handled ++ [got] } lo ps := by
  have hcons := h.consumer
  have hhandled := h.handled
  rw [hpc] at hcons hhandled
  obtain ⟨rfl, p, hp, hgap, rfl, hgot⟩ := hcons
  obtain rfl := hgot.eq_of_length_le hlen
  have hnext := h.getElem?_advanced hp
  obtain ⟨hlt, -⟩ := List.getElem?_eq_some_iff.mp hnext
  exact { h with
    consumer := ⟨p, hp, hgap⟩
    done_le := hlt
    handled := by
      show s.handled ++ [p.bytes] = (s.advanced.take (s.released + 1)).map Prod.snd
      rw [hhandled, List.take_add_one, hnext, List.map_append]
      rfl }

lemma storeTail (h : RingInv size s lo ps) (hsize : size = 2 ^ k) {tail read : ℕ}
    (hpc : s.consumer = .storeTail tail read) : ∃ lo ps, RingInv size { s with
      tail := (tail + (8 + varchunkPad read)) &&& (size - 1)
      consumer := .idle
      released := s.released + 1 } lo ps := by
  have hcons := h.consumer
  have hdone := h.done_le
  have hhandled := h.handled
  rw [hpc] at hcons hdone hhandled
  obtain ⟨rfl, p, hp, hgap, rfl⟩ := hcons
  obtain ⟨hlaid, rest, rfl⟩ := h.laid_head hp
  have hextents : lo + p.extent + extents rest = lo + extents (p :: rest) := by
    rw [extents_cons, Nat.add_assoc]
  refine ⟨lo + p.extent, rest, ?_⟩
  constructor
  · exact h.aligned.add (Piece.dvd_extent hlaid)
  · have hroom := h.room
    omega
  · rw [hextents]
    exact h.head
  · show (lo % size + (8 + varchunkPad p.bytes.length)) &&& (size - 1) = _
    rw [and_mask hsize, Nat.mod_add_mod, Piece.extent, hgap, Nat.zero_add]
  · exact h.laid.2
  · have hunread := congrArg List.tail h.unread
    rwa [Varchunk.unread, List.tail_drop] at hunread
  · rw [hextents]
    exact h.producer.mono (Nat.le_add_right _ _)
  · exact h.kept
  · trivial
  · exact hdone
  · exact hhandled

theorem consumerStep (h : RingInv size s lo ps) (hsize : size = 2 ^ k) :
    ∃ lo ps, RingInv size (consumerStep size s) lo ps := by
  have hcons := h.consumer
  rw [MonoBus.consumerStep]
  cases hpc : s.consumer with
  | idle => exact ⟨lo, ps, h.consumerPc (by rw [hpc]; rfl) h.tail⟩
  | loadHead tail =>
      rw [hpc] at hcons
      obtain rfl := hcons
      refine ⟨lo, ps, h.consumerPc ?_ (h.readStart_ok hsize)⟩
      rw [hpc, readStart]
      split_ifs <;> rfl
  | readGap tail got =>
      rw [hpc] at hcons
      obtain ⟨rfl, p, hp, hgot⟩ := hcons
      have hflag := (h.laid_head hp).1.flagAt
      simp only
      split_ifs with hlt hne
      · exact ⟨lo, ps, h.consumerPc (by rw [hpc]; rfl) ⟨rfl, p, hp, hflag.read hgot hlt⟩⟩
      · rw [leNat_eq_of_got hgot hlt p.flag_lt] at hne
        refine ⟨lo, ps, h.consumerPc (by rw [hpc]; rfl) ⟨rfl, p, hp, fun hgap => hne ?_⟩⟩
        rw [Piece.flag, if_pos hgap]
      · rw [leNat_eq_of_got hgot hlt p.flag_lt, Piece.flag] at hne
        have hgap : p.gap = 0 := by
          by_contra hgap
          rw [if_neg hgap] at hne
          exact hne one_ne_zero
        exact ⟨lo, ps, h.consumerPc (by rw [hpc]; rfl) ⟨rfl, p, hp, hgap, List.nil_prefix⟩⟩
  | skipGap tail => exact h.skipGap hsize hpc
  | readSize elmnt got =>
      rw [hpc] at hcons
      obtain ⟨rfl, p, hp, hgap, hgot⟩ := hcons
      have hlaid := (h.laid_head hp).1
      have hshort := hlaid.short
      simp only
      split_ifs with hlt
      · have hread := (hlaid.sizeAt hgap).read hgot hlt
        exact ⟨lo, ps, h.consumerPc (by rw [hpc]; rfl) ⟨rfl, p, hp, hgap, hread⟩⟩
      · rw [leNat_eq_of_got hgot hlt (by omega)]
        exact ⟨lo, ps, h.consumerPc (by rw [hpc]; rfl) ⟨rfl, p, hp, hgap, rfl, List.nil_prefix⟩⟩
  | handle ptr toread got =>
      simp only
      split_ifs with hlt
      · rw [hpc] at hcons
        obtain ⟨rfl, p, hp, hgap, rfl, hgot⟩ := hcons
        have hbody := (h.laid_head hp).1.body
        rw [hgap, Nat.add_zero] at hbody
        exact ⟨lo, ps, h.consumerPc (by rw [hpc]; rfl)
          ⟨rfl, p, hp, hgap, rfl, hbody.read hgot hlt⟩⟩
      · exact ⟨lo, ps, h.handleEnd hpc (by omega)⟩
  | loadTail =>
      rw [hpc] at hcons
      obtain ⟨p, hp, hgap⟩ := hcons
      exact ⟨lo, ps, h.consumerPc (by rw [hpc]; rfl) ⟨h.tail, p, hp, hgap, List.nil_prefix⟩⟩
  | readAgain tail got =>
      rw [hpc] at hcons
      obtain ⟨rfl, p, hp, hgap, hgot⟩ := hcons
      have hlaid := (h.laid_head hp).1
      have hshort := hlaid.short
      simp only
      split_ifs with hlt
      · have hread := (hlaid.sizeAt hgap).read hgot hlt
        exact ⟨lo, ps, h.consumerPc (by rw [hpc]; rfl) ⟨rfl, p, hp, hgap, hread⟩⟩
      · rw [leNat_eq_of_got hgot hlt (by omega)]
        exact ⟨lo, ps, h.consumerPc (by rw [hpc]; rfl) ⟨rfl, p, hp, hgap, rfl⟩⟩
  | storeTail tail read => exact h.storeTail hsize hpc

end RingInv

/-! ## Runs -/

lemma ringInv_new {size : ℕ} (hsize : 0 < size) (buf : ℕ → UInt8) :
    RingInv size (.new buf) 0 [] where
  aligned := dvd_zero 8
  room := hsize
  head := (Nat.zero_mod size).symm
  tail := (Nat.zero_mod size).symm
  laid := trivial
  unread := rfl
  producer := trivial
  kept := trivial
  consumer := trivial
  done_le := le_rfl
  handled := rfl

theorem ringInv_of_reachable {k : ℕ} (hk : k ≤ 31) {permit : Reservation → ℕ → ℕ → Prop}
    (hpermit : Permits permit) {s : Varchunk} (h : (varchunkSystem (2 ^ k) permit).Reachable s) :
    ∃ lo ps, RingInv (2 ^ k) s lo ps := by
  have hsize : 2 ^ k ≤ 2 ^ 31 := Nat.pow_le_pow_right (by norm_num) hk
  refine h.invariant (I := fun s => ∃ lo ps, RingInv (2 ^ k) s lo ps) ?_ ?_
  · rintro s ⟨buf, rfl⟩
    exact ⟨0, [], ringInv_new (Nat.two_pow_pos k) buf⟩
  · rintro s t ⟨lo, ps, hs⟩ (⟨stored, hst⟩ | rfl)
    · exact ⟨lo, hs.producerStep rfl hsize hpermit hst⟩
    · exact hs.consumerStep rfl

end MonoBus
