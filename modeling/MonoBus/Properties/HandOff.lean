import MonoBus.Construction.RingInvariant

/-!
# The hand-off from the network to the beat

Whatever the order of steps of the two parties: as long as the producer writes no more than it
requested, the consumer gets the chunks that were advanced, in order and with their bytes, and the
producer does not touch them before they are released.
-/

namespace MonoBus

/-- The producer writes at most the minimum it has requested. -/
def withinMinimum (_ : Reservation) (minimum written : ℕ) : Prop := written ≤ minimum

lemma permits_withinMinimum : Permits withinMinimum := by
  intro r minimum written hmin hle hwritten
  have hwritten : written ≤ minimum := hwritten
  have hmono := varchunkPad_mono hwritten hmin
  have hpad := le_varchunkPad (show written < 2 ^ 31 by omega)
  exact ⟨by omega, by omega⟩

/-- A faithful queue.  What the consumer has handled is a prefix of what was advanced, and all of it
when the ring is empty.  While it handles a chunk, the bytes of the next chunk are at the
address it got, and it has their number.  A store of the producer meets no chunk that is
unread. -/
structure HandOff (size : ℕ) (permit : Reservation → ℕ → ℕ → Prop) (s : Varchunk) : Prop where
  seen : s.handled <+: s.advanced.map Prod.snd
  drained : s.head = s.tail → s.handled = s.advanced.map Prod.snd
  current : ∀ ptr toread got, s.consumer = .handle ptr toread got →
    ∃ bytes, s.advanced[s.handled.length]? = some (ptr, bytes) ∧ toread = bytes.length ∧
      HoldsAt s.buf ptr bytes
  untouched : ∀ x t, ProducerStep size permit s (some x) t →
    ∀ c ∈ s.unread, ∀ i < c.2.length, x ≠ c.1 + i

namespace RingInv

variable {size k lo : ℕ} {s : Varchunk} {ps : List Piece}

lemma length_handled (h : RingInv size s lo ps) :
    s.handled.length = s.released + s.consumer.done := by
  rw [h.handled, List.length_map, List.length_take, Nat.min_eq_left h.done_le]

lemma drained (h : RingInv size s lo ps) (hempty : s.head = s.tail) :
    s.handled = s.advanced.map Prod.snd := by
  have hhandled := h.handled
  have hroom := h.room
  have hunread := h.unread
  have hps : ps = [] := by
    cases ps with
    | nil => rfl
    | cons p rest =>
        rw [h.head, h.tail] at hempty
        have hpos : 0 < extents (p :: rest) := by
          rw [extents_cons, Piece.extent]
          omega
        exact absurd hempty.symm (mod_ne_mod (by omega) (by omega))
  rw [hps, places, Varchunk.unread, List.drop_eq_nil_iff] at hunread
  rw [hhandled, List.take_of_length_le (by omega)]

lemma current (h : RingInv size s lo ps) {ptr toread : ℕ} {got : List UInt8}
    (hpc : s.consumer = .handle ptr toread got) :
    ∃ bytes, s.advanced[s.handled.length]? = some (ptr, bytes) ∧ toread = bytes.length ∧
      HoldsAt s.buf ptr bytes := by
  have hcons := h.consumer
  have hlen := h.length_handled
  rw [hpc] at hcons hlen
  obtain ⟨rfl, p, hp, hgap, rfl, -⟩ := hcons
  have hnext := h.getElem?_advanced hp
  have hbody := (h.laid_head hp).1.body
  rw [Piece.place, hgap, Nat.add_zero] at hnext
  rw [hgap, Nat.add_zero] at hbody
  refine ⟨p.bytes, ?_, rfl, hbody⟩
  rw [hlen]
  exact hnext

end RingInv

/-- **Hand-off.**  In every state that any interleaving of the two parties comes to, the ring is a
faithful queue. -/
theorem hand_off {k : ℕ} (hk : k ≤ 31) {s : Varchunk}
    (h : (varchunkSystem (2 ^ k) withinMinimum).Reachable s) :
    HandOff (2 ^ k) withinMinimum s := by
  obtain ⟨lo, ps, hinv⟩ := ringInv_of_reachable hk permits_withinMinimum h
  constructor
  · rw [hinv.handled]
    exact (List.take_prefix _ _).map Prod.snd
  · exact hinv.drained
  · intro ptr toread got hpc
    exact hinv.current hpc
  · intro x t hst c hc i hi
    have hsize : 2 ^ k ≤ 2 ^ 31 := Nat.pow_le_pow_right (by norm_num) hk
    obtain ⟨v, hle, hlt, rfl⟩ := hinv.stored hsize permits_withinMinimum hst
    exact hinv.untouched hle hlt hc hi

/-! ## Two chunks -/

/-- A buffer after some stores. -/
def storedIn (buf : ℕ → UInt8) (stores : List (ℕ × UInt8)) : ℕ → UInt8 :=
  stores.foldl (fun buf p => Function.update buf p.1 p.2) buf

/-- The ring when the producer has filled a grant with a chunk and has advanced. -/
def Varchunk.write (size : ℕ) (s : Varchunk) (r : Reservation) (bytes : List UInt8) : Varchunk :=
  let filled := storedIn s.buf (storesAt r.ptr bytes)
  let advancing := bytesAt filled r.ptr bytes.length
  { s with
    buf := storedIn filled (headerStores s.head r.gapd bytes.length)
    head := (s.head + (r.gapd + 8 + varchunkPad bytes.length)) &&& (size - 1)
    producer := .idle
    advancing := advancing
    advanced := s.advanced ++ [(r.ptr, advancing)] }

section Write

variable {size : ℕ} {s : Varchunk} {r : Reservation}

lemma reachable_fill {minimum : ℕ} (hgranted : s.producer = .granted r minimum)
    {bytes : List UInt8} {i : ℕ} (h : (varchunkSystem size withinMinimum).Reachable s)
    (hle : i + bytes.length ≤ minimum) :
    (varchunkSystem size withinMinimum).Reachable
      { s with buf := storedIn s.buf (storesAt (r.ptr + i) bytes) } := by
  induction bytes generalizing s i with
  | nil => exact h
  | cons b bytes ih =>
      rw [List.length_cons] at hle
      have hfill : ProducerStep size withinMinimum s _ _ :=
        .fill s i b hgranted (show i + 1 ≤ minimum by omega)
      exact @ih { s with buf := Function.update s.buf (r.ptr + i) b } hgranted (i + 1)
        (h.step (.inl ⟨_, hfill⟩)) (by omega)

lemma reachable_header {written head : ℕ} {stores : List (ℕ × UInt8)}
    (hproducer : s.producer = .header r written head stores)
    (h : (varchunkSystem size withinMinimum).Reachable s) :
    (varchunkSystem size withinMinimum).Reachable { s with
      buf := storedIn s.buf stores
      producer := .header r written head [] } := by
  induction stores generalizing s with
  | nil =>
      rw [← hproducer]
      exact h
  | cons p stores ih =>
      obtain ⟨x, b⟩ := p
      exact @ih { s with
        buf := Function.update s.buf x b
        producer := .header r written head stores } rfl
        (h.step (.inl ⟨_, .storeHeader s hproducer⟩))

/-- A write as a whole is a run of the producer. -/
lemma reachable_write (h : (varchunkSystem size withinMinimum).Reachable s)
    (hidle : s.producer = .idle) {bytes : List UInt8} (hlt : bytes.length < 2 ^ 31)
    (hreq : varchunkWriteRequestMax size s.head s.tail bytes.length = some r) :
    (varchunkSystem size withinMinimum).Reachable (s.write size r bytes) := by
  have hrequest := h.step (.inl ⟨none, .request s (.inl hidle) hlt⟩)
  have hhead := hrequest.step (.inl ⟨none, .loadHead _ rfl⟩)
  have htail := hhead.step (.inl ⟨none, .loadTail _ rfl⟩)
  dsimp only at htail
  rw [hreq] at htail
  have hfilled := reachable_fill rfl htail (Nat.zero_add bytes.length).le
  have hadvance := hfilled.step (.inl ⟨none, .advance _ bytes.length rfl le_rfl⟩)
  have hloaded := hadvance.step (.inl ⟨none, .loadOwnHead _ rfl⟩)
  have hstored := reachable_header rfl hloaded
  exact hstored.step (.inl ⟨none, .storeHead _ rfl⟩)

lemma reachable_consumer {permit : Reservation → ℕ → ℕ → Prop}
    (h : (varchunkSystem size permit).Reachable s) (n : ℕ) :
    (varchunkSystem size permit).Reachable ((consumerStep size)^[n] s) := by
  induction n with
  | zero => exact h
  | succ n ih =>
      rw [Function.iterate_succ_apply']
      exact ih.step (.inr rfl)

end Write

/-- A ring of 64 bytes, when a chunk of 25 bytes has been written and handled. -/
def firstChunk : Varchunk :=
  (consumerStep 64)^[40] ((Varchunk.new fun _ => 0).write 64 ⟨63, 0, 8⟩ (List.replicate 25 1))

/-- The same, when a chunk of nine bytes has been written behind it, for which there is no room in
front of the end, and has been handled. -/
def secondChunk : Varchunk :=
  (consumerStep 64)^[23] (firstChunk.write 64 ⟨39, 24, 8⟩ (List.replicate 9 2))

lemma reachable_secondChunk : (varchunkSystem (2 ^ 6) withinMinimum).Reachable secondChunk := by
  have hnew : (varchunkSystem (2 ^ 6) withinMinimum).Reachable (.new fun _ => 0) := .init ⟨_, rfl⟩
  have hfirst : (varchunkSystem (2 ^ 6) withinMinimum).Reachable firstChunk :=
    reachable_consumer (reachable_write hnew rfl (by decide) rfl) 40
  have hidle : firstChunk.producer = .idle := rfl
  have hhead : firstChunk.head = 40 := by decide +kernel
  have htail : firstChunk.tail = 40 := by decide +kernel
  refine reachable_consumer (reachable_write hfirst hidle (by decide) ?_) 23
  rw [hhead, htail]
  rfl

/-- The consumer has handled them. -/
theorem hand_off_secondChunk :
    secondChunk.handled = [List.replicate 25 1, List.replicate 9 2] ∧
      HandOff (2 ^ 6) withinMinimum secondChunk :=
  ⟨by decide +kernel, hand_off (by norm_num) reachable_secondChunk⟩

end MonoBus
