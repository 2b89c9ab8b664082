import MonoBus.Construction.RingInvariant

/-!
# The capacity a request reports

`varchunk_write_request_max` reports in `*maximum` all of the free space it has found.  The header
of the element takes eight bytes of it, and the size is rounded up to a multiple of eight: a write
is safe exactly if both fit (`capacity_iff`), which a write of the full `*maximum` never does.
-/

namespace MonoBus

/-- The free space in which a request for `minimum` bytes places its element: all of it, if it does
not cross the end of the buffer; else what is in front of the end, if it is enough; else what is
behind it. -/
def room (size head tail minimum : ℕ) : ℕ :=
  let free := ringDistance size head tail - 1
  let toEnd := size - head
  if free ≤ toEnd then free
  else if 16 + varchunkPad minimum ≤ toEnd then toEnd
  else free - toEnd

def headBehind (size head : ℕ) (r : Reservation) (written : ℕ) : ℕ :=
  (head + (r.gapd + 8 + varchunkPad written)) &&& (size - 1)

/-- The capacity exists: the bytes written are in the buffer and meet no unread chunk, and the new
head comes before `tail`, so the ring is not reported empty and the new chunk is not part of the
free space. -/
structure Delivers (size : ℕ) (s : Varchunk) (r : Reservation) (written : ℕ) : Prop where
  inside : r.ptr + written ≤ size
  disjoint : ∀ c ∈ s.unread, ∀ i < written, ∀ j < c.2.length, r.ptr + i ≠ c.1 + j
  before : r.gapd + 8 + varchunkPad written < ringDistance size s.head s.tail
  readable : 0 < readableSpace size (headBehind size s.head r written) s.tail
  free : writableSpace size (headBehind size s.head r written) s.tail +
    (r.gapd + 8 + varchunkPad written) = writableSpace size s.head s.tail

/-- Sizes that fit behind their header. -/
def fitting (r : Reservation) (_ written : ℕ) : Prop := r.Holds written

lemma permits_fitting : Permits fitting := fun _ _ _ _ _ h => h

lemma rsvd_eq_room {size k head tail minimum : ℕ} {r : Reservation} (hsize : size = 2 ^ k)
    (hhead : head < size) (htail : tail < size)
    (h : varchunkWriteRequestMax size head tail minimum = some r) :
    r.rsvd = room size head tail minimum := by
  obtain ⟨-, ⟨hspace, rfl⟩ | ⟨hspace, hfirst, rfl⟩ | ⟨hspace, hfirst, rfl⟩⟩ :=
    request_cases hsize hhead htail h
  · simp only [room, if_pos hspace]
  · simp only [room, if_neg (not_le.mpr hspace), if_pos hfirst]
  · simp only [room, if_neg (not_le.mpr hspace), if_neg (not_le.mpr hfirst)]

/-- A write that is safe fits: what is granted ends in front of `tail` or at the end of the
buffer. -/
lemma Delivers.fits {size k minimum written : ℕ} {s : Varchunk} {r : Reservation}
    (hsize : size = 2 ^ k) (hhead : s.head < size) (htail : s.tail < size) (halign : 8 ∣ s.head)
    (h : varchunkWriteRequestMax size s.head s.tail minimum = some r) (hwritten : written < 2 ^ 31)
    (hdelivers : Delivers size s r written) : 8 + varchunkPad written ≤ r.rsvd := by
  have hbefore := hdelivers.before
  have hinside := hdelivers.inside
  obtain ⟨hmin, ⟨hspace, rfl⟩ | ⟨hspace, hfirst, rfl⟩ | ⟨hspace, hfirst, rfl⟩⟩ :=
    request_cases hsize hhead htail h
  · simp only at hbefore ⊢
    omega
  · have h8 : 8 ∣ size := hsize ▸ dvd_two_pow_of_le (by omega)
    rw [varchunkPad_eq hwritten]
    simp only at hinside ⊢
    omega
  · simp only at hbefore ⊢
    omega

lemma RingInv.delivers {size k lo : ℕ} {s : Varchunk} {ps : List Piece}
    (h : RingInv size s lo ps) (hsize : size = 2 ^ k) (hk : size ≤ 2 ^ 31) {minimum written : ℕ}
    {r : Reservation} (hgranted : Granted size lo (lo + extents ps) r minimum)
    (hholds : r.Holds written) : Delivers size s r written := by
  obtain ⟨hrsvd, hpad⟩ := hholds
  have hroom := hgranted.room
  have hfits := hgranted.fits
  have hle := le_varchunkPad (show written < 2 ^ 31 by omega)
  have hbehind : headBehind size s.head r written =
      (lo + extents ps + (r.gapd + 8 + varchunkPad written)) % size := by
    rw [headBehind, and_mask hsize, h.head, Nat.mod_add_mod]
  constructor
  · rw [hgranted.ptr]
    omega
  · intro c hc i hi j hj
    rw [hgranted.ptr, Nat.add_assoc, ← add_mod_of_lt (by omega)]
    exact h.untouched (by omega) (by omega) hc hj
  · rw [h.head, h.tail, ringDistance_eq (by omega) (by omega)]
    omega
  · rw [hbehind, h.tail, readableSpace_eq hsize (by omega) (by omega)]
    omega
  · rw [hbehind, h.head, h.tail, writableSpace_eq hsize (Nat.mod_lt _ (by omega)),
      writableSpace_eq hsize (Nat.mod_lt _ (by omega)), ringDistance_eq (by omega) (by omega),
      ringDistance_eq (by omega) (by omega)]
    omega

/-- **Capacity.**  In every state that is reached by writes that fit, a request that is granted
delivers what it reports for a size, if and only if the header and the padded size fit into the
room in which it places the element. -/
theorem capacity_iff {k : ℕ} (hk : k ≤ 31) {s : Varchunk}
    (h : (varchunkSystem (2 ^ k) fitting).Reachable s) {minimum : ℕ} {r : Reservation}
    (hreq : varchunkWriteRequestMax (2 ^ k) s.head s.tail minimum = some r) {written : ℕ}
    (hwritten : written ≤ r.rsvd) :
    Delivers (2 ^ k) s r written ↔
      8 + varchunkPad written ≤ room (2 ^ k) s.head s.tail minimum := by
  have hsize : 2 ^ k ≤ 2 ^ 31 := Nat.pow_le_pow_right (by norm_num) hk
  obtain ⟨lo, ps, hinv⟩ := ringInv_of_reachable hk permits_fitting h
  have hroom := hinv.room
  have halign := hinv.aligned.add hinv.laid.dvd_extents
  have hhead : s.head < 2 ^ k := hinv.head ▸ Nat.mod_lt _ (Nat.two_pow_pos k)
  have htail : s.tail < 2 ^ k := hinv.tail ▸ Nat.mod_lt _ (Nat.two_pow_pos k)
  have hgranted : Granted (2 ^ k) lo (lo + extents ps) r minimum := by
    rw [hinv.head, hinv.tail] at hreq
    exact granted_of_request rfl (by omega) (by omega) halign hreq
  rw [← rsvd_eq_room rfl hhead htail hreq]
  constructor
  · have hfree := hgranted.room
    have hmin := hgranted.minimum_le
    have h8 : 8 ∣ 2 ^ k := dvd_two_pow_of_le (by omega)
    have hhead8 : 8 ∣ s.head := hinv.head ▸ (Nat.dvd_mod_iff h8).mpr halign
    intro hdelivers
    exact hdelivers.fits rfl hhead htail hhead8 hreq (by omega)
  · intro hfits
    exact hinv.delivers rfl hsize hgranted ⟨hwritten, hfits⟩

/-! ## The ring of the daemon -/

lemma reachable_new {size : ℕ} {permit : Reservation → ℕ → ℕ → Prop} (buf : ℕ → UInt8) :
    (varchunkSystem size permit).Reachable (.new buf) := .init ⟨buf, rfl⟩

/-- In the empty ring of 8192 bytes 8176 is the largest size that is safe. -/
theorem capacity_iff_empty :
    Delivers (2 ^ 13) (.new fun _ => 0) { rsvd := 8191, gapd := 0, ptr := 8 } 8176 := by
  have hreq : varchunkWriteRequestMax (2 ^ 13) 0 0 1024 =
      some { rsvd := 8191, gapd := 0, ptr := 8 } := rfl
  exact (capacity_iff (by norm_num) (reachable_new _) hreq (by norm_num)).mpr (by decide)

/-- There `lv2_osc_stream_run` requests 1024 bytes and gets `*maximum = 8191` at index 8: a datagram
of 8191 bytes is received behind the end of the buffer. -/
theorem capacity_counterexample :
    ¬ ∀ s, (varchunkSystem (2 ^ 13) fun r _ written => written ≤ r.rsvd).Reachable s →
      ∀ minimum < 2 ^ 31, ∀ r, varchunkWriteRequestMax (2 ^ 13) s.head s.tail minimum = some r →
        ∀ written ≤ r.rsvd, Delivers (2 ^ 13) s r written := by
  intro h
  have hdelivers := h (.new fun _ => 0) (reachable_new _) 1024 (by norm_num) _ rfl 8191 le_rfl
  exact absurd hdelivers.inside (by decide)

end MonoBus
