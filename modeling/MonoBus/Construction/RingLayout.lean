import MonoBus.Construction.Varchunk

/-!
# The layout of the ring

The unread part of the ring lies between the positions `lo` and `hi` that `tail` and `head` stand
for.  It is a sequence of pieces: a chunk with its header, and in front of it the gap element if
the chunk did not fit before the end of the buffer.  What `varchunk_write_request_max` grants lies
behind `hi` and in front of the next turn of `lo` (`granted_of_request`).
-/

namespace MonoBus

/-! ## Padding and distances -/

lemma varchunkPad_eq {n : ℕ} (h : n < 2 ^ 31) : varchunkPad n = (n + 7) / 8 * 8 :=
  and_mask_eight (by omega)

lemma dvd_varchunkPad {n : ℕ} (h : n < 2 ^ 31) : 8 ∣ varchunkPad n :=
  ⟨(n + 7) / 8, by rw [varchunkPad_eq h, Nat.mul_comm]⟩

lemma le_varchunkPad {n : ℕ} (h : n < 2 ^ 31) : n ≤ varchunkPad n := by
  rw [varchunkPad_eq h]
  omega

lemma varchunkPad_mono {m n : ℕ} (hmn : m ≤ n) (hn : n < 2 ^ 31) :
    varchunkPad m ≤ varchunkPad n := by
  rw [varchunkPad_eq hn, varchunkPad_eq (by omega)]
  omega

section Distances

variable {size k lo hi : ℕ}

/-- The readable buffer reaches from `tail` to `head`. -/
lemma readableSpace_eq (hsize : size = 2 ^ k) (hle : lo ≤ hi) (hlt : hi < lo + size) :
    readableSpace size (hi % size) (lo % size) = hi - lo := by
  obtain ⟨d, rfl⟩ := Nat.exists_eq_add_of_le hle
  have hlo : lo % size < size := Nat.mod_lt _ (by omega)
  rw [readableSpace, and_mask hsize, add_mod_eq (by omega)]
  split_ifs with hwrap hcmp hcmp
  · omega
  · obtain rfl : d = 0 := by omega
    rw [Nat.add_zero, Nat.add_sub_cancel_left, Nat.mod_self]
    omega
  · omega
  · rw [Nat.mod_eq_of_lt (by omega)]
    omega

/-- How far `tail` is in front of `head`; the whole ring if they are equal. -/
def ringDistance (size head tail : ℕ) : ℕ :=
  if head < tail then tail - head else tail + size - head

lemma ringDistance_eq (hle : lo ≤ hi) (hlt : hi < lo + size) :
    ringDistance size (hi % size) (lo % size) = lo + size - hi := by
  obtain ⟨d, rfl⟩ := Nat.exists_eq_add_of_le hle
  have hlo : lo % size < size := Nat.mod_lt _ (by omega)
  rw [ringDistance, add_mod_eq (by omega)]
  split_ifs <;> omega

/-- The writable buffer reaches from `head` to the byte in front of `tail`. -/
lemma writableSpace_eq {head tail : ℕ} (hsize : size = 2 ^ k) (hhead : head < size) :
    writableSpace size head tail = ringDistance size head tail - 1 := by
  rw [writableSpace, ringDistance, and_mask hsize]
  split_ifs
  · omega
  · rw [Nat.mod_eq_of_lt (by omega)]
  · omega
  · omega

end Distances

/-! ## Grants -/

/-- What a grant promises: behind `hi`, and behind the gap if there is one, `rsvd` bytes that
neither reach the end of the buffer nor the next turn of `lo`. -/
structure Granted (size lo hi : ℕ) (r : Reservation) (minimum : ℕ) : Prop where
  aligned : 8 ∣ r.gapd
  gap : r.gapd = 0 ∨ hi % size + r.gapd = size
  ptr : r.ptr = (hi + r.gapd) % size + 8
  fits : (hi + r.gapd) % size + r.rsvd ≤ size
  room : hi + r.gapd + r.rsvd < lo + size
  minimum_le : 16 + varchunkPad minimum ≤ r.rsvd

lemma dvd_two_pow_of_le {k : ℕ} (h : 16 ≤ 2 ^ k) : 8 ∣ 2 ^ k := by
  have hk : 3 ≤ k := by
    by_contra hlt
    have hle := Nat.pow_le_pow_right (show 0 < 2 by norm_num) (show k ≤ 3 by omega)
    omega
  exact Nat.pow_dvd_pow 2 hk

/-- The three layouts in which a request is granted: the free space does not cross the end of the
buffer, or what is in front of the end is enough, or it becomes a gap. -/
lemma request_cases {size k head tail minimum : ℕ} {r : Reservation} (hsize : size = 2 ^ k)
    (hhead : head < size) (htail : tail < size)
    (h : varchunkWriteRequestMax size head tail minimum = some r) :
    16 + varchunkPad minimum ≤ r.rsvd ∧
      (ringDistance size head tail - 1 ≤ size - head ∧
          r = { rsvd := ringDistance size head tail - 1, gapd := 0, ptr := head + 8 } ∨
        size - head < ringDistance size head tail - 1 ∧ 16 + varchunkPad minimum ≤ size - head ∧
          r = { rsvd := size - head, gapd := 0, ptr := head + 8 } ∨
        size - head < ringDistance size head tail - 1 ∧ size - head < 16 + varchunkPad minimum ∧
          r = { rsvd := ringDistance size head tail - 1 - (size - head), gapd := size - head,
                ptr := 8 }) := by
  have hdist : ringDistance size head tail ≤ size := by
    rw [ringDistance]
    split_ifs <;> omega
  rw [varchunkWriteRequestMax, writableSpace_eq hsize hhead, and_mask hsize] at h
  simp only at h
  split_ifs at h with hwrap hfirst hsecond hspace
  · have hmod : (head + (ringDistance size head tail - 1)) % size =
        ringDistance size head tail - 1 - (size - head) := by
      rw [Nat.mod_eq_sub_mod (by omega), Nat.mod_eq_of_lt (by omega)]
      omega
    rw [hmod] at h hsecond
    obtain rfl := Option.some.inj h
    exact ⟨by simp only; omega, .inr (.inr ⟨by omega, hfirst, rfl⟩)⟩
  · obtain rfl := Option.some.inj h
    exact ⟨by simp only; omega, .inr (.inl ⟨by omega, by omega, rfl⟩)⟩
  · obtain rfl := Option.some.inj h
    exact ⟨by simp only; omega, .inl ⟨by omega, rfl⟩⟩

/-- **Requests.**  What is granted is free. -/
lemma granted_of_request {size k lo hi minimum : ℕ} {r : Reservation} (hsize : size = 2 ^ k)
    (hle : lo ≤ hi) (hlt : hi < lo + size) (halign : 8 ∣ hi)
    (h : varchunkWriteRequestMax size (hi % size) (lo % size) minimum = some r) :
    Granted size lo hi r minimum := by
  have hhi : hi % size < size := Nat.mod_lt _ (by omega)
  obtain ⟨hmin, hcases⟩ := request_cases hsize hhi (Nat.mod_lt _ (by omega)) h
  rw [ringDistance_eq hle hlt] at hcases
  obtain ⟨hspace, rfl⟩ | ⟨hspace, hfirst, rfl⟩ | ⟨hspace, hfirst, rfl⟩ := hcases
  · exact ⟨dvd_zero 8, .inl rfl, rfl, by simp only [Nat.add_zero]; omega,
      by simp only; omega, hmin⟩
  · exact ⟨dvd_zero 8, .inl rfl, rfl, by simp only [Nat.add_zero]; omega,
      by simp only; omega, hmin⟩
  · have hmin' : 16 ≤ lo + size - hi - 1 - (size - hi % size) := (Nat.le_add_right _ _).trans hmin
    have h8 : 8 ∣ size := hsize ▸ dvd_two_pow_of_le (by omega)
    have hmod : 8 ∣ hi % size := (Nat.dvd_mod_iff h8).mpr halign
    have hzero : (hi + (size - hi % size)) % size = 0 := add_mod_of_eq (by omega)
    exact ⟨Nat.dvd_sub h8 hmod, .inr (by simp only; omega), by simp only [hzero],
      by simp only [hzero]; omega, by simp only; omega, hmin⟩

/-- A grant stays good when the consumer releases something. -/
lemma Granted.mono {size lo lo' hi minimum : ℕ} {r : Reservation}
    (h : Granted size lo hi r minimum) (hle : lo ≤ lo') : Granted size lo' hi r minimum :=
  { h with room := h.room.trans_le (by omega) }

/-! ## Pieces -/

/-- A chunk in the ring, and the size of the gap element in front of it. -/
structure Piece where
  gap : ℕ
  bytes : List UInt8

namespace Piece

/-- What it takes up. -/
def extent (p : Piece) : ℕ := p.gap + 8 + varchunkPad p.bytes.length

/-- The chunk of a piece at position `n`, with its place in the buffer. -/
def place (size n : ℕ) (p : Piece) : ℕ × List UInt8 := ((n + p.gap) % size + 8, p.bytes)

/-- A piece stands at position `n`.  The gap element ends with the buffer, and of its header only
the second field matters; header and bytes of the chunk do not cross the end. -/
structure LaidAt (size : ℕ) (buf : ℕ → UInt8) (n : ℕ) (p : Piece) : Prop where
  aligned : 8 ∣ p.gap
  gap : p.gap = 0 ∨ n % size + p.gap = size ∧ HoldsAt buf (n % size + 4) (le32 1)
  fits : (n + p.gap) % size + 8 + varchunkPad p.bytes.length ≤ size
  short : p.bytes.length < 2 ^ 31
  header : HoldsAt buf ((n + p.gap) % size) (elmntBytes p.bytes.length 0)
  body : HoldsAt buf ((n + p.gap) % size + 8) p.bytes

/-- The second field of the header that the consumer finds at `tail`. -/
def flag (p : Piece) : ℕ := if p.gap = 0 then 0 else 1

lemma flag_lt (p : Piece) : p.flag < 2 ^ 32 := by
  rw [flag]
  split_ifs <;> norm_num

variable {size n : ℕ} {buf : ℕ → UInt8} {p : Piece}

lemma dvd_extent (h : p.LaidAt size buf n) : 8 ∣ p.extent :=
  ((h.aligned.add (dvd_refl 8))).add (dvd_varchunkPad h.short)

lemma LaidAt.flagAt (h : p.LaidAt size buf n) :
    HoldsAt buf (n % size + 4) (le32 p.flag) := by
  rw [flag]
  split_ifs with hgap
  · have hheader := h.header
    rw [hgap, Nat.add_zero] at hheader
    have hright := hheader.right
    rwa [length_le32] at hright
  · exact (h.gap.resolve_left hgap).2

/-- Without a gap the header is at `tail`. -/
lemma LaidAt.sizeAt (h : p.LaidAt size buf n) (hgap : p.gap = 0) :
    HoldsAt buf (n % size) (le32 p.bytes.length) := by
  have hheader := h.header
  rw [hgap, Nat.add_zero] at hheader
  exact hheader.left

lemma LaidAt.skip (h : p.LaidAt size buf n) :
    Piece.LaidAt size buf (n + p.gap) { p with gap := 0 } where
  aligned := dvd_zero 8
  gap := .inl rfl
  fits := h.fits
  short := h.short
  header := h.header
  body := h.body

/-- The bytes of the chunk have positions of the piece. -/
lemma LaidAt.position (h : p.LaidAt size buf n) {i : ℕ} (hi : i < p.bytes.length) :
    ∃ v, n ≤ v ∧ v < n + p.extent ∧ (p.place size n).1 + i = v % size := by
  have hpad := le_varchunkPad h.short
  have hfits := h.fits
  refine ⟨n + p.gap + (8 + i), by omega, by rw [extent]; omega, ?_⟩
  rw [add_mod_of_lt (by omega), place]
  omega

lemma LaidAt.update (h : p.LaidAt size buf n) {x : ℕ}
    (hx : ∀ v, n ≤ v → v < n + p.extent → x ≠ v % size) (b : UInt8) :
    p.LaidAt size (Function.update buf x b) n where
  aligned := h.aligned
  gap := by
    have hfits := h.fits
    refine h.gap.imp_right fun ⟨hend, hflag⟩ => ⟨hend, hflag.update (fun i hi => ?_) b⟩
    rw [length_le32] at hi
    have hpos : n % size < size := Nat.mod_lt _ (by omega)
    have hgap : 8 ≤ p.gap := Nat.le_of_dvd (by omega) h.aligned
    rw [Nat.add_assoc, ← add_mod_of_lt (show n % size + (4 + i) < size by omega)]
    exact hx _ (by omega) (by rw [extent]; omega)
  fits := h.fits
  short := h.short
  header := by
    have hfits := h.fits
    refine h.header.update (fun i hi => ?_) b
    rw [elmntBytes, List.length_append, length_le32, length_le32] at hi
    rw [← add_mod_of_lt (by omega)]
    exact hx _ (by omega) (by rw [extent]; omega)
  body := by
    refine h.body.update (fun i hi => ?_) b
    obtain ⟨v, hle, hlt, hv⟩ := h.position hi
    rw [place] at hv
    rw [hv]
    exact hx v hle hlt

end Piece

/-! ## The unread part -/

/-- What the pieces take up. -/
def extents (ps : List Piece) : ℕ := (ps.map Piece.extent).sum

@[simp] lemma extents_nil : extents [] = 0 := rfl

@[simp] lemma extents_cons (p : Piece) (ps : List Piece) :
    extents (p :: ps) = p.extent + extents ps := by
  simp [extents]

@[simp] lemma extents_append (ps qs : List Piece) :
    extents (ps ++ qs) = extents ps + extents qs := by
  simp [extents]

/-- The chunks of pieces that follow one another from position `n` on. -/
def places (size : ℕ) : ℕ → List Piece → List (ℕ × List UInt8)
  | _, [] => []
  | n, p :: ps => p.place size n :: places size (n + p.extent) ps

lemma places_concat (size n : ℕ) (ps : List Piece) (p : Piece) :
    places size n (ps ++ [p]) = places size n ps ++ [p.place size (n + extents ps)] := by
  induction ps generalizing n with
  | nil => rfl
  | cons q ps ih => simp [places, ih, Nat.add_assoc]

/-- The pieces stand one after the other from position `n` on. -/
def Laid (size : ℕ) (buf : ℕ → UInt8) : ℕ → List Piece → Prop
  | _, [] => True
  | n, p :: ps => p.LaidAt size buf n ∧ Laid size buf (n + p.extent) ps

namespace Laid

variable {size n : ℕ} {buf : ℕ → UInt8} {ps : List Piece}

lemma concat (h : Laid size buf n ps) {p : Piece} (hp : p.LaidAt size buf (n + extents ps)) :
    Laid size buf n (ps ++ [p]) := by
  induction ps generalizing n with
  | nil => exact ⟨hp, trivial⟩
  | cons q ps ih =>
      refine ⟨h.1, ih h.2 ?_⟩
      rwa [Nat.add_assoc, ← extents_cons]

lemma update (h : Laid size buf n ps) {x : ℕ}
    (hx : ∀ v, n ≤ v → v < n + extents ps → x ≠ v % size) (b : UInt8) :
    Laid size (Function.update buf x b) n ps := by
  induction ps generalizing n with
  | nil => trivial
  | cons p ps ih =>
      rw [extents_cons] at hx
      refine ⟨h.1.update (fun v hle hlt => hx v hle (by omega)) b, ih h.2 fun v hle hlt => ?_⟩
      exact hx v (by omega) (by omega)

lemma dvd_extents (h : Laid size buf n ps) : 8 ∣ extents ps := by
  induction ps generalizing n with
  | nil => exact dvd_zero 8
  | cons p ps ih =>
      rw [extents_cons]
      exact (Piece.dvd_extent h.1).add (ih h.2)

/-- The bytes of all chunks have positions of the unread part. -/
lemma position (h : Laid size buf n ps) {c : ℕ × List UInt8} (hc : c ∈ places size n ps) {i : ℕ}
    (hi : i < c.2.length) : ∃ v, n ≤ v ∧ v < n + extents ps ∧ c.1 + i = v % size := by
  induction ps generalizing n with
  | nil => cases hc
  | cons p ps ih =>
      rw [extents_cons]
      rw [places, List.mem_cons] at hc
      obtain rfl | hc := hc
      · obtain ⟨v, hle, hlt, hv⟩ := h.1.position hi
        exact ⟨v, hle, by omega, hv⟩
      · obtain ⟨v, hle, hlt, hv⟩ := ih h.2 hc
        exact ⟨v, by omega, by omega, hv⟩

end Laid

end MonoBus
