import MonoBus.Framework.Bytes

/-!
# Memory that is used in a ring

Positions in a ring grow without bound; position `n` stands for address `n % size`.  Two positions
less than `size` apart stand for different addresses, so what is written behind the occupied
positions does not touch them.  Memory is read and written byte by byte: `HoldsAt` says which
bytes stand at an address, and a reader that has read some of them gets the next one
(`HoldsAt.read`).
-/

namespace MonoBus

/-! ## Positions and addresses -/

lemma and_mask {size k : ℕ} (hsize : size = 2 ^ k) (n : ℕ) : n &&& (size - 1) = n % size := by
  rw [hsize, Nat.and_two_pow_sub_one_eq_mod]

/-- Inside the buffer addresses go up with positions. -/
lemma add_mod_of_lt {size n i : ℕ} (h : n % size + i < size) : (n + i) % size = n % size + i := by
  rw [Nat.add_mod, Nat.mod_eq_of_lt (show i < size by omega), Nat.mod_eq_of_lt h]

/-- At the end of the buffer they start again. -/
lemma add_mod_of_eq {size n i : ℕ} (h : n % size + i = size) : (n + i) % size = 0 := by
  rw [← Nat.mod_add_mod, h, Nat.mod_self]

/-- The address of a position at most `size` further on. -/
lemma add_mod_eq {size n i : ℕ} (hi : i < size) :
    (n + i) % size = if n % size + i < size then n % size + i else n % size + i - size := by
  have hn : n % size < size := Nat.mod_lt _ (by omega)
  split_ifs with h
  · exact add_mod_of_lt h
  · rw [Nat.add_mod, Nat.mod_eq_of_lt hi, Nat.mod_eq_sub_mod (by omega),
      Nat.mod_eq_of_lt (by omega)]

/-- Different positions in one turn of the ring have different addresses. -/
lemma mod_ne_mod {size u v : ℕ} (huv : u < v) (hv : v < u + size) : u % size ≠ v % size := by
  obtain ⟨i, rfl⟩ := Nat.exists_eq_add_of_lt huv
  have hu : u % size < size := Nat.mod_lt _ (by omega)
  rw [Nat.add_assoc, add_mod_eq (by omega)]
  split_ifs <;> omega

/-! ## Bytes at an address -/

/-- The bytes stand at address `a`. -/
def HoldsAt (buf : ℕ → UInt8) (a : ℕ) (bs : List UInt8) : Prop :=
  ∀ i (h : i < bs.length), buf (a + i) = bs[i]

namespace HoldsAt

variable {buf : ℕ → UInt8} {a : ℕ} {bs cs : List UInt8}

lemma append (h : HoldsAt buf a bs) (h' : HoldsAt buf (a + bs.length) cs) :
    HoldsAt buf a (bs ++ cs) := by
  intro i hi
  rw [List.getElem_append]
  split_ifs with hlt
  · exact h i hlt
  · have hcs := h' (i - bs.length) (by rw [List.length_append] at hi; omega)
    rwa [show a + bs.length + (i - bs.length) = a + i by omega] at hcs

lemma left (h : HoldsAt buf a (bs ++ cs)) : HoldsAt buf a bs := by
  intro i hi
  rw [h i (by rw [List.length_append]; omega), List.getElem_append_left]

lemma right (h : HoldsAt buf a (bs ++ cs)) : HoldsAt buf (a + bs.length) cs := by
  intro i hi
  rw [Nat.add_assoc, h (bs.length + i) (by rw [List.length_append]; omega),
    List.getElem_append_right (by omega)]
  simp

/-- A store elsewhere does not matter. -/
lemma update (h : HoldsAt buf a bs) {x : ℕ} (hx : ∀ i < bs.length, x ≠ a + i) (b : UInt8) :
    HoldsAt (Function.update buf x b) a bs := by
  intro i hi
  rw [Function.update_of_ne (hx i hi).symm]
  exact h i hi

/-- Reading one more byte. -/
lemma read (h : HoldsAt buf a bs) {got : List UInt8} (hgot : got <+: bs)
    (hlt : got.length < bs.length) : got ++ [buf (a + got.length)] <+: bs := by
  obtain ⟨rest, rfl⟩ := hgot
  cases rest with
  | nil =>
      rw [List.append_nil] at hlt
      exact absurd hlt (lt_irrefl _)
  | cons b rest =>
      have hb : buf (a + got.length) = b := by
        rw [h got.length hlt, List.getElem_append_right le_rfl]
        simp
      rw [hb]
      exact ⟨rest, by simp⟩

end HoldsAt

/-- The bytes that stand at an address. -/
def bytesAt (buf : ℕ → UInt8) (a n : ℕ) : List UInt8 := (List.range n).map fun i => buf (a + i)

@[simp] lemma length_bytesAt (buf : ℕ → UInt8) (a n : ℕ) : (bytesAt buf a n).length = n := by
  simp [bytesAt]

lemma holdsAt_bytesAt (buf : ℕ → UInt8) (a n : ℕ) : HoldsAt buf a (bytesAt buf a n) := by
  intro i hi
  simp [bytesAt]

/-! ## Stores one by one -/

/-- The stores that put bytes at an address. -/
def storesAt : ℕ → List UInt8 → List (ℕ × UInt8)
  | _, [] => []
  | a, b :: bs => (a, b) :: storesAt (a + 1) bs

lemma mem_storesAt {a x : ℕ} {b : UInt8} {bs : List UInt8} (h : (x, b) ∈ storesAt a bs) :
    a ≤ x ∧ x < a + bs.length := by
  induction bs generalizing a with
  | nil => simp [storesAt] at h
  | cons c bs ih =>
      rw [storesAt, List.mem_cons] at h
      obtain h | h := h
      · obtain ⟨rfl, -⟩ := Prod.mk.inj h
        simp
      · obtain ⟨hle, hlt⟩ := ih h
        rw [List.length_cons]
        omega

lemma nodup_storesAt (a : ℕ) (bs : List UInt8) : ((storesAt a bs).map Prod.fst).Nodup := by
  induction bs generalizing a with
  | nil => simp [storesAt]
  | cons b bs ih =>
      rw [storesAt, List.map_cons, List.nodup_cons]
      refine ⟨fun hmem => ?_, ih (a + 1)⟩
      obtain ⟨⟨x, c⟩, hc, rfl⟩ := List.mem_map.mp hmem
      have hle := (mem_storesAt hc).1
      simp at hle

/-- When all of them have been done, the bytes stand there. -/
lemma holdsAt_of_stores {buf : ℕ → UInt8} {a : ℕ} {bs : List UInt8}
    (h : ∀ p ∈ storesAt a bs, buf p.1 = p.2) : HoldsAt buf a bs := by
  induction bs generalizing a with
  | nil => exact fun i hi => absurd hi (Nat.not_lt_zero i)
  | cons b bs ih =>
      rw [storesAt, List.forall_mem_cons] at h
      have htail := ih h.2
      intro i hi
      cases i with
      | zero => exact h.1
      | succ i =>
          have hi' := htail i (by simpa using hi)
          rwa [Nat.add_assoc, Nat.add_comm 1] at hi'

/-! ## Little-endian numbers -/

/-- The four bytes of a `uint32_t` in memory. -/
def le32 (v : ℕ) : List UInt8 := (beBytes 4 v).reverse

/-- The number that four bytes in memory stand for. -/
def leNat (bs : List UInt8) : ℕ := beNat bs.reverse

@[simp] lemma length_le32 (v : ℕ) : (le32 v).length = 4 := by simp [le32]

lemma leNat_le32 {v : ℕ} (hv : v < 2 ^ 32) : leNat (le32 v) = v := by
  rw [leNat, le32, List.reverse_reverse, beNat_beBytes (by simpa using hv)]

/-- A reader that has got four of its bytes has the number. -/
lemma leNat_eq_of_got {got : List UInt8} {v : ℕ} (hgot : got <+: le32 v) (hlen : ¬ got.length < 4)
    (hv : v < 2 ^ 32) : leNat got = v := by
  rw [hgot.eq_of_length_le (by rw [length_le32]; omega), leNat_le32 hv]

end MonoBus
