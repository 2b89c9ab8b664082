import MonoBus.Framework.Scatter

/-!
# Bits packed in bytes

A sequence of bits is packed eight to a byte, most significant bit first, with zeros behind the
last.  `packedBit` reads one bit back.
-/

namespace MonoBus

/-- The byte with the bits `f 0` to `f 7`, most significant first. -/
def packByte (f : ℕ → Bool) : UInt8 :=
  scatter (fun _ => ()) (fun j => 7 - j) f (List.range 8) (fun _ => 0) ()

/-- The first `n` of the bits, in as many bytes as it takes. -/
def packBits (bits : ℕ → Bool) (n : ℕ) : List UInt8 :=
  (List.range ((n + 7) / 8)).map fun i =>
    packByte fun j => decide (8 * i + j < n) && bits (8 * i + j)

/-- Bit `p` of a list of bytes, which is zero behind the last byte. -/
def packedBit (bytes : List UInt8) (p : ℕ) : Bool := byteBit (bytes.getD (p / 8) 0) (7 - p % 8)

lemma byteBit_packByte (f : ℕ → Bool) {j : ℕ} (hj : j < 8) :
    byteBit (packByte f) (7 - j) = f j := by
  rw [Bool.eq_iff_iff, packByte, testBit_scatter f (fun k hk => by omega)]
  simp only [byteBit_zero, Bool.false_eq_true, false_or, List.mem_range, true_and]
  constructor
  · rintro ⟨k, hk, hf, hkj⟩
    obtain rfl : k = j := by omega
    exact hf
  · exact fun hf => ⟨j, hj, hf, rfl⟩

@[simp] lemma length_packBits (bits : ℕ → Bool) (n : ℕ) :
    (packBits bits n).length = (n + 7) / 8 := by simp [packBits]

/-- Reading a packed bit back. -/
theorem packedBit_packBits (bits : ℕ → Bool) (n p : ℕ) :
    packedBit (packBits bits n) p = (decide (p < n) && bits p) := by
  have hp : 8 * (p / 8) + p % 8 = p := Nat.div_add_mod p 8
  rw [packedBit]
  by_cases hbyte : p / 8 < (n + 7) / 8
  · rw [List.getD_eq_getElem _ _ (by simpa using hbyte)]
    simp only [packBits, List.getElem_map, List.getElem_range]
    rw [byteBit_packByte _ (Nat.mod_lt p (by norm_num)), hp]
  · rw [List.getD_eq_default _ _ (by simpa using hbyte), byteBit_zero,
      decide_eq_false (by omega), Bool.false_and]

/-- Zero bytes at the end change no bit. -/
lemma packedBit_append_zeros (bytes : List UInt8) (n p : ℕ) :
    packedBit (bytes ++ List.replicate n 0) p = packedBit bytes p := by
  have hbyte : (bytes ++ List.replicate n 0).getD (p / 8) 0 = bytes.getD (p / 8) 0 := by
    by_cases hp : p / 8 < bytes.length
    · rw [List.getD_append _ _ _ _ hp]
    · rw [List.getD_append_right _ _ _ _ (by omega), List.getD_eq_default bytes 0 (by omega),
        List.getD_eq_getElem?_getD, List.getElem?_replicate]
      split_ifs <;> rfl
  rw [packedBit, hbyte, packedBit]

end MonoBus
