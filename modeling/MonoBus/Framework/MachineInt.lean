import Mathlib.Tactic
import Mathlib.Data.Int.Range

/-!
# Fixed-width integers of C

`Int32` and `UInt32` are Lean's own wrapping types.  The lemmas here restate their arithmetic
with `%` on `ℤ` and `ℕ` in the form the linear arithmetic procedure reads.  `checked32` is
signed arithmetic that notices an overflow, and `int32UpTo` is the list of values a loop
`for(int32_t i = lo; i < hi; i++)` takes.
-/

namespace MonoBus

/-! ## Two's complement reduction -/

/-- The value an exact integer has after reduction to 32 signed bits. -/
def wrap32 (z : ℤ) : ℤ := (z + 2 ^ 31) % 2 ^ 32 - 2 ^ 31

lemma bmod_eq_wrap32 (z : ℤ) : z.bmod (2 ^ 32) = wrap32 z := by
  rw [wrap32, Int.bmod_def]
  norm_num
  split <;> omega

lemma wrap32_of_range {z : ℤ} (hlo : -2 ^ 31 ≤ z) (hhi : z < 2 ^ 31) : wrap32 z = z := by
  unfold wrap32
  omega

lemma int32_toInt_bounds (a : Int32) : -2 ^ 31 ≤ a.toInt ∧ a.toInt < 2 ^ 31 :=
  ⟨a.le_toInt, a.toInt_lt⟩

lemma int32_toInt_add (a b : Int32) : (a + b).toInt = wrap32 (a.toInt + b.toInt) := by
  rw [Int32.toInt_add, bmod_eq_wrap32]

lemma int32_toInt_sub (a b : Int32) : (a - b).toInt = wrap32 (a.toInt - b.toInt) := by
  rw [Int32.toInt_sub, bmod_eq_wrap32]

lemma int32_toInt_neg (a : Int32) : (-a).toInt = wrap32 (-a.toInt) := by
  rw [Int32.toInt_neg, bmod_eq_wrap32]

lemma int32_toInt_ofInt (z : ℤ) : (Int32.ofInt z).toInt = wrap32 z := by
  rw [Int32.toInt_ofInt, ← bmod_eq_wrap32]
  rfl

lemma int32_one_pos : 0 < (1 : Int32).toInt := by decide

lemma int32_add_sub_self (a b : Int32) : a + b - a = b := by
  rw [Int32.add_comm, Int32.add_sub_cancel]

lemma int32_add_sub_other (a b : Int32) : a + (b - a) = b := by
  rw [Int32.add_comm, Int32.sub_add_cancel]

/-- Conversion to the unsigned type reduces modulo `2 ^ 32`. -/
lemma int32_toNat_toUInt32 (a : Int32) : (a.toUInt32.toNat : ℤ) = a.toInt % 2 ^ 32 := by
  have hnat : a.toInt = (a.toBitVec.toNat : ℤ).bmod (2 ^ 32) := BitVec.toInt_eq_toNat_bmod _
  have hlt : a.toUInt32.toNat < 2 ^ 32 := a.toUInt32.toNat_lt
  rw [Int32.toNat_toBitVec, bmod_eq_wrap32, wrap32] at hnat
  omega

lemma uint32_toNat_sub (a b : UInt32) :
    ((a - b).toNat : ℤ) = ((a.toNat : ℤ) - b.toNat) % 2 ^ 32 := by
  have ha := a.toNat_lt
  have hb := b.toNat_lt
  rw [UInt32.toNat_sub]
  omega

/-- The mask of 32 bits that clears the three lowest. -/
lemma and_mask_eight {n : ℕ} (h : n < 2 ^ 32) : n &&& 0xfffffff8 = n / 8 * 8 := by
  have hmask : 0xfffffff8 = 2 ^ 3 * (2 ^ 29 - 1) := by norm_num
  have hquot : (n &&& 2 ^ 3 * (2 ^ 29 - 1)) / 2 ^ 3 = n / 8 := by
    rw [Nat.and_div_two_pow, Nat.mul_div_cancel_left _ (by norm_num),
      Nat.and_two_pow_sub_one_eq_mod]
    omega
  have hrem : (n &&& 2 ^ 3 * (2 ^ 29 - 1)) % 2 ^ 3 = 0 := by
    rw [Nat.and_mod_two_pow, Nat.mul_mod_right, Nat.and_zero]
  rw [hmask]
  omega

/-! ## Checked arithmetic -/

/-- The result of a signed operation with the exact value `z`, which overflows where `z` is not
an `int32_t`. -/
def checked32 (z : ℤ) : Option Int32 :=
  if -2 ^ 31 ≤ z ∧ z < 2 ^ 31 then some (Int32.ofInt z) else none

lemma checked32_eq_some {z : ℤ} {a : Int32} : checked32 z = some a ↔ a.toInt = z := by
  unfold checked32
  constructor
  · intro h
    split_ifs at h with hz
    rw [← Option.some.inj h, int32_toInt_ofInt, wrap32_of_range hz.1 hz.2]
  · rintro rfl
    rw [if_pos (int32_toInt_bounds a), Int32.ofInt_toInt]

lemma checked32_eq_none {z : ℤ} : checked32 z = none ↔ z < -2 ^ 31 ∨ 2 ^ 31 ≤ z := by
  unfold checked32
  split_ifs with hz
  · refine iff_of_false nofun ?_
    omega
  · refine iff_of_true rfl ?_
    omega

/-! ## Loop ranges -/

/-- The values of `i` in `for(int32_t i = lo; i < hi; i++)`. -/
def int32UpTo (lo hi : Int32) : List Int32 :=
  (Int.range lo.toInt hi.toInt).map Int32.ofInt

variable {lo hi i : Int32}

lemma mem_int32UpTo : i ∈ int32UpTo lo hi ↔ lo.toInt ≤ i.toInt ∧ i.toInt < hi.toInt := by
  simp only [int32UpTo, List.mem_map, Int.mem_range_iff]
  constructor
  · rintro ⟨z, ⟨hlo, hhi⟩, rfl⟩
    have hl := int32_toInt_bounds lo
    have hh := int32_toInt_bounds hi
    rw [int32_toInt_ofInt, wrap32_of_range (by omega) (by omega)]
    exact ⟨hlo, hhi⟩
  · exact fun h => ⟨i.toInt, h, Int32.ofInt_toInt i⟩

lemma nodup_int32UpTo (lo hi : Int32) : (int32UpTo lo hi).Nodup := by
  have hrange : (Int.range lo.toInt hi.toInt).Nodup :=
    List.nodup_range.map (fun a b h => by simpa using h)
  refine List.Nodup.map_on ?_ hrange
  intro z hz w hw heq
  have hl := int32_toInt_bounds lo
  have hh := int32_toInt_bounds hi
  rw [Int.mem_range_iff] at hz hw
  have htoInt := congrArg Int32.toInt heq
  rw [int32_toInt_ofInt, int32_toInt_ofInt, wrap32_of_range (by omega) (by omega),
    wrap32_of_range (by omega) (by omega)] at htoInt
  exact htoInt

end MonoBus
