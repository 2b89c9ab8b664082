import Mathlib.Tactic
import Mathlib.Data.Nat.Bitwise

/-!
# Bits gathered in bytes

A loop that sets one bit of an array of bytes for each key that passes a test.  Many keys may
share a byte, so the order of the bits in a byte is not that of the loop; but bits are only ever
added, and each ends up set exactly if some key asks for it (`testBit_scatter`).
-/

namespace MonoBus

universe u

variable {κ ι : Type u}

/-- Bit `b` of a byte. -/
def byteBit (byte : UInt8) (b : ℕ) : Bool := byte.toNat.testBit b

lemma byteBit_or (a b : UInt8) (i : ℕ) : byteBit (a ||| b) i = (byteBit a i || byteBit b i) := by
  rw [byteBit, UInt8.toNat_or, Nat.testBit_or, byteBit, byteBit]

@[simp] lemma byteBit_zero (i : ℕ) : byteBit 0 i = false := Nat.zero_testBit i

/-- The mask of one bit. -/
lemma byteBit_one_shiftLeft {b : ℕ} (hb : b < 8) (i : ℕ) :
    byteBit (1 <<< UInt8.ofNat b) i = decide (b = i) := by
  have hmask : (1 <<< UInt8.ofNat b : UInt8).toNat = 2 ^ b := by
    interval_cases b <;> rfl
  rw [byteBit, hmask, Nat.testBit_two_pow]

/-- A byte is determined by its bits. -/
lemma eq_of_byteBit {a b : UInt8} (h : ∀ i < 8, byteBit a i = byteBit b i) : a = b := by
  apply UInt8.toNat_inj.mp
  apply Nat.eq_of_testBit_eq
  intro i
  by_cases hi : i < 8
  · exact h i hi
  · have hpow : 2 ^ 8 ≤ 2 ^ i := Nat.pow_le_pow_right (by norm_num) (by omega)
    rw [Nat.testBit_lt_two_pow (a.toNat_lt.trans_le hpow),
      Nat.testBit_lt_two_pow (b.toNat_lt.trans_le hpow)]

variable [DecidableEq ι]

/-- Set bit `bit k` of the byte at `cell k`, for each key that passes the test. -/
def scatter (cell : κ → ι) (bit : κ → ℕ) (test : κ → Bool) (ks : List κ) (s : ι → UInt8) :
    ι → UInt8 :=
  ks.foldl (fun s k =>
    if test k then Function.update s (cell k) (s (cell k) ||| 1 <<< UInt8.ofNat (bit k))
    else s) s

/-- Afterwards a bit is set if it was before, or if a key that passes the test stands for it. -/
theorem testBit_scatter {cell : κ → ι} {bit : κ → ℕ} (test : κ → Bool) {ks : List κ}
    (hbit : ∀ k ∈ ks, bit k < 8) (s : ι → UInt8) (i : ι) (b : ℕ) :
    byteBit (scatter cell bit test ks s i) b = true ↔
      byteBit (s i) b = true ∨ ∃ k ∈ ks, test k = true ∧ cell k = i ∧ bit k = b := by
  induction ks generalizing s with
  | nil => simp [scatter]
  | cons k ks ih =>
      have hk := hbit k List.mem_cons_self
      have hks : ∀ k' ∈ ks, bit k' < 8 := fun k' hk' => hbit k' (List.mem_cons_of_mem k hk')
      rw [scatter, List.foldl_cons]
      refine (ih hks _).trans ?_
      rw [List.exists_mem_cons_iff, ← or_assoc]
      refine or_congr_left ?_
      by_cases htest : test k = true
      · rw [if_pos htest]
        by_cases hcell : cell k = i
        · subst hcell
          rw [Function.update_self, byteBit_or, byteBit_one_shiftLeft hk]
          simp [htest]
        · rw [Function.update_of_ne (Ne.symm hcell)]
          simp [hcell]
      · rw [if_neg htest]
        simp [htest]

end MonoBus
