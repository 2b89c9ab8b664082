import MonoBus.Framework.MachineInt

/-!
# Big-endian numbers

A number is written most significant byte first in a fixed number of bytes.  `beNat` reads any
list of bytes so; `beBytes` is its inverse on the numbers that fit.
-/

namespace MonoBus

/-- The number a list of bytes stands for, most significant byte first. -/
def beNat (bs : List UInt8) : ℕ := bs.foldl (fun n b => n * 256 + b.toNat) 0

/-- The low `n` bytes of a number, most significant byte first. -/
def beBytes : ℕ → ℕ → List UInt8
  | 0, _ => []
  | n + 1, v => beBytes n (v / 256) ++ [UInt8.ofNat v]

lemma beNat_concat (bs : List UInt8) (b : UInt8) :
    beNat (bs ++ [b]) = beNat bs * 256 + b.toNat := by
  simp [beNat, List.foldl_append]

@[simp] lemma length_beBytes (n v : ℕ) : (beBytes n v).length = n := by
  induction n generalizing v with
  | zero => rfl
  | succ n ih => simp [beBytes, ih]

/-- Reading back what was written. -/
lemma beNat_beBytes {n v : ℕ} (hv : v < 256 ^ n) : beNat (beBytes n v) = v := by
  induction n generalizing v with
  | zero => simp [beBytes, beNat]; omega
  | succ n ih =>
      have hhigh : v / 256 < 256 ^ n := Nat.div_lt_of_lt_mul (by rwa [← Nat.pow_succ'])
      have hlow : (UInt8.ofNat v).toNat = v % 256 := UInt8.toNat_ofNat'
      rw [beBytes, beNat_concat, ih hhigh, hlow]
      omega

/-! ## The widths of the wire -/

/-- The four bytes of a `uint32_t`. -/
def be32 (v : UInt32) : List UInt8 := beBytes 4 v.toNat

/-- The eight bytes of a `uint64_t`. -/
def be64 (v : UInt64) : List UInt8 := beBytes 8 v.toNat

@[simp] lemma length_be32 (v : UInt32) : (be32 v).length = 4 := length_beBytes _ _

@[simp] lemma length_be64 (v : UInt64) : (be64 v).length = 8 := length_beBytes _ _

@[simp] lemma ofNat_beNat_be32 (v : UInt32) : UInt32.ofNat (beNat (be32 v)) = v := by
  rw [be32, beNat_beBytes v.toNat_lt, UInt32.ofNat_toNat]

@[simp] lemma ofNat_beNat_be64 (v : UInt64) : UInt64.ofNat (beNat (be64 v)) = v := by
  rw [be64, beNat_beBytes v.toNat_lt, UInt64.ofNat_toNat]

end MonoBus
