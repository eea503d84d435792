import Mathlib

/-!
# Byte strings and big-endian integers

Byte strings are `List UInt8`. A subrange `b[i:j]` is `Bytes.sub b i j`; it is
total, and the code models below check the bounds before they use it.
`beBytes k n` are the `k` big-endian bytes of `n`, and `beNat` reads a byte
string back as a number.

Main results:

* `beNat_beBytes`, `beBytes_beNat`: writing and reading are inverse to each
  other on `k` bytes and on numbers below `256 ^ k`.
* `sub_append_sub`, `sub_append_drop`: consecutive subranges of one string
  concatenate to the string they were cut from.
-/

/-- A byte string. -/
abbrev Bytes := List UInt8

/-- Named, so that a definition that looks a byte string up refers to it and carries no
    proof of its own. -/
instance Bytes.lawfulBEq : LawfulBEq Bytes := inferInstance

namespace Bytes

/-! ## Subranges -/

/-- The bytes of `b` at positions `i ≤ k < j`. -/
def sub (b : Bytes) (i j : ℕ) : Bytes := (b.drop i).take (j - i)

theorem length_sub {b : Bytes} {i j : ℕ} (h : j ≤ b.length) : (sub b i j).length = j - i := by
  simp [sub]; omega

theorem sub_append_sub {b : Bytes} {i j k : ℕ} (hij : i ≤ j) (hjk : j ≤ k) :
    sub b i j ++ sub b j k = sub b i k := by
  have hk : k - i = (j - i) + (k - j) := by omega
  unfold sub
  rw [hk, List.take_add, List.drop_drop, show i + (j - i) = j by omega]

theorem sub_append_drop {b : Bytes} {i j : ℕ} (hij : i ≤ j) : sub b i j ++ b.drop j = b.drop i := by
  unfold sub
  conv_rhs => rw [← List.take_append_drop (j - i) (b.drop i), List.drop_drop,
    show i + (j - i) = j by omega]

/-- A subrange that ends at the end of the string is a suffix. -/
theorem sub_eq_drop {b : Bytes} {i j : ℕ} (h : b.length ≤ j) : sub b i j = b.drop i :=
  List.take_of_length_le (by simp; omega)

/-- Cutting a subrange out of a suffix. -/
theorem sub_drop (b : Bytes) (k i j : ℕ) : sub (b.drop k) i j = sub b (k + i) (k + j) := by
  unfold sub
  rw [List.drop_drop, show k + j - (k + i) = j - i by omega]

theorem getElem?_sub {b : Bytes} {i j k : ℕ} (h : i + k < j) : (sub b i j)[k]? = b[i + k]? := by
  unfold sub
  rw [List.getElem?_take_of_lt (by omega), List.getElem?_drop]

/-! ## Big-endian integers -/

/-- The `k` big-endian bytes of `n` modulo `256 ^ k`. -/
def beBytes : ℕ → ℕ → Bytes
  | 0, _ => []
  | k + 1, n => UInt8.ofNat (n / 256 ^ k) :: beBytes k n

/-- The number a byte string denotes, most significant byte first. -/
def beNat : Bytes → ℕ
  | [] => 0
  | x :: b => x.toNat * 256 ^ b.length + beNat b

@[simp] theorem length_beBytes (k n : ℕ) : (beBytes k n).length = k := by
  induction k with
  | zero => rfl
  | succ k ih => simp [beBytes, ih]

theorem beNat_lt (b : Bytes) : beNat b < 256 ^ b.length := by
  induction b with
  | nil => simp [beNat]
  | cons x b ih =>
    have hx : x.toNat + 1 ≤ 256 := x.toNat_lt
    calc x.toNat * 256 ^ b.length + beNat b
        < x.toNat * 256 ^ b.length + 256 ^ b.length := by omega
      _ = (x.toNat + 1) * 256 ^ b.length := by ring
      _ ≤ 256 * 256 ^ b.length := Nat.mul_le_mul_right _ hx
      _ = 256 ^ (x :: b).length := by rw [List.length_cons]; ring

theorem beNat_beBytes_mod (k n : ℕ) : beNat (beBytes k n) = n % 256 ^ k := by
  induction k with
  | zero => simp [beBytes, beNat, Nat.mod_one]
  | succ k ih =>
    have hbyte : (UInt8.ofNat (n / 256 ^ k)).toNat = n / 256 ^ k % 256 := UInt8.toNat_ofNat'
    rw [beBytes, beNat, length_beBytes, ih, hbyte, pow_succ 256 k, Nat.mod_mul]
    ring

theorem beNat_beBytes {k n : ℕ} (h : n < 256 ^ k) : beNat (beBytes k n) = n := by
  rw [beNat_beBytes_mod, Nat.mod_eq_of_lt h]

/-- The low bytes do not depend on what is added above them. -/
theorem beBytes_add_mul (k n m : ℕ) : beBytes k (m * 256 ^ k + n) = beBytes k n := by
  induction k generalizing m with
  | zero => rfl
  | succ k ih =>
    have htop : m * 256 ^ (k + 1) + n = n + 256 ^ k * (m * 256) := by ring
    rw [beBytes, beBytes]
    congr 1
    · rw [htop, Nat.add_mul_div_left _ _ (by positivity)]
      apply UInt8.toNat_inj.mp
      rw [UInt8.toNat_ofNat', UInt8.toNat_ofNat']
      omega
    · rw [show m * 256 ^ (k + 1) + n = m * 256 * 256 ^ k + n by ring]
      exact ih (m * 256)

theorem beBytes_beNat {k : ℕ} {b : Bytes} (h : b.length = k) : beBytes k (beNat b) = b := by
  subst h
  induction b with
  | nil => rfl
  | cons x b ih =>
    rw [List.length_cons, beBytes, beNat, beBytes_add_mul, ih]
    congr 1
    rw [mul_comm, Nat.mul_add_div (by positivity), Nat.div_eq_of_lt (beNat_lt b), add_zero,
      UInt8.ofNat_toNat]

end Bytes
