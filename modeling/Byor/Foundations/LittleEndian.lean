import Mathlib.Data.Nat.Basic
import Mathlib.Tactic.Ring

/-!
# Fixed-width little-endian words

The bytes of a number as a little-endian machine copies them out of a variable of a fixed width
(`leBytes`), and the number such bytes spell (`leVal`). Copying out drops what does not fit the
width (`leVal_leBytes`), so the two are inverse exactly below `256 ^ w`, and every list of `w`
bytes is the copy of one number below `256 ^ w` (`leBytes_leVal`).
-/

namespace Byor.Wire

/-- The `w` low bytes of `n`, least significant first. -/
def leBytes : ℕ → ℕ → List UInt8
  | 0, _ => []
  | w + 1, n => UInt8.ofNat n :: leBytes w (n / 256)

/-- The number whose little-endian bytes are given. -/
def leVal : List UInt8 → ℕ
  | [] => 0
  | b :: l => b.toNat + 256 * leVal l

@[simp] theorem leBytes_zero (n : ℕ) : leBytes 0 n = [] := rfl

@[simp] theorem leVal_nil : leVal [] = 0 := rfl

@[simp] theorem length_leBytes (w n : ℕ) : (leBytes w n).length = w := by
  induction w generalizing n with
  | zero => rfl
  | succ w ih => rw [leBytes, List.length_cons, ih]

theorem take_leBytes {k w : ℕ} (h : k ≤ w) (n : ℕ) : (leBytes w n).take k = leBytes k n := by
  induction k generalizing w n with
  | zero => rfl
  | succ k ih =>
    obtain ⟨w, rfl⟩ := Nat.exists_eq_add_of_lt h
    rw [show k + w + 1 = (k + w) + 1 from rfl, leBytes, leBytes, List.take_succ_cons,
      ih (Nat.le_add_right k w)]

theorem leVal_leBytes (w n : ℕ) : leVal (leBytes w n) = n % 256 ^ w := by
  induction w generalizing n with
  | zero => rw [leBytes_zero, leVal_nil, pow_zero, Nat.mod_one]
  | succ w ih =>
    have hlow : (UInt8.ofNat n).toNat = n % 256 := UInt8.toNat_ofNat'
    rw [leBytes, leVal, ih, hlow, pow_succ', Nat.mod_mul]

theorem leVal_leBytes_of_lt {w n : ℕ} (h : n < 256 ^ w) : leVal (leBytes w n) = n := by
  rw [leVal_leBytes, Nat.mod_eq_of_lt h]

theorem leVal_lt (l : List UInt8) : leVal l < 256 ^ l.length := by
  induction l with
  | nil => exact Nat.one_pos
  | cons b l ih =>
    have hb := b.toNat_lt
    rw [leVal, List.length_cons, pow_succ]
    omega

theorem ofNat_add_mul (b : UInt8) (n : ℕ) : UInt8.ofNat (b.toNat + 256 * n) = b := by
  apply UInt8.toNat_inj.mp
  have hb := b.toNat_lt
  have h : (UInt8.ofNat (b.toNat + 256 * n)).toNat = (b.toNat + 256 * n) % 256 :=
    UInt8.toNat_ofNat'
  omega

/-- Every list of bytes is the copy of the number it spells. -/
theorem leBytes_leVal (l : List UInt8) : leBytes l.length (leVal l) = l := by
  induction l with
  | nil => rfl
  | cons b l ih =>
    have hb := b.toNat_lt
    have hdiv : (b.toNat + 256 * leVal l) / 256 = leVal l := by omega
    rw [List.length_cons, leVal, leBytes, ofNat_add_mul, hdiv, ih]

/-- Reading the first word of a list that starts with a copied number. -/
theorem leVal_take_leBytes_append {w n : ℕ} (h : n < 256 ^ w) (l : List UInt8) :
    leVal ((leBytes w n ++ l).take w) = n := by
  rw [List.take_left' (length_leBytes w n), leVal_leBytes_of_lt h]

end Byor.Wire
