import Mathlib.Data.List.Basic
import Mathlib.Order.Basic

/-!
# Numbers as decimal text

The decimal digits of a number as bytes of a text. The number can be read back
(`ofDecimal_decimal`), also when more text follows, as long as that starts with something that is no
digit (`decimal_append_inj`).
-/

namespace Byor.Wire

/-- The decimal digits of a number, as bytes. -/
def decimal (n : ℕ) : List UInt8 := (Nat.toDigits 10 n).map fun c => UInt8.ofNat c.toNat

/-- The number spelled by decimal digits. -/
def ofDecimal (l : List UInt8) : ℕ := l.foldl (fun n d => 10 * n + (d.toNat - 48)) 0

theorem toNat_of_isDigit {c : Char} (h : c.isDigit = true) : 48 ≤ c.toNat ∧ c.toNat ≤ 57 := by
  have hc : 48 ≤ c.val.toNat ∧ c.val.toNat ≤ 57 := by
    rw [Char.isDigit, Bool.and_eq_true, decide_eq_true_iff, decide_eq_true_iff] at h
    exact ⟨UInt32.le_iff_toNat_le.mp h.1, UInt32.le_iff_toNat_le.mp h.2⟩
  exact hc

theorem toNat_ofNat_of_isDigit {c : Char} (h : c.isDigit = true) :
    (UInt8.ofNat c.toNat).toNat = c.toNat := by
  have hc := toNat_of_isDigit h
  rw [UInt8.toNat_ofNat', Nat.mod_eq_of_lt (by omega)]

/-- The bytes of a decimal number are digits. -/
theorem digit_of_mem_decimal {n : ℕ} {d : UInt8} (h : d ∈ decimal n) :
    48 ≤ d.toNat ∧ d.toNat ≤ 57 := by
  obtain ⟨c, hc, rfl⟩ := List.mem_map.mp h
  have hdigit := Nat.isDigit_of_mem_toDigits (by decide) (by decide) hc
  rw [toNat_ofNat_of_isDigit hdigit]
  exact toNat_of_isDigit hdigit

/-- Reading digits as bytes is reading them as characters. -/
theorem ofDecimal_map (cs : List Char) (h : ∀ c ∈ cs, c.isDigit = true) :
    ofDecimal (cs.map fun c => UInt8.ofNat c.toNat) = Nat.ofDigitChars 10 cs 0 := by
  rw [ofDecimal, List.foldl_map, Nat.ofDigitChars_eq_foldl]
  refine List.foldl_ext _ _ _ fun n c hc => ?_
  change 10 * n + ((UInt8.ofNat c.toNat).toNat - 48) = 10 * n + (c.toNat - 48)
  rw [toNat_ofNat_of_isDigit (h c hc)]

theorem ofDecimal_decimal (n : ℕ) : ofDecimal (decimal n) = n := by
  rw [decimal, ofDecimal_map, Nat.ofDigitChars_toDigits (by decide) (by decide)]
  exact fun c hc => Nat.isDigit_of_mem_toDigits (by decide) (by decide) hc

/-- What stands before the first separator is determined by the whole. -/
theorem append_cons_inj {α : Type*} {l l' r r' : List α} {x : α} (h : x ∉ l) (h' : x ∉ l')
    (he : l ++ x :: r = l' ++ x :: r') : l = l' ∧ r = r' := by
  induction l generalizing l' with
  | nil =>
    cases l' with
    | nil => exact ⟨rfl, (List.cons.inj he).2⟩
    | cons y l' => exact absurd (List.mem_cons.mpr (.inl (List.cons.inj he).1)) h'
  | cons y l ih =>
    cases l' with
    | nil => exact absurd (List.mem_cons.mpr (.inl (List.cons.inj he).1.symm)) h
    | cons y' l' =>
      obtain ⟨rfl, htail⟩ := List.cons.inj he
      rw [List.mem_cons, not_or] at h h'
      obtain ⟨rfl, rfl⟩ := ih h.2 h'.2 htail
      exact ⟨rfl, rfl⟩

/-- **A decimal number is determined by the text it starts**, if no digit follows it. -/
theorem decimal_append_inj {m n : ℕ} {x : UInt8} (hx : x.toNat < 48) {r r' : List UInt8}
    (h : decimal m ++ x :: r = decimal n ++ x :: r') : m = n ∧ r = r' := by
  have hnot : ∀ k, x ∉ decimal k := fun k hk =>
    absurd (digit_of_mem_decimal hk).1 (Nat.not_le.mpr hx)
  obtain ⟨hd, hr⟩ := append_cons_inj (hnot m) (hnot n) h
  exact ⟨by rw [← ofDecimal_decimal m, hd, ofDecimal_decimal], hr⟩

end Byor.Wire
