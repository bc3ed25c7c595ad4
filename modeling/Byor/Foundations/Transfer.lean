import Mathlib.Algebra.BigOperators.Intervals
import Mathlib.Algebra.Order.BigOperators.Group.Finset
import Byor.Foundations.Access

/-!
# Moving bytes in pieces

A loop over `read` or `write` moves a number of bytes over a connection, and each call moves as many
as the other side is ready for. `Peer` is the other side: the bytes it sends and what the calls
return, one after another; no call moves more than it was asked for. `Socket` is how far a program
has got.

* `Brings r j n`: from the call `j` on, `n` bytes come before the first result that is `0` or
  negative. `EndsEarly r j n`: the first such result is `0`, and fewer bytes came.
* `brings_iff`, `endsEarly_iff`, `completes_iff`: the same after one call.
* `transfer_induction`: the rule for loops that ask for what is missing until nothing is.
-/

namespace Byor.Wire

/-- The other side of a connection. -/
structure Peer where
  /-- The bytes it sends. -/
  stream : ℕ → UInt8
  /-- What each call returns: how many bytes the other side is ready for, `0`, or an error. -/
  result : ℕ → ℤ
  /-- The error number of each call that fails. -/
  errno : ℕ → ℕ

/-- How far a program has got with a connection. -/
structure Socket where
  calls : ℕ
  /-- The number of bytes that were read. -/
  taken : ℕ
  /-- The bytes that were written. -/
  sent : List UInt8
  errno : ℕ

/-- The state after a call that failed. -/
def Socket.failed (s : Socket) (errno : ℕ) : Socket :=
  { s with calls := s.calls + 1, errno := errno }

/-- The state after a call that has read `n` bytes. -/
def Socket.read (s : Socket) (n : ℕ) : Socket :=
  { s with calls := s.calls + 1, taken := s.taken + n }

/-- The state after a call that has written some bytes. -/
def Socket.wrote (s : Socket) (b : List UInt8) : Socket :=
  { s with calls := s.calls + 1, sent := s.sent ++ b }

section Calls

variable {ε : Type} (c : Peer)

/-- `read`, asked for `count` bytes: its result and the bytes it puts into the buffer. -/
def Peer.read (count : ℕ) : EStateM ε Socket (ℤ × List UInt8) := do
  let s ← get
  if c.result s.calls < 0 then
    set (s.failed (c.errno s.calls))
    return (-1, [])
  else
    let n := min (c.result s.calls).toNat count
    set (s.read n)
    return (n, bytesAt c.stream s.taken n)

/-- `write`, given the bytes of a buffer: its result. -/
def Peer.write (buf : List UInt8) : EStateM ε Socket ℤ := do
  let s ← get
  if c.result s.calls < 0 then
    set (s.failed (c.errno s.calls))
    return -1
  else
    let n := min (c.result s.calls).toNat buf.length
    set (s.wrote (buf.take n))
    return n

variable {c} {s : Socket} {count : ℕ} {buf : List UInt8}

theorem run_read_of_neg (h : c.result s.calls < 0) :
    (c.read count : EStateM ε Socket _).run s = .ok (-1, []) (s.failed (c.errno s.calls)) := by
  simp only [Peer.read, EStateM.run_bind, EStateM.run_get, if_pos h, EStateM.run_set,
    EStateM.run_pure]

theorem run_read (h : 0 ≤ c.result s.calls) {n : ℕ} (hn : min (c.result s.calls).toNat count = n) :
    (c.read count : EStateM ε Socket _).run s =
      .ok (n, bytesAt c.stream s.taken n) (s.read n) := by
  subst hn
  simp only [Peer.read, EStateM.run_bind, EStateM.run_get, if_neg (Int.not_lt.mpr h),
    EStateM.run_set, EStateM.run_pure]

theorem run_write_of_neg (h : c.result s.calls < 0) :
    (c.write buf : EStateM ε Socket _).run s = .ok (-1) (s.failed (c.errno s.calls)) := by
  simp only [Peer.write, EStateM.run_bind, EStateM.run_get, if_pos h, EStateM.run_set,
    EStateM.run_pure]

theorem run_write (h : 0 ≤ c.result s.calls) {n : ℕ}
    (hn : min (c.result s.calls).toNat buf.length = n) :
    (c.write buf : EStateM ε Socket _).run s = .ok (n : ℤ) (s.wrote (buf.take n)) := by
  subst hn
  simp only [Peer.write, EStateM.run_bind, EStateM.run_get, if_neg (Int.not_lt.mpr h),
    EStateM.run_set, EStateM.run_pure]

end Calls

/-! ## What the calls come to -/

/-- The bytes of the calls from `j` up to `k`. -/
def total (r : ℕ → ℤ) (j k : ℕ) : ℤ := ∑ i ∈ Finset.Ico j k, r i

/-- The calls from `j` up to `k` all bring bytes. -/
def AllPositive (r : ℕ → ℤ) (j k : ℕ) : Prop := j ≤ k ∧ ∀ i ∈ Finset.Ico j k, 0 < r i

/-- From the call `j` on, `n` bytes come before the first result that is `0` or negative. -/
def Brings (r : ℕ → ℤ) (j n : ℕ) : Prop := ∃ k, AllPositive r j k ∧ (n : ℤ) ≤ total r j k

/-- From the call `j` on, fewer than `n` bytes come, and then the result `0`. -/
def EndsEarly (r : ℕ → ℤ) (j n : ℕ) : Prop :=
  ∃ k, AllPositive r j k ∧ total r j k < n ∧ r k = 0

/-- The calls from `j` up to `k`, and no fewer, bring `n` bytes. -/
def Completes (r : ℕ → ℤ) (j n k : ℕ) : Prop :=
  AllPositive r j k ∧ (n : ℤ) ≤ total r j k ∧ ∀ i, j ≤ i → i < k → total r j i < n

variable {r : ℕ → ℤ} {j k n : ℕ}

@[simp] theorem total_self (r : ℕ → ℤ) (j : ℕ) : total r j j = 0 := by
  rw [total, Finset.Ico_self, Finset.sum_empty]

theorem total_eq_add (h : j < k) : total r j k = r j + total r (j + 1) k :=
  Finset.sum_eq_sum_Ico_succ_bot h r

theorem allPositive_self (r : ℕ → ℤ) (j : ℕ) : AllPositive r j j :=
  ⟨Nat.le_refl j, by simp⟩

theorem allPositive_iff (h : j < k) : AllPositive r j k ↔ 0 < r j ∧ AllPositive r (j + 1) k := by
  simp only [AllPositive, Finset.mem_Ico]
  constructor
  · rintro ⟨-, hpos⟩
    exact ⟨hpos j ⟨Nat.le_refl j, h⟩, h, fun i hi => hpos i ⟨by omega, hi.2⟩⟩
  · rintro ⟨hj, -, hpos⟩
    refine ⟨Nat.le_of_lt h, fun i hi => ?_⟩
    rcases Nat.eq_or_lt_of_le hi.1 with rfl | hlt
    · exact hj
    · exact hpos i ⟨hlt, hi.2⟩

theorem AllPositive.of_le {i : ℕ} (h : AllPositive r j k) (hi : j ≤ i) (hik : i ≤ k) :
    AllPositive r j i := by
  refine ⟨hi, fun l hl => h.2 l ?_⟩
  rw [Finset.mem_Ico] at hl ⊢
  omega

theorem AllPositive.total_nonneg (h : AllPositive r j k) : 0 ≤ total r j k :=
  Finset.sum_nonneg fun i hi => Int.le_of_lt (h.2 i hi)

/-- Either no call is made, or the first one brings bytes. -/
theorem exists_allPositive_iff {Q : ℕ → ℤ → Prop} :
    (∃ k, AllPositive r j k ∧ Q k (total r j k)) ↔
      Q j 0 ∨ 0 < r j ∧ ∃ k, AllPositive r (j + 1) k ∧ Q k (r j + total r (j + 1) k) := by
  constructor
  · rintro ⟨k, hpos, hQ⟩
    rcases Nat.eq_or_lt_of_le hpos.1 with rfl | hlt
    · exact .inl (total_self r j ▸ hQ)
    · obtain ⟨hj, hrest⟩ := (allPositive_iff hlt).mp hpos
      exact .inr ⟨hj, k, hrest, total_eq_add hlt ▸ hQ⟩
  · rintro (hQ | ⟨hj, k, hrest, hQ⟩)
    · exact ⟨j, allPositive_self r j, (total_self r j).symm ▸ hQ⟩
    · have hlt : j < k := hrest.1
      exact ⟨k, (allPositive_iff hlt).mpr ⟨hj, hrest⟩, (total_eq_add hlt).symm ▸ hQ⟩

/-! ## After one call -/

theorem brings_zero (r : ℕ → ℤ) (j : ℕ) : Brings r j 0 :=
  ⟨j, allPositive_self r j, (total_self r j).ge⟩

theorem not_endsEarly_zero (r : ℕ → ℤ) (j : ℕ) : ¬ EndsEarly r j 0 := by
  rintro ⟨k, hpos, hlt, -⟩
  exact absurd hpos.total_nonneg (Int.not_le.mpr hlt)

theorem completes_zero (r : ℕ → ℤ) (j : ℕ) : Completes r j 0 k ↔ k = j := by
  constructor
  · rintro ⟨hpos, -, hmin⟩
    by_contra hne
    have hzero := hmin j (Nat.le_refl j) (Nat.lt_of_le_of_ne hpos.1 (Ne.symm hne))
    rw [total_self] at hzero
    exact absurd hzero (by decide)
  · rintro rfl
    exact ⟨allPositive_self r k, (total_self r k).ge, fun i hi hlt => absurd hi (by omega)⟩

theorem brings_iff (hn : 0 < n) :
    Brings r j n ↔ 0 < r j ∧ Brings r (j + 1) (n - (r j).toNat) := by
  rw [Brings, exists_allPositive_iff (Q := fun _ t => (n : ℤ) ≤ t), or_iff_right (by omega)]
  refine and_congr_right fun hj => exists_congr fun k => and_congr_right fun hpos => ?_
  have hnonneg := hpos.total_nonneg
  omega

theorem endsEarly_iff (hn : 0 < n) :
    EndsEarly r j n ↔ r j = 0 ∨ 0 < r j ∧ EndsEarly r (j + 1) (n - (r j).toNat) := by
  rw [EndsEarly, exists_allPositive_iff (Q := fun k t => t < n ∧ r k = 0)]
  refine or_congr (and_iff_right (by omega)) ?_
  refine and_congr_right fun hj => exists_congr fun k => and_congr_right fun hpos => ?_
  have hnonneg := hpos.total_nonneg
  refine and_congr_left fun _ => ?_
  omega

theorem completes_iff (hn : 0 < n) :
    Completes r j n k ↔ 0 < r j ∧ Completes r (j + 1) (n - (r j).toNat) k := by
  constructor
  · rintro ⟨hpos, hsum, hmin⟩
    have hlt : j < k := by
      refine Nat.lt_of_le_of_ne hpos.1 ?_
      rintro rfl
      rw [total_self] at hsum
      omega
    obtain ⟨hj, hrest⟩ := (allPositive_iff hlt).mp hpos
    rw [total_eq_add hlt] at hsum
    refine ⟨hj, hrest, by have hnonneg := hrest.total_nonneg; omega, fun i hi hik => ?_⟩
    have hmiss := hmin i (by omega) hik
    rw [total_eq_add hi] at hmiss
    have hnonneg := (hrest.of_le hi (Nat.le_of_lt hik)).total_nonneg
    omega
  · rintro ⟨hj, hrest, hsum, hmin⟩
    have hlt : j < k := hrest.1
    refine ⟨(allPositive_iff hlt).mpr ⟨hj, hrest⟩, ?_, fun i hi hik => ?_⟩
    · rw [total_eq_add hlt]
      omega
    · rcases Nat.eq_or_lt_of_le hi with rfl | hji
      · rw [total_self]
        omega
      · have hmiss := hmin i hji hik
        have hnonneg := (hrest.of_le hji (Nat.le_of_lt hik)).total_nonneg
        rw [total_eq_add hji]
        omega

/-- Calls that all bring bytes bring any number of them. -/
theorem exists_completes (h : ∀ i, j ≤ i → 0 < r i) (n : ℕ) : ∃ k, Completes r j n k := by
  induction n using Nat.strong_induction_on generalizing j with
  | _ n ih =>
    rcases Nat.eq_zero_or_pos n with rfl | hn
    · exact ⟨j, (completes_zero r j).mpr rfl⟩
    · have hj := h j (Nat.le_refl j)
      obtain ⟨k, hk⟩ := ih (n - (r j).toNat) (by omega) fun i hi => h i (Nat.le_of_succ_le hi)
      exact ⟨k, (completes_iff hn).mpr ⟨hj, hk⟩⟩

theorem Completes.brings (h : Completes r j n k) : Brings r j n := ⟨k, h.1, h.2.1⟩

theorem Completes.unique {k' : ℕ} (h : Completes r j n k) (h' : Completes r j n k') : k = k' := by
  obtain ⟨hpos, hsum, hmin⟩ := h
  obtain ⟨hpos', hsum', hmin'⟩ := h'
  rcases Nat.lt_trichotomy k k' with hlt | heq | hgt
  · exact absurd hsum (Int.not_le.mpr (hmin' k hpos.1 hlt))
  · exact heq
  · exact absurd hsum' (Int.not_le.mpr (hmin k' hpos'.1 hgt))

/-- **The rule for loops** that move `n` bytes from the call `j` on: nothing is missing, or the next
call brings nothing, or it brings some of what is missing. -/
theorem transfer_induction (r : ℕ → ℤ) {motive : ℕ → ℕ → Prop} (done : ∀ j, motive j 0)
    (stop : ∀ j n, 0 < n → r j ≤ 0 → motive j n)
    (move : ∀ j n, 0 < n → 0 < r j → motive (j + 1) (n - (r j).toNat) → motive j n) (j n : ℕ) :
    motive j n := by
  induction n using Nat.strong_induction_on generalizing j with
  | _ n ih =>
    rcases Nat.eq_zero_or_pos n with rfl | hn
    · exact done j
    · rcases Int.lt_or_le 0 (r j) with hpos | hstop
      · exact move j n hn hpos (ih _ (by omega) (j + 1))
      · exact stop j n hn hstop

end Byor.Wire
