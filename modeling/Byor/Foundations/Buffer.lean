import Byor.Foundations.LittleEndian

/-!
# Buffers of a fixed size

A buffer that was allocated once is written to at a moving position (`copyAt`, which refuses to
write past the end), or from the front by a call that fills only part of it (`overwrite`).

* `copyAt_append`: writing behind what was written so far; `copyAt_trans`: one copy behind another.
* `leVal_take_append_zeros`, `getElem?_append_replicate`, `take_drop_append_replicate`: what a
  reader of the buffer sees that does not know how much of it was filled.
-/

namespace Byor.Wire

variable {α : Type*}

/-- The buffer after a copy to the position `p`, if it fits. -/
def copyAt (buf : List α) (p : ℕ) (bs : List α) : Option (List α) :=
  if p + bs.length ≤ buf.length then some (buf.take p ++ bs ++ buf.drop (p + bs.length)) else none

/-- Writing behind what was written so far. -/
theorem copyAt_append (pre junk bs : List α) (h : bs.length ≤ junk.length) :
    copyAt (pre ++ junk) pre.length bs = some ((pre ++ bs) ++ junk.drop bs.length) := by
  have hfit : pre.length + bs.length ≤ (pre ++ junk).length := by
    rw [List.length_append]
    omega
  rw [copyAt, if_pos hfit, List.take_left' rfl, ← List.drop_drop, List.drop_left' rfl]

variable {buf buf' buf'' bs bs' : List α} {p : ℕ}

theorem exists_copyAt (h : p + bs.length ≤ buf.length) : ∃ buf', copyAt buf p bs = some buf' :=
  ⟨_, if_pos h⟩

/-- What a copy changes. -/
theorem eq_of_copyAt (h : copyAt buf p bs = some buf') :
    p + bs.length ≤ buf.length ∧ buf' = buf.take p ++ bs ++ buf.drop (p + bs.length) := by
  unfold copyAt at h
  split at h
  · rename_i hfit
    exact ⟨hfit, (Option.some.inj h).symm⟩
  · cases h

theorem length_of_copyAt (h : copyAt buf p bs = some buf') :
    buf'.length = buf.length ∧ p + bs.length ≤ buf.length := by
  obtain ⟨hfit, rfl⟩ := eq_of_copyAt h
  refine ⟨?_, hfit⟩
  simp only [List.length_append, List.length_take, List.length_drop]
  omega

theorem copyAt_nil (h : p ≤ buf.length) : copyAt buf p [] = some buf := by
  rw [copyAt, List.length_nil, Nat.add_zero, if_pos h, List.append_nil, List.take_append_drop]

/-- A copy behind a copy is one copy. -/
theorem copyAt_trans (h : copyAt buf p bs = some buf')
    (h' : copyAt buf' (p + bs.length) bs' = some buf'') :
    copyAt buf p (bs ++ bs') = some buf'' := by
  obtain ⟨hlen, hfit⟩ := length_of_copyAt h
  obtain ⟨-, rfl⟩ := eq_of_copyAt h
  obtain ⟨hfit', rfl⟩ := eq_of_copyAt h'
  have hfront : (buf.take p ++ bs).length = p + bs.length := by
    rw [List.length_append, List.length_take]
    omega
  have htail : (buf.take p ++ bs ++ buf.drop (p + bs.length)).drop
      (p + bs.length + bs'.length) = buf.drop (p + (bs ++ bs').length) := by
    rw [← List.drop_drop, List.drop_left' hfront, List.drop_drop, List.length_append, Nat.add_assoc]
  have hall : p + (bs ++ bs').length ≤ buf.length := by
    rw [List.length_append]
    omega
  rw [copyAt, if_pos hall, List.take_left' hfront, htail]
  simp only [List.append_assoc]

/-- The buffer after its front was overwritten. -/
def overwrite (buf bs : List α) : List α := bs ++ buf.drop bs.length

/-- A zeroed buffer of which the front was overwritten. -/
theorem overwrite_replicate (n : ℕ) (x : α) (bs : List α) :
    overwrite (List.replicate n x) bs = bs ++ List.replicate (n - bs.length) x := by
  rw [overwrite, List.drop_replicate]

theorem leVal_append_zeros (l : List UInt8) (n : ℕ) :
    leVal (l ++ List.replicate n 0) = leVal l := by
  induction l with
  | nil =>
    induction n with
    | zero => rfl
    | succ n ih =>
      change leVal (0 :: List.replicate n 0) = 0
      change leVal (List.replicate n 0) = 0 at ih
      rw [leVal, ih]
      rfl
  | cons b l ih => rw [List.cons_append, leVal, ih, leVal]

/-- Zeros behind a word that is not complete do not change its value. -/
theorem leVal_take_append_zeros (l : List UInt8) (w n : ℕ) :
    leVal ((l ++ List.replicate n 0).take w) = leVal (l.take w) := by
  rw [List.take_append, List.take_replicate, leVal_append_zeros]

/-- Reading past the end of what was written finds the filling. -/
theorem getElem?_append_replicate {l : List α} {i n : ℕ} (x : α) (h : i < l.length + n) :
    (l ++ List.replicate n x)[i]? = some (l.getD i x) := by
  rw [List.getElem?_append, List.getD_eq_getElem?_getD]
  split
  · rename_i hi
    rw [List.getElem?_eq_getElem hi]
    rfl
  · rename_i hi
    rw [List.getElem?_eq_none (Nat.le_of_not_lt hi), List.getElem?_replicate, if_pos (by omega)]
    rfl

/-- A stretch of the buffer, by what was written. -/
theorem take_drop_append_replicate {l : List α} {i k n : ℕ} (x : α) (h : i + k ≤ l.length + n) :
    ((l ++ List.replicate n x).drop i).take k = (l.drop i ++ List.replicate k x).take k := by
  rw [List.drop_append, List.drop_replicate, List.take_append, List.take_append,
    List.take_replicate, List.take_replicate, List.length_drop]
  congr 2
  omega

end Byor.Wire
