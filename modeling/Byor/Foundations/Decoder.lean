import Mathlib.Data.List.Basic
import Mathlib.Order.Basic

/-!
# Decoders of a growing buffer

A stream arrives in pieces whose boundaries mean nothing. A program that decodes it keeps a
buffer, appends each piece and takes items off the front while it can. `Decoder` is what such a
program needs of the function that takes one item: it removes a non-empty prefix (`split`,
`raw_ne_nil`), and bytes that arrive later do not change its answer (`extend`).

* `Decoder.Takes xs bs r`: taking the items `bs` off the front of `xs` leaves `r`.
* `Decoder.drain` takes items until none is left (`takes_drain`, `next_drain`); it is the only
  way to do so (`drain_eq_of_takes`), and everything that can be taken is a part of it
  (`Takes.of_drain`).
* **`drain_append`**: draining a buffer, appending and draining again is draining it all at once.
  This is independence of the segmentation.
-/

namespace Byor.Wire

variable {α β : Type*}

/-- A function that takes one item off the front of a buffer, or waits for more. -/
structure Decoder (α β : Type*) where
  /-- The first item of the buffer and what follows it. -/
  next : List α → Option (β × List α)
  /-- The stretch of the buffer an item was read from. -/
  raw : β → List α
  split : ∀ {xs b rest}, next xs = some (b, rest) → xs = raw b ++ rest
  raw_ne_nil : ∀ {xs b rest}, next xs = some (b, rest) → raw b ≠ []
  extend : ∀ {xs b rest} (ys), next xs = some (b, rest) → next (xs ++ ys) = some (b, rest ++ ys)

namespace Decoder

variable (D : Decoder α β)

theorem length_lt {xs rest : List α} {b : β} (h : D.next xs = some (b, rest)) :
    rest.length < xs.length := by
  have hpos : 0 < (D.raw b).length := List.length_pos_iff.mpr (D.raw_ne_nil h)
  rw [D.split h, List.length_append]
  omega

/-! ## Taking items one by one -/

/-- `Takes xs bs r`: the items `bs`, in order, stand at the front of `xs`, and `r` follows. -/
inductive Takes : List α → List β → List α → Prop
  | nil (xs : List α) : Takes xs [] xs
  | cons {xs rest r : List α} {b : β} {bs : List β} (h : D.next xs = some (b, rest))
      (hs : Takes rest bs r) : Takes xs (b :: bs) r

namespace Takes

variable {D} {xs ys r r' : List α} {bs bs' : List β}

theorem split (h : D.Takes xs bs r) : xs = (bs.map D.raw).flatten ++ r := by
  induction h with
  | nil => rfl
  | cons h _ ih =>
    rw [List.map_cons, List.flatten_cons, List.append_assoc, ← ih]
    exact D.split h

theorem trans (h : D.Takes xs bs r) (h' : D.Takes r bs' r') : D.Takes xs (bs ++ bs') r' := by
  induction h with
  | nil => exact h'
  | cons h _ ih => exact .cons h (ih h')

/-- More bytes behind the buffer do not change what was taken. -/
theorem append (h : D.Takes xs bs r) (ys : List α) : D.Takes (xs ++ ys) bs (r ++ ys) := by
  induction h with
  | nil => exact .nil _
  | cons h _ ih => exact .cons (D.extend ys h) ih

theorem eq_of_next_none (h : D.Takes xs bs r) (hx : D.next xs = none) : bs = [] ∧ r = xs := by
  cases h with
  | nil => exact ⟨rfl, rfl⟩
  | cons h _ => rw [hx] at h; cases h

/-- What can be taken is the beginning of what is taken until nothing is left. -/
theorem rest_of_final (h : D.Takes xs bs r) (hr : D.next r = none) (h' : D.Takes xs bs' r') :
    ∃ cs, bs = bs' ++ cs ∧ D.Takes r' cs r := by
  induction h' generalizing bs with
  | nil => exact ⟨bs, rfl, h⟩
  | cons hn _ ih =>
    cases h with
    | nil => rw [hr] at hn; cases hn
    | cons hn' hs =>
      rw [hn] at hn'
      obtain ⟨rfl, rfl⟩ := Prod.mk.inj (Option.some.inj hn')
      obtain ⟨cs, rfl, hcs⟩ := ih hs
      exact ⟨cs, rfl, hcs⟩

theorem unique (h : D.Takes xs bs r) (hr : D.next r = none) (h' : D.Takes xs bs' r')
    (hr' : D.next r' = none) : bs = bs' ∧ r = r' := by
  obtain ⟨cs, rfl, hcs⟩ := h.rest_of_final hr h'
  obtain ⟨rfl, rfl⟩ := hcs.eq_of_next_none hr'
  exact ⟨List.append_nil _, rfl⟩

end Takes

/-! ## Draining a buffer -/

/-- At most `n` items off the front of `xs`, and what follows them. -/
def drainFuel : ℕ → List α → List β × List α
  | 0, xs => ([], xs)
  | n + 1, xs =>
    match D.next xs with
    | none => ([], xs)
    | some (b, rest) => (b :: (drainFuel n rest).1, (drainFuel n rest).2)

/-- All items off the front of `xs`, and what follows them. -/
def drain (xs : List α) : List β × List α := D.drainFuel xs.length xs

theorem takes_drainFuel (n : ℕ) (xs : List α) :
    D.Takes xs (D.drainFuel n xs).1 (D.drainFuel n xs).2 := by
  induction n generalizing xs with
  | zero => exact .nil xs
  | succ n ih =>
    rw [drainFuel]
    split
    · exact .nil xs
    · rename_i b rest h
      exact .cons h (ih rest)

theorem next_drainFuel {n : ℕ} {xs : List α} (hn : xs.length ≤ n) :
    D.next (D.drainFuel n xs).2 = none := by
  induction n generalizing xs with
  | zero =>
    obtain rfl := List.length_eq_zero_iff.mp (Nat.le_zero.mp hn)
    rw [drainFuel]
    cases h : D.next [] with
    | none => rfl
    | some p => exact absurd (D.length_lt h) (Nat.not_lt_zero _)
  | succ n ih =>
    rw [drainFuel]
    split
    · assumption
    · rename_i b rest h
      have hlt := D.length_lt h
      exact ih (by omega)

theorem takes_drain (xs : List α) : D.Takes xs (D.drain xs).1 (D.drain xs).2 :=
  D.takes_drainFuel _ xs

theorem next_drain (xs : List α) : D.next (D.drain xs).2 = none := D.next_drainFuel (Nat.le_refl _)

theorem drain_eq_of_takes {xs r : List α} {bs : List β} (h : D.Takes xs bs r)
    (hr : D.next r = none) : D.drain xs = (bs, r) := by
  obtain ⟨h1, h2⟩ := (D.takes_drain xs).unique (D.next_drain xs) h hr
  exact Prod.ext h1 h2

theorem drain_of_none {xs : List α} (h : D.next xs = none) : D.drain xs = ([], xs) :=
  D.drain_eq_of_takes (.nil xs) h

theorem drain_split (xs : List α) : xs = ((D.drain xs).1.map D.raw).flatten ++ (D.drain xs).2 :=
  (D.takes_drain xs).split

theorem Takes.of_drain {D : Decoder α β} {xs r : List α} {bs : List β} (h : D.Takes xs bs r) :
    ∃ cs, (D.drain xs).1 = bs ++ cs ∧ D.Takes r cs (D.drain xs).2 :=
  (D.takes_drain xs).rest_of_final (D.next_drain xs) h

/-- **Independence of the segmentation**: draining, appending and draining again is draining it
all at once. -/
theorem drain_append (xs ys : List α) :
    D.drain (xs ++ ys) = ((D.drain xs).1 ++ (D.drain ((D.drain xs).2 ++ ys)).1,
      (D.drain ((D.drain xs).2 ++ ys)).2) :=
  D.drain_eq_of_takes (((D.takes_drain xs).append ys).trans (D.takes_drain _)) (D.next_drain _)

end Decoder

end Byor.Wire
