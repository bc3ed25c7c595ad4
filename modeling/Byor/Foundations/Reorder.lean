import Mathlib.Data.List.Sort
import Mathlib.Data.List.FinRange
import Mathlib.Logic.Equiv.Defs

/-!
# Reordering the steps of a keyed state

A state with one value for each key, and steps that read and write the value at their own key only
(`Local`). Two sequences of steps that differ by a rearrangement which keeps the order of the steps
on each key (`Reorders`) have the same results, step by step, and lead to the same state
(`Local.runAll_reorder`): steps on different keys, and steps without a key, may change places
freely.

The value at a key depends only on the steps on this key (`Local.runAll_key`), and these stand in
the same order in both sequences (`Reorders.filter_eq`, `Reorders.filter_take_eq`).
-/

namespace Byor.Wire

/-! ## Rearrangements -/

section Rearrangement

variable {α κ : Type*} {key : α → Option κ} {xs ys : List α}
  {σ : Fin xs.length ≃ Fin ys.length}

/-- `ys` is `xs` with the element at place `i` moved to the place `σ i`; elements with the same key
stay in order. -/
structure Reorders (key : α → Option κ) (xs ys : List α) (σ : Fin xs.length ≃ Fin ys.length) :
    Prop where
  same : ∀ i, ys[σ i] = xs[i]
  mono : ∀ i j k, i < j → key xs[i] = some k → key xs[j] = some k → σ i < σ j

/-- The elements at chosen places, in order. -/
def atPlaces (xs : List α) (p : Fin xs.length → Bool) : List α :=
  ((List.finRange xs.length).filter p).map xs.get

theorem filter_take_eq_atPlaces (xs : List α) (q : α → Bool) (n : ℕ) :
    (xs.take n).filter q = atPlaces xs fun i => q xs[i] && decide ((i : ℕ) < n) := by
  have htake : (List.finRange xs.length).take n =
      (List.finRange xs.length).filter fun i : Fin xs.length => decide ((i : ℕ) < n) := by
    have hsorted := (List.sortedLT_finRange xs.length).pairwise
    apply List.Pairwise.eq_of_mem_iff (hsorted.take) (hsorted.filter _)
    intro i
    simp only [List.mem_take_iff_getElem, List.getElem_finRange, List.mem_filter, List.mem_finRange,
      true_and, decide_eq_true_eq, List.length_finRange]
    constructor
    · rintro ⟨j, hj, rfl⟩
      simp only [Fin.val_cast]
      omega
    · intro hi
      exact ⟨i, by omega, rfl⟩
  have hxs : xs.take n = ((List.finRange xs.length).take n).map xs.get := by
    rw [List.map_take, List.map_get_finRange]
  rw [hxs, htake, List.filter_map, List.filter_filter, atPlaces]
  rfl

theorem filter_eq_atPlaces (xs : List α) (q : α → Bool) :
    xs.filter q = atPlaces xs fun i => q xs[i] := by
  have htake := filter_take_eq_atPlaces xs q xs.length
  rw [List.take_length] at htake
  rw [htake]
  congr 1
  funext i
  simp

/-- Places that correspond, in the same order, hold the same elements. -/
theorem atPlaces_eq (hsame : ∀ i, ys[σ i] = xs[i]) {p : Fin xs.length → Bool}
    {q : Fin ys.length → Bool} (hpq : ∀ i, q (σ i) = p i)
    (hmono : ∀ i j, p i = true → p j = true → i < j → σ i < σ j) :
    atPlaces xs p = atPlaces ys q := by
  have hsorted : ((List.finRange xs.length).filter p).Pairwise (· < ·) :=
    (List.sortedLT_finRange xs.length).pairwise.filter p
  have hplaces : ((List.finRange xs.length).filter p).map σ =
      (List.finRange ys.length).filter q := by
    refine List.Pairwise.eq_of_mem_iff (r := (· < ·)) ?_
      ((List.sortedLT_finRange ys.length).pairwise.filter q) fun j => ?_
    · rw [List.pairwise_map]
      refine hsorted.imp_of_mem fun {i j} hi hj hij => ?_
      exact hmono i j (List.of_mem_filter hi) (List.of_mem_filter hj) hij
    · simp only [List.mem_map, List.mem_filter, List.mem_finRange, true_and]
      constructor
      · rintro ⟨i, hi, rfl⟩
        rwa [hpq]
      · intro hj
        exact ⟨σ.symm j, by rwa [← hpq, Equiv.apply_symm_apply], Equiv.apply_symm_apply σ j⟩
  rw [atPlaces, atPlaces, ← hplaces, List.map_map]
  exact List.map_congr_left fun i _ => (hsame i).symm

namespace Reorders

variable (h : Reorders key xs ys σ)

include h

theorem lt_iff {i j : Fin xs.length} {k : κ} (hi : key xs[i] = some k) (hj : key xs[j] = some k) :
    σ i < σ j ↔ i < j := by
  constructor
  · intro hlt
    by_contra hge
    rcases eq_or_lt_of_le (not_lt.mp hge) with rfl | hgt
    · exact lt_irrefl _ hlt
    · exact lt_asymm hlt (h.mono j i k hgt hj hi)
  · exact fun hlt => h.mono i j k hlt hi hj

/-- The elements with a key stand in the same order in both lists. -/
theorem filter_eq [DecidableEq κ] (k : κ) :
    xs.filter (fun a => key a = some k) = ys.filter fun a => key a = some k := by
  rw [filter_eq_atPlaces, filter_eq_atPlaces]
  apply atPlaces_eq h.same
  · intro i
    rw [h.same]
  · intro i j hi hj hij
    exact h.mono i j k hij (of_decide_eq_true hi) (of_decide_eq_true hj)

/-- The elements with its key that come before an element are the same in both lists. -/
theorem filter_take_eq [DecidableEq κ] {i : Fin xs.length} {k : κ} (hi : key xs[i] = some k) :
    (xs.take i).filter (fun a => key a = some k) =
      (ys.take (σ i)).filter fun a => key a = some k := by
  rw [filter_take_eq_atPlaces, filter_take_eq_atPlaces]
  apply atPlaces_eq h.same
  · intro j
    rw [h.same]
    by_cases hj : key xs[j] = some k
    · have hlt := h.lt_iff hj hi
      rw [decide_eq_true hj, Bool.true_and, Bool.true_and, decide_eq_decide]
      exact hlt
    · rw [decide_eq_false hj, Bool.false_and, Bool.false_and]
  · intro j j' hj hj' hlt
    simp only [Bool.and_eq_true, decide_eq_true_eq] at hj hj'
    exact h.mono j j' k hlt hj.1 hj'.1

end Reorders

end Rearrangement

/-! ## Steps on a keyed state -/

section Steps

variable {S A R : Type*}

/-- Steps one after another: the state after them and the result of each. -/
def runAll (step : S → A → S × R) (s : S) : List A → S × List R
  | [] => (s, [])
  | a :: as =>
    ((runAll step (step s a).1 as).1, (step s a).2 :: (runAll step (step s a).1 as).2)

/-- The result of a step, from the steps before it. -/
theorem getElem?_runAll (step : S → A → S × R) (s : S) (as : List A) (i : ℕ) :
    (runAll step s as).2[i]? = as[i]?.map fun a => (step (runAll step s (as.take i)).1 a).2 := by
  induction as generalizing s i with
  | nil => simp [runAll]
  | cons a as ih =>
    cases i with
    | zero => simp [runAll]
    | succ i => simp [runAll, ih]

variable {K V : Type*} [DecidableEq K] {step : (K → V) → A → (K → V) × R} {key : A → Option K}

/-- A step reads and writes the value at its own key only. -/
structure Local (step : (K → V) → A → (K → V) × R) (key : A → Option K) : Prop where
  frame : ∀ s a k, key a ≠ some k → (step s a).1 k = s k
  own : ∀ s s' a k, key a = some k → s k = s' k → (step s a).1 k = (step s' a).1 k
  result : ∀ s s' a k, key a = some k → s k = s' k → (step s a).2 = (step s' a).2
  result_none : ∀ s s' a, key a = none → (step s a).2 = (step s' a).2

namespace Local

variable (h : Local step key)

include h

theorem step_congr {s s' : K → V} {k : K} (hk : s k = s' k) (a : A) :
    (step s a).1 k = (step s' a).1 k := by
  by_cases ha : key a = some k
  · exact h.own s s' a k ha hk
  · rw [h.frame s a k ha, h.frame s' a k ha, hk]

theorem runAll_congr {s s' : K → V} {k : K} (hk : s k = s' k) (as : List A) :
    (runAll step s as).1 k = (runAll step s' as).1 k := by
  induction as generalizing s s' with
  | nil => exact hk
  | cons a as ih => exact ih (h.step_congr hk a)

/-- **The value at a key** is the work of the steps on this key. -/
theorem runAll_key (s : K → V) (k : K) (as : List A) :
    (runAll step s as).1 k = (runAll step s (as.filter fun a => key a = some k)).1 k := by
  induction as generalizing s with
  | nil => rfl
  | cons a as ih =>
    by_cases ha : key a = some k
    · rw [List.filter_cons_of_pos (by simpa using ha), runAll, runAll]
      exact ih _
    · rw [List.filter_cons_of_neg (by simpa using ha), runAll]
      exact (ih _).trans (h.runAll_congr (h.frame s a k ha) _)

/-- **Only the order on each key matters.** -/
theorem runAll_reorder {xs ys : List A} {σ : Fin xs.length ≃ Fin ys.length}
    (hr : Reorders key xs ys σ) (s : K → V) :
    (runAll step s xs).1 = (runAll step s ys).1 ∧
      ∀ i : Fin xs.length, (runAll step s xs).2[(i : ℕ)]? = (runAll step s ys).2[(σ i : ℕ)]? := by
  constructor
  · funext k
    rw [h.runAll_key s k xs, hr.filter_eq k, ← h.runAll_key]
  · intro i
    have hget : ys[(σ i : ℕ)]? = xs[(i : ℕ)]? := by
      rw [List.getElem?_eq_getElem (σ i).isLt, List.getElem?_eq_getElem i.isLt]
      exact congrArg some (hr.same i)
    rw [getElem?_runAll, getElem?_runAll, hget, List.getElem?_eq_getElem i.isLt, Option.map_some,
      Option.map_some, Option.some_inj]
    cases hk : key xs[i] with
    | none => exact h.result_none _ _ _ hk
    | some k =>
      apply h.result _ _ _ k hk
      rw [h.runAll_key, hr.filter_take_eq hk, ← h.runAll_key]

end Local

end Steps

end Byor.Wire
