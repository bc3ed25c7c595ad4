import Mathlib.Logic.Function.Basic
import Mathlib.Data.List.Basic

/-!
# A map and the log of its writes

A map that changes only by writes to single keys is determined by the log of the writes. A write
leaves a value at its key, or nothing (`none`). `applyWrites` runs a log; what stands at a key
afterwards is what the last write to the key left there (`applyWrites_of_lastWrite`), or what
stood there before, when the log does not touch the key (`applyWrites_of_untouched`); one of the
two is the case (`untouched_or_lastWrite`).
-/

namespace Byor.Wire

variable {K V : Type*} [DecidableEq K]

/-- Run a log of writes on a map. -/
def applyWrites (m : K → Option V) (log : List (K × Option V)) : K → Option V :=
  log.foldl (fun m e => Function.update m e.1 e.2) m

/-- `v` is what the last write to `k` in the log left there. -/
def LastWrite (k : K) (v : Option V) (log : List (K × Option V)) : Prop :=
  ∃ before after, log = before ++ (k, v) :: after ∧ ∀ e ∈ after, e.1 ≠ k

theorem applyWrites_append (m : K → Option V) (log log' : List (K × Option V)) :
    applyWrites m (log ++ log') = applyWrites (applyWrites m log) log' :=
  List.foldl_append

theorem applyWrites_of_untouched (m : K → Option V) {k : K} {log : List (K × Option V)}
    (h : ∀ e ∈ log, e.1 ≠ k) : applyWrites m log k = m k := by
  induction log generalizing m with
  | nil => rfl
  | cons e log ih =>
    have hne : k ≠ e.1 := (h e List.mem_cons_self).symm
    change applyWrites (Function.update m e.1 e.2) log k = m k
    rw [ih _ fun e' he' => h e' (List.mem_cons_of_mem e he'), Function.update_of_ne hne]

theorem applyWrites_of_lastWrite (m : K → Option V) {k : K} {v : Option V}
    {log : List (K × Option V)} (h : LastWrite k v log) : applyWrites m log k = v := by
  obtain ⟨before, after, rfl, hafter⟩ := h
  rw [applyWrites_append]
  change applyWrites (Function.update (applyWrites m before) k v) after k = v
  rw [applyWrites_of_untouched _ hafter, Function.update_self]

omit [DecidableEq K] in
theorem untouched_or_lastWrite (k : K) (log : List (K × Option V)) :
    (∀ e ∈ log, e.1 ≠ k) ∨ ∃ v, LastWrite k v log := by
  induction log with
  | nil => exact .inl fun e he => absurd he List.not_mem_nil
  | cons e log ih =>
    rcases ih with h | ⟨v, before, after, rfl, hafter⟩
    · by_cases he : e.1 = k
      · subst he
        exact .inr ⟨e.2, [], log, rfl, h⟩
      · exact .inl (List.forall_mem_cons.mpr ⟨he, h⟩)
    · exact .inr ⟨v, e :: before, after, rfl, hafter⟩

end Byor.Wire
