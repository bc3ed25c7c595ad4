import Byor.Foundations.Linearizable
import Byor.Foundations.Reorder

/-!
# Peers that use different keys

An object whose state has one value for each key, and whose operations read and write the value at
their own key only. A peer whose keys no other peer uses does not notice the others: in every
sequence of operations it gets the results it would get alone (`Local.ofPeer_results`).
-/

namespace Byor.Wire

variable {κ ι ο K V : Type*} {own : K → Prop} {s s' : K → V}

/-- The same value at every key of one's own. -/
def AgreeOn (own : K → Prop) (s s' : K → V) : Prop := ∀ k, own k → s k = s' k

namespace Local

section

variable {step : (K → V) → ι → (K → V) × ο} {key : ι → Option K} {i : ι}

/-- An operation on a key of somebody else. -/
theorem agreeOn_other (h : Local step key) (hs : AgreeOn own s s')
    (hi : ∀ k, key i = some k → ¬ own k) : AgreeOn own (step s i).1 s' := by
  intro k hk
  rw [h.frame s i k fun hkey => hi k hkey hk]
  exact hs k hk

variable [DecidableEq K]

/-- An operation on a key of one's own, or on none. -/
theorem agreeOn_own (h : Local step key) (hs : AgreeOn own s s')
    (hi : ∀ k, key i = some k → own k) :
    (step s i).2 = (step s' i).2 ∧ AgreeOn own (step s i).1 (step s' i).1 := by
  refine ⟨?_, fun k hk => h.step_congr (hs k hk) i⟩
  cases hkey : key i with
  | none => exact h.result_none s s' i hkey
  | some k => exact h.result s s' i k hkey (hs k (hi k hkey))

end

variable [DecidableEq κ] [DecidableEq K] {O : Object (K → V) ι ο} {key : ι → Option K}

/-- **A peer whose keys no other peer uses** gets the results it would get alone. -/
theorem ofPeer_results (h : Local O.apply key) {p : κ} {log : List (κ × ι)}
    (hown : ∀ e ∈ log, e.1 = p → ∀ k, key e.2 = some k → own k)
    (hothers : ∀ e ∈ log, e.1 ≠ p → ∀ k, key e.2 = some k → ¬ own k) (hs : AgreeOn own s s') :
    ofPeer p (O.results s log) = (runAll O.apply s' (ofPeer p log)).2 := by
  induction log generalizing s s' with
  | nil => rfl
  | cons e log ih =>
    have hown' : ∀ e' ∈ log, e'.1 = p → ∀ k, key e'.2 = some k → own k :=
      fun e' he' => hown e' (List.mem_cons_of_mem e he')
    have hothers' : ∀ e' ∈ log, e'.1 ≠ p → ∀ k, key e'.2 = some k → ¬ own k :=
      fun e' he' => hothers e' (List.mem_cons_of_mem e he')
    rw [Object.results]
    by_cases hp : e.1 = p
    · subst hp
      obtain ⟨hresult, hagree⟩ := h.agreeOn_own hs (hown e List.mem_cons_self rfl)
      rw [ofPeer_cons_self (e.1, _), ofPeer_cons_self, runAll, hresult, ih hown' hothers' hagree]
    · have hagree := h.agreeOn_other hs (hothers e List.mem_cons_self hp)
      rw [ofPeer_cons_ne hp, ofPeer_cons_ne (p := (e.1, (O.apply s e.2).2)) hp,
        ih hown' hothers' hagree]

end Local

end Byor.Wire
