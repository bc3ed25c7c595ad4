import Mathlib.Data.List.Forall2
import Byor.Foundations.Service

/-!
# Linearizable objects

Peers call the operations of an object and get results back; each peer may have several calls open
at once, and gets their results in the order of its calls. `Object` is what the object does when it
is called by one peer at a time. `Linearizes O log seen`: the sequence `log` of calls explains what
was seen of the peers. It holds calls of theirs only, in the order of each of them; every result
that came back is the one of the sequence; and a call that was made after another had its result
stands behind it.

* `Linearizes.grow`, `Linearizes.called`, `Linearizes.returned`: the rules for a server that appends
  to a log when it carries an operation out.
* `LinearizesAs`: the same for peers that see a part of each result only.
-/

namespace Byor.Wire

variable {κ ι ο ρ σ : Type*}

/-- An object that is used by one peer at a time. -/
structure Object (σ ι ο : Type*) where
  start : σ
  apply : σ → ι → σ × ο

/-- What is seen of the peers of an object. -/
inductive Action (κ ι ο : Type*)
  | call (k : κ) (i : ι)
  | ret (k : κ) (o : ο)

/-- The calls of a peer. -/
def callsBy [DecidableEq κ] (k : κ) (seen : List (Action κ ι ο)) : List ι :=
  seen.filterMap fun
    | .call k' i => if k' = k then some i else none
    | .ret .. => none

/-- The results a peer got back. -/
def retsTo [DecidableEq κ] (k : κ) (seen : List (Action κ ι ο)) : List ο :=
  seen.filterMap fun
    | .call .. => none
    | .ret k' o => if k' = k then some o else none

namespace Object

variable (O : Object σ ι ο)

/-- The results of calls one after another, each with the peer it is for. -/
def results (s : σ) : List (κ × ι) → List (κ × ο)
  | [] => []
  | (k, i) :: log => (k, (O.apply s i).2) :: results (O.apply s i).1 log

/-- The state after calls one after another. -/
def stateAfter (s : σ) (log : List (κ × ι)) : σ := log.foldl (fun s p => (O.apply s p.2).1) s

theorem results_append (s : σ) (log log' : List (κ × ι)) :
    O.results s (log ++ log') = O.results s log ++ O.results (O.stateAfter s log) log' := by
  induction log generalizing s with
  | nil => rfl
  | cons p log ih =>
    rw [List.cons_append, results, results, ih, List.cons_append]
    rfl

variable [DecidableEq κ]

/-- Every call has one result. -/
theorem length_ofPeer_results (s : σ) (log : List (κ × ι)) (k : κ) :
    (ofPeer k (O.results s log)).length = (ofPeer k log).length := by
  induction log generalizing s with
  | nil => rfl
  | cons p log ih =>
    have hrest := ih (O.apply s p.2).1
    by_cases hk : p.1 = k
    · simpa [results, ofPeer, hk] using hrest
    · simpa [results, ofPeer, hk] using hrest

theorem ofPeer_results_prefix (s : σ) {log log' : List (κ × ι)} (h : log <+: log') (k : κ) :
    ofPeer k (O.results s log) <+: ofPeer k (O.results s log') := by
  obtain ⟨later, rfl⟩ := h
  rw [O.results_append, ofPeer_append]
  exact List.prefix_append ..

end Object

section Seen

variable [DecidableEq κ] {seen before : List (Action κ ι ο)}

@[simp] theorem callsBy_append (k : κ) (seen seen' : List (Action κ ι ο)) :
    callsBy k (seen ++ seen') = callsBy k seen ++ callsBy k seen' := List.filterMap_append ..

@[simp] theorem retsTo_append (k : κ) (seen seen' : List (Action κ ι ο)) :
    retsTo k (seen ++ seen') = retsTo k seen ++ retsTo k seen' := List.filterMap_append ..

@[simp] theorem callsBy_call (k k' : κ) (i : ι) :
    callsBy k [(.call k' i : Action κ ι ο)] = if k' = k then [i] else [] := by
  by_cases hk : k' = k <;> simp [callsBy, hk]

@[simp] theorem callsBy_ret (k k' : κ) (o : ο) : callsBy k [(.ret k' o : Action κ ι ο)] = [] := rfl

@[simp] theorem retsTo_call (k k' : κ) (i : ι) : retsTo k [(.call k' i : Action κ ι ο)] = [] := rfl

@[simp] theorem retsTo_ret (k k' : κ) (o : ο) :
    retsTo k [(.ret k' o : Action κ ι ο)] = if k' = k then [o] else [] := by
  by_cases hk : k' = k <;> simp [retsTo, hk]

theorem retsTo_mono (h : before <+: seen) (k : κ) : retsTo k before <+: retsTo k seen :=
  h.filterMap _

end Seen

/-! ## Linearizations -/

variable [DecidableEq κ]

/-- **The log explains what was seen.** -/
structure Linearizes (O : Object σ ι ο) (log : List (κ × ι)) (seen : List (Action κ ι ο)) :
    Prop where
  /-- The operations of a peer are calls of its own, in its order. -/
  calls : ∀ k, ofPeer k log <+: callsBy k seen
  /-- The results a peer got back are those of its operations. -/
  rets : ∀ k, retsTo k seen <+: ofPeer k (O.results O.start log)
  /-- An operation that was called after another had returned comes later: if `k` has had more than
  `m` results before `k'` made its `n`-th call, more than `m` operations of `k` come before that
  operation. -/
  realTime : ∀ before after, seen = before ++ after → ∀ k m k' n, m < (retsTo k before).length →
    (callsBy k' before).length ≤ n → ∀ earlier i later, log = earlier ++ (k', i) :: later →
      (ofPeer k' earlier).length = n → m < (ofPeer k earlier).length

variable {O : Object σ ι ο} {log log' : List (κ × ι)} {seen : List (Action κ ι ο)}

namespace Linearizes

theorem nil : Linearizes O ([] : List (κ × ι)) [] where
  calls _ := List.nil_prefix
  rets _ := List.nil_prefix
  realTime before after h k m k' n hm := by
    obtain ⟨rfl, -⟩ := List.append_eq_nil_iff.mp h.symm
    exact absurd hm (Nat.not_lt_zero m)

/-- As many operations as results. -/
theorem length_rets_le (h : Linearizes O log seen) (k : κ) :
    (retsTo k seen).length ≤ (ofPeer k log).length :=
  O.length_ofPeer_results O.start log k ▸ (h.rets k).length_le

/-- **The log grows** by calls that were made. -/
theorem grow (h : Linearizes O log seen) (hlog : log <+: log')
    (hcalls : ∀ k, ofPeer k log' <+: callsBy k seen) : Linearizes O log' seen where
  calls := hcalls
  rets k := (h.rets k).trans (O.ofPeer_results_prefix O.start hlog k)
  realTime before after hseen k m k' n hm hn earlier i later hlog' hlen := by
    by_cases hle : log.length ≤ earlier.length
    · -- the operation is new, and everything that has returned is old
      have hold : log <+: earlier :=
        List.prefix_of_prefix_length_le hlog (hlog' ▸ List.prefix_append ..) hle
      have hret : (retsTo k before).length ≤ (retsTo k seen).length :=
        (retsTo_mono ⟨after, hseen.symm⟩ k).length_le
      have hrets := h.length_rets_le k
      have hmono : (ofPeer k log).length ≤ (ofPeer k earlier).length := by
        obtain ⟨rest, rfl⟩ := hold
        rw [ofPeer_append, List.length_append]
        exact Nat.le_add_right ..
      omega
    · have hpart : earlier ++ [(k', i)] <+: log := by
        refine List.prefix_of_prefix_length_le ?_ hlog ?_
        · exact ⟨later, by rw [hlog', List.append_assoc, List.singleton_append]⟩
        · rw [List.length_append, List.length_singleton]
          omega
      obtain ⟨rest, hrest⟩ := hpart
      refine h.realTime before after hseen k m k' n hm hn earlier i rest ?_ hlen
      rw [← hrest, List.append_assoc, List.singleton_append]

/-- One more action does not change what comes before what. -/
theorem realTime_concat (h : Linearizes O log seen) {a : Action κ ι ο}
    (hcalls : ∀ k, ofPeer k log <+: callsBy k (seen ++ [a])) (before after : List (Action κ ι ο))
    (hseen : seen ++ [a] = before ++ after) (k : κ) (m : ℕ) (k' : κ) (n : ℕ)
    (hm : m < (retsTo k before).length) (hn : (callsBy k' before).length ≤ n)
    (earlier : List (κ × ι)) (i : ι) (later : List (κ × ι))
    (hlog : log = earlier ++ (k', i) :: later) (hlen : (ofPeer k' earlier).length = n) :
    m < (ofPeer k earlier).length := by
  rcases List.eq_nil_or_concat' after with rfl | ⟨rest, b, rfl⟩
  · -- all calls were made before, so also this one
    rw [List.append_nil] at hseen
    have hle := (hcalls k').length_le
    rw [hseen, hlog, ofPeer_append, List.length_append] at hle
    have hpos : (ofPeer k' ((k', i) :: later)).length ≠ 0 := by simp [ofPeer]
    omega
  · rw [← List.append_assoc] at hseen
    obtain ⟨hseen, -⟩ := List.append_inj' hseen rfl
    exact h.realTime before rest hseen k m k' n hm hn earlier i later hlog hlen

/-- **A call is made.** -/
theorem called (h : Linearizes O log seen) (k : κ) (i : ι) :
    Linearizes O log (seen ++ [.call k i]) := by
  have hcalls : ∀ k', ofPeer k' log <+: callsBy k' (seen ++ [.call k i]) := by
    intro k'
    rw [callsBy_append]
    exact (h.calls k').trans (List.prefix_append ..)
  refine ⟨hcalls, fun k' => ?_, h.realTime_concat hcalls⟩
  rw [retsTo_append, retsTo_call, List.append_nil]
  exact h.rets k'

/-- **A result comes back**: the next one of the log. -/
theorem returned (h : Linearizes O log seen) {k : κ} {o : ο}
    (hret : retsTo k seen ++ [o] <+: ofPeer k (O.results O.start log)) :
    Linearizes O log (seen ++ [.ret k o]) := by
  have hcalls : ∀ k', ofPeer k' log <+: callsBy k' (seen ++ [.ret k o]) := by
    intro k'
    rw [callsBy_append, callsBy_ret, List.append_nil]
    exact h.calls k'
  refine ⟨hcalls, fun k' => ?_, h.realTime_concat hcalls⟩
  rw [retsTo_append, retsTo_ret]
  split
  · rename_i hk
    subst hk
    exact hret
  · rw [List.append_nil]
    exact h.rets k'

end Linearizes

/-! ## One call after another -/

/-- The history of calls made one after another, each after the one before it has returned. -/
def inTurn (script : List (κ × ι × ο)) : List (Action κ ι ο) :=
  script.flatMap fun p => [.call p.1 p.2.1, .ret p.1 p.2.2]

section InTurn

variable {script : List (κ × ι × ο)} {k : κ} {i : ι} {o : ο}

omit [DecidableEq κ] in
theorem inTurn_concat (script : List (κ × ι × ο)) (p : κ × ι × ο) :
    inTurn (script ++ [p]) = inTurn script ++ [.call p.1 p.2.1, .ret p.1 p.2.2] :=
  List.flatMap_append ..

theorem callsBy_inTurn (k : κ) (script : List (κ × ι × ο)) :
    callsBy k (inTurn script) = (ofPeer k script).map Prod.fst := by
  induction script with
  | nil => rfl
  | cons p script ih =>
    change callsBy k ([.call p.1 p.2.1] ++ ([.ret p.1 p.2.2] ++ inTurn script)) = _
    rw [callsBy_append, callsBy_append, callsBy_call, callsBy_ret, ih, List.nil_append]
    split
    · rename_i hk
      rw [← hk, ofPeer_cons_self, List.map_cons, List.singleton_append]
    · rename_i hk
      rw [ofPeer_cons_ne hk, List.nil_append]

theorem retsTo_inTurn (k : κ) (script : List (κ × ι × ο)) :
    retsTo k (inTurn script) = (ofPeer k script).map Prod.snd := by
  induction script with
  | nil => rfl
  | cons p script ih =>
    change retsTo k ([.call p.1 p.2.1] ++ ([.ret p.1 p.2.2] ++ inTurn script)) = _
    rw [retsTo_append, retsTo_append, retsTo_call, retsTo_ret, ih, List.nil_append]
    split
    · rename_i hk
      rw [← hk, ofPeer_cons_self, List.map_cons, List.singleton_append]
    · rename_i hk
      rw [ofPeer_cons_ne hk, List.nil_append]

namespace Linearizes

/-- The operation of the last call is the last one. -/
theorem last_inTurn (h : Linearizes O log (inTurn (script ++ [(k, i, o)])))
    (hone : ∀ k', (ofPeer k' (script ++ [(k, i, o)])).length ≤ 1) (hk : ofPeer k script = []) :
    ∃ earlier, log = earlier ++ [(k, i)] ∧ ofPeer k earlier = [] := by
  have hlast : ofPeer k (script ++ [(k, i, o)]) = [(i, o)] := by
    rw [ofPeer_concat_self, hk, List.nil_append]
  -- its operation was carried out, as it has returned
  have hcall : ofPeer k log = [i] := by
    have hcalls := h.calls k
    have hlen := h.length_rets_le k
    rw [callsBy_inTurn, hlast] at hcalls
    rw [retsTo_inTurn, hlast] at hlen
    exact hcalls.eq_of_length_le hlen
  obtain ⟨earlier, later, rfl, hearlier, hlater⟩ := exists_split_of_ofPeer hcall
  refine ⟨earlier, ?_, hearlier⟩
  cases later with
  | nil => rfl
  | cons p later =>
    -- an operation behind it would be of a call that had returned before it was made
    have hp : k ≠ p.1 := by
      rintro rfl
      rw [ofPeer_cons_self] at hlater
      cases hlater
    have hle := hone p.1
    have hcalls := (h.calls p.1).length_le
    rw [callsBy_inTurn, List.length_map, ofPeer_append, ofPeer_cons_ne hp, ofPeer_cons_self,
      List.length_append, List.length_cons] at hcalls
    rw [ofPeer_concat_ne hp] at hle hcalls
    have hret : 0 < (retsTo p.1 (inTurn script)).length := by
      rw [retsTo_inTurn, List.length_map]
      omega
    have hnew : (callsBy k (inTurn script)).length ≤ 0 := by
      rw [callsBy_inTurn, hk]
      exact Nat.le_refl 0
    have hbefore : 0 < (ofPeer p.1 earlier).length :=
      h.realTime (inTurn script) _ (inTurn_concat script _) p.1 0 k 0 hret hnew earlier i
        (p :: later) rfl (by rw [hearlier]; rfl)
    omega

/-- The calls before the last one. -/
theorem init_inTurn (h : Linearizes O (log ++ [(k, i)]) (inTurn (script ++ [(k, i, o)])))
    (hk : ofPeer k script = []) (hlog : ofPeer k log = []) : Linearizes O log (inTurn script) where
  calls k' := by
    have hcalls := h.calls k'
    by_cases hk' : k = k'
    · subst hk'
      rw [hlog]
      exact List.nil_prefix
    · rwa [ofPeer_concat_ne hk', callsBy_inTurn, ofPeer_concat_ne hk', ← callsBy_inTurn] at hcalls
  rets k' := by
    have hrets := h.rets k'
    by_cases hk' : k = k'
    · subst hk'
      rw [retsTo_inTurn, hk]
      exact List.nil_prefix
    · rwa [O.results_append, Object.results, Object.results, ofPeer_concat_ne hk', retsTo_inTurn,
        ofPeer_concat_ne hk', ← retsTo_inTurn] at hrets
  realTime before after hseen k₁ m k₂ n hm hn earlier j later hsplit hlen := by
    refine h.realTime before (after ++ [.call k i, .ret k o]) ?_ k₁ m k₂ n hm hn earlier j
      (later ++ [(k, i)]) ?_ hlen
    · rw [inTurn_concat, hseen, List.append_assoc]
    · rw [hsplit, List.append_assoc, List.cons_append]

/-- **Calls that are made one after another** by different peers are carried out in this order, and
return what they return there. -/
theorem eq_of_inTurn (h : Linearizes O log (inTurn script))
    (hnodup : (script.map Prod.fst).Nodup) : log = script.map (fun p => (p.1, p.2.1)) ∧
      O.results O.start log = script.map fun p => (p.1, p.2.2) := by
  induction script using List.reverseRecOn generalizing log with
  | nil =>
    have hlog : log = [] := by
      cases log with
      | nil => rfl
      | cons p log =>
        have hcalls := h.calls p.1
        rw [ofPeer_cons_self] at hcalls
        cases List.prefix_nil.mp hcalls
    subst hlog
    exact ⟨rfl, rfl⟩
  | append_singleton script p ih =>
    obtain ⟨k, i, o⟩ := p
    have hone := nodup_iff_length_ofPeer_le.mp hnodup
    rw [List.map_append, List.nodup_append] at hnodup
    obtain ⟨hinit, -, hdisjoint⟩ := hnodup
    have hk : ofPeer k script = [] := ofPeer_eq_nil_of_not_mem fun hmem =>
      hdisjoint k hmem k (List.mem_singleton_self k) rfl
    obtain ⟨earlier, rfl, hearlier⟩ := h.last_inTurn hone hk
    obtain ⟨hlog, hresults⟩ := ih (h.init_inTurn hk hearlier) hinit
    have hnone : ofPeer k (O.results O.start earlier) = [] := by
      apply List.length_eq_zero_iff.mp
      rw [O.length_ofPeer_results, hearlier]
      rfl
    have hrets := h.rets k
    rw [O.results_append, Object.results, Object.results, ofPeer_concat_self, hnone, retsTo_inTurn,
      ofPeer_concat_self, hk] at hrets
    obtain rfl : o = (O.apply (O.stateAfter O.start earlier) i).2 :=
      (List.cons_prefix_cons.mp hrets).1
    refine ⟨?_, ?_⟩
    · rw [List.map_append, ← hlog]
      rfl
    · rw [O.results_append, hresults, List.map_append]
      rfl

end Linearizes

end InTurn

/-! ## Results that are seen in part -/

/-- The same action; of a result `o` an `x` is seen that `R` allows. -/
inductive SeenAs (R : ρ → ο → Prop) : Action κ ι ρ → Action κ ι ο → Prop
  | call (k : κ) (i : ι) : SeenAs R (.call k i) (.call k i)
  | ret (k : κ) {x : ρ} {o : ο} (h : R x o) : SeenAs R (.ret k x) (.ret k o)

section SeenAs

variable {R : ρ → ο → Prop} {part : List (Action κ ι ρ)}

theorem callsBy_of_seenAs (h : List.Forall₂ (SeenAs R) part seen) (k : κ) :
    callsBy k seen = callsBy k part := by
  induction h with
  | nil => rfl
  | @cons a b part seen hab _ ih =>
    change callsBy k ([b] ++ seen) = callsBy k ([a] ++ part)
    rw [callsBy_append, callsBy_append, ih]
    cases hab with
    | call k' i => rfl
    | ret k' h => rfl

theorem retsTo_of_seenAs (h : List.Forall₂ (SeenAs R) part seen) (k : κ) :
    List.Forall₂ R (retsTo k part) (retsTo k seen) := by
  induction h with
  | nil => exact .nil
  | @cons a b part seen hab _ ih =>
    cases hab with
    | call k' i => exact ih
    | @ret k' x o hR =>
      change List.Forall₂ R (retsTo k ([.ret k' x] ++ part)) (retsTo k ([.ret k' o] ++ seen))
      rw [retsTo_append, retsTo_append, retsTo_ret, retsTo_ret]
      split
      · exact .cons hR ih
      · exact ih

/-- **The log explains what was seen in part.** -/
def LinearizesAs (O : Object σ ι ο) (R : ρ → ο → Prop) (log : List (κ × ι))
    (part : List (Action κ ι ρ)) : Prop :=
  ∃ seen, Linearizes O log seen ∧ List.Forall₂ (SeenAs R) part seen

namespace LinearizesAs

theorem nil : LinearizesAs O R ([] : List (κ × ι)) [] := ⟨[], .nil, .nil⟩

theorem grow (h : LinearizesAs O R log part) (hlog : log <+: log')
    (hcalls : ∀ k, ofPeer k log' <+: callsBy k part) : LinearizesAs O R log' part := by
  obtain ⟨seen, hlin, has⟩ := h
  refine ⟨seen, hlin.grow hlog fun k => ?_, has⟩
  rw [callsBy_of_seenAs has]
  exact hcalls k

theorem called (h : LinearizesAs O R log part) (k : κ) (i : ι) :
    LinearizesAs O R log (part ++ [.call k i]) := by
  obtain ⟨seen, hlin, has⟩ := h
  exact ⟨_, hlin.called k i, List.rel_append has (.cons (.call k i) .nil)⟩

/-- A part of the next result is seen. -/
theorem returned (h : LinearizesAs O R log part) {k : κ} {x : ρ} {o : ο} (hR : R x o)
    (hnext : (ofPeer k (O.results O.start log))[(retsTo k part).length]? = some o) :
    LinearizesAs O R log (part ++ [.ret k x]) := by
  obtain ⟨seen, hlin, has⟩ := h
  refine ⟨_, hlin.returned ?_, List.rel_append has (.cons (.ret k hR) .nil)⟩
  obtain ⟨later, hlater⟩ := hlin.rets k
  rw [← hlater, (retsTo_of_seenAs has k).length_eq, List.getElem?_append_right (Nat.le_refl _),
    Nat.sub_self] at hnext
  obtain ⟨rest, rfl⟩ : ∃ rest, later = o :: rest := List.head?_eq_some_iff.mp
    (by rwa [List.head?_eq_getElem?])
  exact ⟨rest, by rw [← hlater, List.append_assoc, List.singleton_append]⟩

omit [DecidableEq κ] in
theorem exists_inTurn_of_seenAs {script : List (κ × ι × ρ)}
    (h : List.Forall₂ (SeenAs R) (inTurn script) seen) : ∃ script' : List (κ × ι × ο),
      seen = inTurn script' ∧ List.Forall₂ (fun p q => p.1 = q.1 ∧ p.2.1 = q.2.1 ∧ R p.2.2 q.2.2)
        script script' := by
  induction script generalizing seen with
  | nil =>
    cases h
    exact ⟨[], rfl, .nil⟩
  | cons p script ih =>
    obtain ⟨k, i, x⟩ := p
    change List.Forall₂ (SeenAs R) (.call k i :: .ret k x :: inTurn script) seen at h
    cases h with
    | cons hcall h =>
      cases h with
      | cons hret h =>
        cases hcall
        cases hret with
        | @ret _ _ o hR =>
          obtain ⟨script', rfl, hscript⟩ := ih h
          exact ⟨(k, i, o) :: script', rfl, .cons ⟨rfl, rfl, hR⟩ hscript⟩

/-- Calls made one after another, of whose results a part is seen. -/
theorem eq_of_inTurn {script : List (κ × ι × ρ)} (h : LinearizesAs O R log (inTurn script))
    (hnodup : (script.map Prod.fst).Nodup) : log = script.map (fun p => (p.1, p.2.1)) ∧
      List.Forall₂ (fun p q => R p.2.2 q.2) script (O.results O.start log) := by
  obtain ⟨seen, hlin, has⟩ := h
  obtain ⟨script', rfl, hscript⟩ := exists_inTurn_of_seenAs has
  have hkeys : script.map (fun p => (p.1, p.2.1)) = script'.map fun p => (p.1, p.2.1) := by
    rw [← List.forall₂_eq_eq_eq, List.forall₂_map_left_iff, List.forall₂_map_right_iff]
    exact hscript.imp fun p q hpq => Prod.ext hpq.1 hpq.2.1
  have hnodup' : (script'.map Prod.fst).Nodup := by
    have hfst := congrArg (List.map Prod.fst) hkeys
    rw [List.map_map, List.map_map] at hfst
    exact hfst ▸ hnodup
  obtain ⟨hlog, hresults⟩ := hlin.eq_of_inTurn hnodup'
  refine ⟨hlog.trans hkeys.symm, ?_⟩
  rw [hresults, List.forall₂_map_right_iff]
  exact hscript.imp fun p q hpq => hpq.2.2

end LinearizesAs

end SeenAs

end Byor.Wire
