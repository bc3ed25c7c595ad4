import Mathlib.Data.List.Induction
import Mathlib.Logic.Function.Basic
import Byor.Foundations.Decoder

/-!
# Services

A service keeps a store and serves many peers. Each peer sends a stream; the service takes requests
off it, carries each out on the store and owes its sender the answer. `Service` says this without
any of what a server adds: there are no reads and writes, no readiness and no buffer for what is
still to be sent. Its state is a function of the elements in the order of their arrival.

* `Service.after_piece`: what arrives in one piece arrives element by element.
* `Service.drain_ofPeer`: the requests of a peer are those of its own stream.
* `Service.after_store`, `Service.after_owed`: the store and the answers are those of carrying out
  the requests of all peers one after another.
* `Service.after_owed_of_stateless`: without a store, these are the answers to its own stream.
-/

namespace Byor.Wire

variable {κ α β γ σ : Type*}

/-- A service: how requests are taken off a stream, and what one does to the store. -/
structure Service (α β γ σ : Type*) where
  decoder : Decoder α β
  /-- Carry out a request: the store after it, and the answer. -/
  exec : σ → β → σ × List γ
  start : σ

/-- The state of a service with the peers `κ`. -/
structure Service.State (κ α β γ σ : Type*) where
  store : σ
  /-- What has arrived from a peer and is not a complete request yet. -/
  pending : κ → List α
  /-- All that was ever to be sent to a peer. -/
  owed : κ → List γ
  /-- The requests in the order they were carried out. -/
  log : List (κ × β)

/-- The part of a list that belongs to a peer. -/
def ofPeer [DecidableEq κ] (k : κ) (l : List (κ × α)) : List α :=
  (l.filter fun p => p.1 = k).map Prod.snd

section OfPeer

variable [DecidableEq κ]

@[simp] theorem ofPeer_append (k : κ) (l l' : List (κ × α)) :
    ofPeer k (l ++ l') = ofPeer k l ++ ofPeer k l' := by
  simp [ofPeer]

theorem ofPeer_cons_self (p : κ × α) (l : List (κ × α)) :
    ofPeer p.1 (p :: l) = p.2 :: ofPeer p.1 l := by
  simp [ofPeer]

theorem ofPeer_cons_ne {k : κ} {p : κ × α} (h : p.1 ≠ k) (l : List (κ × α)) :
    ofPeer k (p :: l) = ofPeer k l := by
  simp [ofPeer, h]

theorem ofPeer_concat_self (k : κ) (l : List (κ × α)) (x : α) :
    ofPeer k (l ++ [(k, x)]) = ofPeer k l ++ [x] := by
  simp [ofPeer]

theorem ofPeer_concat_ne {k k' : κ} (h : k' ≠ k) (l : List (κ × α)) (x : α) :
    ofPeer k (l ++ [(k', x)]) = ofPeer k l := by
  simp [ofPeer, h]

theorem ofPeer_eq_nil_of_not_mem {k : κ} {l : List (κ × α)} (h : k ∉ l.map Prod.fst) :
    ofPeer k l = [] := by
  rw [ofPeer, List.filter_eq_nil_iff.mpr, List.map_nil]
  intro p hp hk
  exact h (of_decide_eq_true hk ▸ List.mem_map_of_mem hp)

theorem length_ofPeer (k : κ) (l : List (κ × α)) :
    (ofPeer k l).length = (l.map Prod.fst).count k := by
  induction l with
  | nil => rfl
  | cons p l ih => by_cases hp : p.1 = k <;> simp_all [ofPeer]

theorem nodup_iff_length_ofPeer_le {l : List (κ × α)} :
    (l.map Prod.fst).Nodup ↔ ∀ k, (ofPeer k l).length ≤ 1 := by
  simp only [length_ofPeer]
  exact List.nodup_iff_count

/-- The elements in front of the first one of a peer. -/
theorem exists_split_of_ofPeer {k : κ} {l : List (κ × α)} {x : α} {xs : List α}
    (h : ofPeer k l = x :: xs) : ∃ earlier later, l = earlier ++ (k, x) :: later ∧
      ofPeer k earlier = [] ∧ ofPeer k later = xs := by
  induction l with
  | nil => cases h
  | cons p l ih =>
    by_cases hp : p.1 = k
    · subst hp
      rw [ofPeer_cons_self] at h
      obtain ⟨rfl, rfl⟩ := List.cons.inj h
      exact ⟨[], l, rfl, rfl, rfl⟩
    · rw [ofPeer_cons_ne hp] at h
      obtain ⟨earlier, later, rfl, hearlier, hlater⟩ := ih h
      refine ⟨p :: earlier, later, rfl, ?_, hlater⟩
      rw [ofPeer_cons_ne hp, hearlier]

@[simp] theorem ofPeer_map_self (k : κ) (xs : List α) : ofPeer k (xs.map (k, ·)) = xs := by
  induction xs with
  | nil => rfl
  | cons x xs ih => simpa [ofPeer] using ih

theorem ofPeer_map_ne {k k' : κ} (h : k' ≠ k) (xs : List α) : ofPeer k (xs.map (k', ·)) = [] := by
  induction xs with
  | nil => rfl
  | cons x xs ih => simp [ofPeer, h]

/-- The part of a list of labelled elements. -/
theorem ofPeer_map {δ : Type*} (k : κ) (label : δ → κ) (f : δ → α) (l : List δ) :
    ofPeer k (l.map fun p => (label p, f p)) = (l.filter fun p => label p = k).map f := by
  simp [ofPeer, List.filter_map, Function.comp_def]

/-- The elements of the peers `ks`, one peer after another. -/
def OneByOne (ks : List κ) (l : List (κ × α)) : Prop :=
  l = (ks.map fun k => (ofPeer k l).map (k, ·)).flatten

theorem OneByOne.nil : OneByOne [] ([] : List (κ × α)) := rfl

/-- A peer none of the elements belongs to comes last. -/
theorem OneByOne.concat {ks : List κ} {l : List (κ × α)} {k : κ} (h : OneByOne ks l)
    (hk : ofPeer k l = []) : OneByOne (ks ++ [k]) l := by
  have hlast : (ofPeer k l).map (k, ·) = [] := by rw [hk, List.map_nil]
  rw [OneByOne, List.map_append, List.flatten_append, List.map_singleton, List.flatten_singleton,
    hlast, List.append_nil]
  exact h

/-- The last peer gets more elements. -/
theorem OneByOne.extend {ks : List κ} {l : List (κ × α)} {k : κ} (h : OneByOne (ks ++ [k]) l)
    (hk : k ∉ ks) (xs : List α) : OneByOne (ks ++ [k]) (l ++ xs.map (k, ·)) := by
  have hothers : (ks.map fun k' => (ofPeer k' (l ++ xs.map (k, ·))).map (k', ·)) =
      ks.map fun k' => (ofPeer k' l).map (k', ·) := by
    refine List.map_congr_left fun k' hk' => ?_
    have hne : k ≠ k' := fun he => hk (he ▸ hk')
    rw [ofPeer_append, ofPeer_map_ne hne, List.append_nil]
  rw [OneByOne, List.map_append, List.flatten_append, List.map_singleton, List.flatten_singleton]
    at h ⊢
  rw [hothers, ofPeer_append, ofPeer_map_self, List.map_append, ← List.append_assoc, ← h]

end OfPeer

namespace Service

variable (S : Service α β γ σ)

/-- Requests one after another: the store after them, and the answers. -/
def execAll (s : σ) : List β → σ × List γ
  | [] => (s, [])
  | b :: bs => ((execAll (S.exec s b).1 bs).1, (S.exec s b).2 ++ (execAll (S.exec s b).1 bs).2)

/-- The answers to requests of many peers, each with the peer it is for. -/
def answers (s : σ) : List (κ × β) → List (κ × List γ)
  | [] => []
  | (k, b) :: l => (k, (S.exec s b).2) :: answers (S.exec s b).1 l

@[simp] theorem execAll_nil (s : σ) : S.execAll s [] = (s, []) := rfl

theorem execAll_append (s : σ) (bs bs' : List β) : S.execAll s (bs ++ bs') =
    ((S.execAll (S.execAll s bs).1 bs').1,
      (S.execAll s bs).2 ++ (S.execAll (S.execAll s bs).1 bs').2) := by
  induction bs generalizing s with
  | nil => rfl
  | cons b bs ih => simp only [List.cons_append, execAll, ih, List.append_assoc]

theorem answers_append (s : σ) (l l' : List (κ × β)) : S.answers s (l ++ l') =
    S.answers s l ++ S.answers (S.execAll s (l.map Prod.snd)).1 l' := by
  induction l generalizing s with
  | nil => rfl
  | cons p l ih => simp only [List.cons_append, answers, ih, List.map_cons, execAll]

/-- Requests of one peer are answered to that peer. -/
theorem answers_map (s : σ) (k : κ) (bs : List β) :
    ∃ outs : List (List γ), S.answers s (bs.map (k, ·)) = outs.map (k, ·) ∧
      outs.flatten = (S.execAll s bs).2 := by
  induction bs generalizing s with
  | nil => exact ⟨[], rfl, rfl⟩
  | cons b bs ih =>
    obtain ⟨outs, houts, hflat⟩ := ih (S.exec s b).1
    refine ⟨(S.exec s b).2 :: outs, ?_, ?_⟩
    · simp only [List.map_cons, answers, houts]
    · simp only [List.flatten_cons, hflat, execAll]

/-! ## The state after what has arrived -/

/-- Nothing has arrived. -/
def init : State κ α β γ σ where
  store := S.start
  pending := fun _ => []
  owed := fun _ => []
  log := []

variable [DecidableEq κ]

/-- A piece of the stream of a peer arrives: the requests that are complete now are carried out. -/
def receive (st : State κ α β γ σ) (k : κ) (xs : List α) : State κ α β γ σ :=
  let taken := S.decoder.drain (st.pending k ++ xs)
  { store := (S.execAll st.store taken.1).1
    pending := Function.update st.pending k taken.2
    owed := Function.update st.owed k (st.owed k ++ (S.execAll st.store taken.1).2)
    log := st.log ++ taken.1.map (k, ·) }

@[simp] theorem receive_pending_self (st : State κ α β γ σ) (k : κ) (xs : List α) :
    (S.receive st k xs).pending k = (S.decoder.drain (st.pending k ++ xs)).2 :=
  Function.update_self ..

theorem receive_pending_ne {k k' : κ} (h : k' ≠ k) (st : State κ α β γ σ) (xs : List α) :
    (S.receive st k xs).pending k' = st.pending k' := Function.update_of_ne h ..

@[simp] theorem receive_owed_self (st : State κ α β γ σ) (k : κ) (xs : List α) :
    (S.receive st k xs).owed k =
      st.owed k ++ (S.execAll st.store (S.decoder.drain (st.pending k ++ xs)).1).2 :=
  Function.update_self ..

theorem receive_owed_ne {k k' : κ} (h : k' ≠ k) (st : State κ α β γ σ) (xs : List α) :
    (S.receive st k xs).owed k' = st.owed k' := Function.update_of_ne h ..

/-- The state once the elements have arrived in this order. -/
def after (arrivals : List (κ × α)) : State κ α β γ σ :=
  arrivals.foldl (fun st a => S.receive st a.1 [a.2]) S.init

@[simp] theorem after_nil : S.after ([] : List (κ × α)) = (S.init : State κ α β γ σ) := rfl

theorem after_concat (arrivals : List (κ × α)) (a : κ × α) :
    S.after (arrivals ++ [a]) = S.receive (S.after arrivals) a.1 [a.2] := by
  rw [after, List.foldl_append]
  rfl

theorem receive_nil {st : State κ α β γ σ} {k : κ} (h : S.decoder.next (st.pending k) = none) :
    S.receive st k [] = st := by
  simp [receive, S.decoder.drain_of_none h]

/-- Two pieces of one stream, one right after the other, are one. -/
theorem receive_receive (st : State κ α β γ σ) (k : κ) (xs ys : List α) :
    S.receive (S.receive st k xs) k ys = S.receive st k (xs ++ ys) := by
  have hdrain := S.decoder.drain_append (st.pending k ++ xs) ys
  rw [List.append_assoc] at hdrain
  simp only [receive, hdrain, Function.update_self, Function.update_idem, execAll_append,
    List.map_append, List.append_assoc]

/-- No complete request waits. -/
theorem next_pending (arrivals : List (κ × α)) (k : κ) :
    S.decoder.next ((S.after arrivals : State κ α β γ σ).pending k) = none := by
  induction arrivals using List.reverseRecOn with
  | nil =>
    cases h : S.decoder.next [] with
    | none => exact h
    | some p => exact absurd (S.decoder.length_lt h) (Nat.not_lt_zero _)
  | append_singleton arrivals a ih =>
    rw [after_concat]
    by_cases hk : k = a.1
    · rw [hk, receive_pending_self, S.decoder.next_drain]
    · rw [S.receive_pending_ne hk, ih]

/-- **A piece arrives element by element.** -/
theorem after_piece (arrivals : List (κ × α)) (k : κ) (xs : List α) :
    S.after (arrivals ++ xs.map (k, ·)) = S.receive (S.after arrivals) k xs := by
  induction xs using List.reverseRecOn with
  | nil => rw [List.map_nil, List.append_nil, S.receive_nil (S.next_pending arrivals k)]
  | append_singleton xs x ih =>
    rw [List.map_append, ← List.append_assoc, List.map_singleton, after_concat, ih]
    exact S.receive_receive _ k xs [x]

/-! ## What the state is -/

/-- **The requests of a peer are those of its own stream**, whatever arrives from the others. -/
theorem drain_ofPeer (arrivals : List (κ × α)) (k : κ) :
    S.decoder.drain (ofPeer k arrivals) =
      (ofPeer k (S.after arrivals).log, (S.after arrivals : State κ α β γ σ).pending k) := by
  induction arrivals using List.reverseRecOn with
  | nil => exact S.decoder.drain_of_none (S.next_pending [] k)
  | append_singleton arrivals a ih =>
    rw [after_concat, ofPeer_append]
    by_cases hk : a.1 = k
    · subst hk
      rw [show ofPeer a.1 [a] = [a.2] by simp [ofPeer], S.decoder.drain_append, ih]
      simp [receive]
    · rw [show ofPeer k [a] = [] by simp [ofPeer, hk], List.append_nil, ih,
        S.receive_pending_ne (Ne.symm hk)]
      simp [receive, ofPeer_map_ne hk]

/-- Which requests are taken is a matter of the decoder alone. -/
theorem after_log_congr {δ τ : Type*} (S' : Service α β δ τ) (h : S'.decoder = S.decoder)
    (arrivals : List (κ × α)) :
    (S'.after arrivals : State κ α β δ τ).pending = (S.after arrivals).pending ∧
      (S'.after arrivals : State κ α β δ τ).log = (S.after arrivals).log := by
  induction arrivals using List.reverseRecOn with
  | nil => exact ⟨rfl, rfl⟩
  | append_singleton arrivals a ih =>
    obtain ⟨hpending, hlog⟩ := ih
    simp only [after_concat, receive, h, hpending, hlog, and_self]

/-- **The store** is that of the requests of all peers, one after another. -/
theorem after_store (arrivals : List (κ × α)) : (S.after arrivals).store =
    (S.execAll S.start ((S.after arrivals).log.map Prod.snd)).1 := by
  induction arrivals using List.reverseRecOn with
  | nil => rfl
  | append_singleton arrivals a ih =>
    rw [after_concat]
    simp only [receive, List.map_append, List.map_map, execAll_append, ← ih]
    simp [Function.comp_def]

/-- **What is owed to a peer** is the answers to its own requests, in that sequence. -/
theorem after_owed (arrivals : List (κ × α)) (k : κ) : (S.after arrivals).owed k =
    (ofPeer k (S.answers S.start (S.after arrivals).log)).flatten := by
  induction arrivals using List.reverseRecOn with
  | nil => rfl
  | append_singleton arrivals a ih =>
    rw [after_concat]
    simp only [receive, answers_append, ← after_store, ofPeer_append, List.flatten_append]
    obtain ⟨outs, houts, hflat⟩ := S.answers_map (S.after arrivals).store a.1
      (S.decoder.drain ((S.after arrivals).pending a.1 ++ [a.2])).1
    rw [houts]
    by_cases hk : a.1 = k
    · subst hk
      rw [Function.update_self, ofPeer_map_self, hflat, ih]
    · rw [Function.update_of_ne (Ne.symm hk), ofPeer_map_ne hk, List.flatten_nil,
        List.append_nil, ih]

/-- **A service whose answers do not depend on its store** owes a peer the answers to the requests
of its stream. -/
theorem after_owed_of_stateless {f : β → List γ} (hf : ∀ s b, (S.exec s b).2 = f b)
    (arrivals : List (κ × α)) (k : κ) : (S.after arrivals).owed k =
      ((S.decoder.drain (ofPeer k arrivals)).1.map f).flatten := by
  have hanswers : ∀ s (l : List (κ × β)), S.answers s l = l.map fun p => (p.1, f p.2) := by
    intro s l
    induction l generalizing s with
    | nil => rfl
    | cons p l ih => rw [answers, ih, hf, List.map_cons]
  rw [after_owed, hanswers, ofPeer_map, S.drain_ofPeer]
  simp [ofPeer, Function.comp_def]

end Service

end Byor.Wire
