import Mathlib.Data.List.Nodup

/-!
# Batches of events

An event loop waits for a batch of events and serves them one after another before it waits again.
`BatchRun` is the states of the loop, with the events of the batch that are still to be served.

* `BatchRun.invariant`: what every event keeps holds in every state.
* `BatchRun.pending`: what holds of the keys of a batch when it is delivered still holds when its
  events are served, if no key comes twice and serving an event spoils it for its own key only.
* `ObservedRun` is a run together with what was observed of its events, one after another.
-/

namespace Byor.Wire

variable {σ ε κ : Type*}

/-- The states of an event loop. `Wait` holds of the batches it may be given, `Serve` relates the
states before and after an event. -/
inductive BatchRun (Wait : σ → List ε → Prop) (Serve : σ → ε → σ → Prop) (init : σ) :
    σ → List ε → Prop
  | start : BatchRun Wait Serve init init []
  | wait {s batch} (hr : BatchRun Wait Serve init s []) (hb : Wait s batch) :
      BatchRun Wait Serve init s batch
  | serve {s e es s'} (hr : BatchRun Wait Serve init s (e :: es)) (hs : Serve s e s') :
      BatchRun Wait Serve init s' es

namespace BatchRun

variable {Wait : σ → List ε → Prop} {Serve : σ → ε → σ → Prop} {init s : σ} {es : List ε}

/-- **The rule for runs.** -/
theorem invariant {P : σ → Prop} (h : BatchRun Wait Serve init s es) (hinit : P init)
    (hstep : ∀ s e s', P s → Serve s e s' → P s') : P s := by
  induction h with
  | start => exact hinit
  | wait _ _ ih => exact ih
  | serve _ hs ih => exact hstep _ _ _ ih hs

/-- **The rule for the events still to be served.** -/
theorem pending (key : ε → κ) (Q : σ → κ → Prop) (h : BatchRun Wait Serve init s es)
    (hwait : ∀ s batch, BatchRun Wait Serve init s [] → Wait s batch →
      (batch.map key).Nodup ∧ ∀ e ∈ batch, Q s (key e))
    (hserve : ∀ s e es s' k, BatchRun Wait Serve init s (e :: es) → Serve s e s' → k ≠ key e →
      Q s k → Q s' k) :
    (es.map key).Nodup ∧ ∀ e ∈ es, Q s (key e) := by
  induction h with
  | start => simp
  | wait hr hb _ => exact hwait _ _ hr hb
  | @serve s e' es s' hr hs ih =>
    obtain ⟨hnodup, hq⟩ := ih
    rw [List.map_cons, List.nodup_cons] at hnodup
    refine ⟨hnodup.2, fun e he => ?_⟩
    have hne : key e ≠ key e' := fun heq => hnodup.1 (heq ▸ List.mem_map_of_mem he)
    exact hserve _ _ _ _ _ hr hs hne (hq e (List.mem_cons_of_mem _ he))

end BatchRun

/-! ## What is observed of a run -/

section Observed

variable {ο : Type*} {Wait : σ → List ε → Prop} {Serve : σ → ε → σ → Prop} {obs : σ → σ → List ο}
  {init s : σ} {es : List ε} {seen : List ο}

/-- The runs with what was observed of them; `obs` is what is observed of one event, by the states
before and after. -/
def ObservedRun (obs : σ → σ → List ο) (Wait : σ → List ε → Prop) (Serve : σ → ε → σ → Prop)
    (init s : σ) (es : List ε) (seen : List ο) : Prop :=
  BatchRun (fun p batch => Wait p.1 batch)
    (fun p e p' => Serve p.1 e p'.1 ∧ p'.2 = p.2 ++ obs p.1 p'.1) (init, []) (s, seen) es

/-- **The rule for observed runs.** -/
theorem ObservedRun.invariant {P : σ → List ο → Prop}
    (h : ObservedRun obs Wait Serve init s es seen) (hinit : P init [])
    (hstep : ∀ s e s' seen, P s seen → Serve s e s' → P s' (seen ++ obs s s')) : P s seen := by
  refine BatchRun.invariant (P := fun p => P p.1 p.2) h hinit ?_
  rintro ⟨s, seen⟩ e ⟨s', _⟩ hP ⟨hs, he⟩
  exact he ▸ hstep s e s' seen hP hs

/-- One more event is served. -/
theorem ObservedRun.serve {e : ε} {s' : σ} {seen' : List ο}
    (h : ObservedRun obs Wait Serve init s (e :: es) seen) (hs : Serve s e s')
    (hseen : seen' = seen ++ obs s s') : ObservedRun obs Wait Serve init s' es seen' :=
  BatchRun.serve h ⟨hs, hseen⟩

theorem BatchRun.of_observed {p : σ × List ο}
    (h : BatchRun (fun p batch => Wait p.1 batch)
      (fun p e p' => Serve p.1 e p'.1 ∧ p'.2 = p.2 ++ obs p.1 p'.1) (init, []) p es) :
    BatchRun Wait Serve init p.1 es := by
  induction h with
  | start => exact .start
  | wait _ hb ih => exact .wait ih hb
  | serve _ hs ih => exact .serve ih hs.1

/-- What is observed of a run leaves it as it is. -/
theorem ObservedRun.run (h : ObservedRun obs Wait Serve init s es seen) :
    BatchRun Wait Serve init s es := BatchRun.of_observed h

/-- Every run has been observed. -/
theorem BatchRun.observed (obs : σ → σ → List ο) (h : BatchRun Wait Serve init s es) :
    ∃ seen, ObservedRun obs Wait Serve init s es seen := by
  induction h with
  | start => exact ⟨[], .start⟩
  | wait _ hb ih =>
    obtain ⟨seen, hr⟩ := ih
    exact ⟨seen, .wait hr hb⟩
  | serve _ hs ih =>
    obtain ⟨seen, hr⟩ := ih
    exact ⟨seen ++ obs _ _, hr.serve hs rfl⟩

end Observed

end Byor.Wire
