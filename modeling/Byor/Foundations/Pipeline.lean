import Mathlib.Data.Nat.Find
import Mathlib.Logic.Relation
import Mathlib.Order.Monotone.Defs

/-!
# Pipelining into a server with backpressure

A sender sends a number of bytes before it reads anything. The server receives them and owes answers
to them; while it owes something it has not written, it does not receive. Both directions hold a
limited number of bytes that the other side has not taken: so the sender may wait for room to send
while the server waits for room to write.

* `Pipeline.deadlock_iff`: this can happen exactly if the answers to some beginning of the bytes are
  more than the way back holds, and what follows it is more than the way there holds.
* `Pipeline.Realized`: a system whose streams move as those of a pipeline, and can make every such
  move; `Realized.deadlock_iff` carries the condition over.
-/

namespace Byor.Wire

open Relation

/-- How many bytes the sender has sent, the server has received and the server has written. -/
structure Flow where
  sent : ℕ
  received : ℕ
  written : ℕ

/-- A sender of `total` bytes and a server that owes `owed r` bytes when it has received `r`. -/
structure Pipeline where
  total : ℕ
  /-- What the way to the server holds. -/
  there : ℕ
  /-- What the way back holds. -/
  back : ℕ
  /-- The most bytes the server takes at a time. -/
  chunk : ℕ
  owed : ℕ → ℕ
  there_pos : 0 < there
  chunk_pos : 0 < chunk
  owed_mono : Monotone owed

namespace Pipeline

/-- One of the streams gets on. -/
inductive Moves (P : Pipeline) : Flow → Flow → Prop
  | send {f n} (hmore : f.sent < n) (htotal : n ≤ P.total) (hroom : n ≤ f.received + P.there) :
      Moves P f { f with sent := n }
  /-- Nothing waits to be written. -/
  | receive {f n} (hmore : f.received < n) (hsent : n ≤ f.sent) (hchunk : n ≤ f.received + P.chunk)
      (hidle : f.written = P.owed f.received) : Moves P f { f with received := n }
  | write {f n} (hmore : f.written < n) (howed : n ≤ P.owed f.received) (hroom : n ≤ P.back) :
      Moves P f { f with written := n }

/-- No stream can get on, and the sender has more to send. -/
def Deadlocked (P : Pipeline) (f : Flow) : Prop := f.sent < P.total ∧ ∀ g, ¬ P.Moves f g

/-- A flow that is reached from the start. -/
def Reaches (P : Pipeline) (f : Flow) : Prop := ReflTransGen P.Moves ⟨0, 0, 0⟩ f

variable {P : Pipeline} {f g : Flow} {n r : ℕ}

theorem Moves.ne (h : P.Moves f g) : g ≠ f := by
  intro he
  cases h with
  | send hmore => exact hmore.ne' (congrArg Flow.sent he)
  | receive hmore => exact hmore.ne' (congrArg Flow.received he)
  | write hmore => exact hmore.ne' (congrArg Flow.written he)

/-- **What holds of every flow that is reached.** -/
structure Sound (P : Pipeline) (f : Flow) : Prop where
  received : f.received ≤ f.sent
  sent : f.sent ≤ f.received + P.there
  written : f.written ≤ P.owed f.received

theorem Sound.move (h : P.Sound f) (hm : P.Moves f g) : P.Sound g := by
  obtain ⟨hreceived, hsent, hwritten⟩ := h
  cases hm with
  | send hmore _ hroom => exact ⟨hreceived.trans hmore.le, hroom, hwritten⟩
  | receive hmore hto _ _ =>
    exact ⟨hto, hsent.trans (Nat.add_le_add_right hmore.le _),
      hwritten.trans (P.owed_mono hmore.le)⟩
  | write _ howed _ => exact ⟨hreceived, hsent, howed⟩

theorem sound_of_reaches (h : P.Reaches f) : P.Sound f := by
  induction h with
  | refl => exact ⟨le_rfl, Nat.zero_le _, Nat.zero_le _⟩
  | tail _ hm ih => exact ih.move hm

/-- In a deadlock the way there is full, and so is the way back. -/
theorem Deadlocked.full (h : P.Deadlocked f) (hs : P.Sound f) :
    f.received + P.there < P.total ∧ P.back < P.owed f.received := by
  obtain ⟨hmore, hstuck⟩ := h
  obtain ⟨hreceived, hsent, hwritten⟩ := hs
  have hthere := P.there_pos
  have hchunk := P.chunk_pos
  have hfull : f.sent = f.received + P.there := by
    by_contra hne
    exact hstuck _ (.send (Nat.lt_succ_self f.sent) (by omega) (by omega))
  have hwaits : f.written < P.owed f.received := by
    by_contra hnot
    exact hstuck _ (.receive (Nat.lt_succ_self f.received) (by omega) (by omega) (by omega))
  have hback : P.back ≤ f.written := by
    by_contra hnot
    exact hstuck _ (.write (Nat.lt_succ_self f.written) (by omega) (by omega))
  omega

/-! ## How a deadlock comes about -/

theorem Reaches.send (h : P.Reaches f) (hle : f.sent ≤ n) (htotal : n ≤ P.total)
    (hroom : n ≤ f.received + P.there) : P.Reaches { f with sent := n } := by
  rcases hle.eq_or_lt with rfl | hlt
  · exact h
  · exact h.tail (.send hlt htotal hroom)

theorem Reaches.write (h : P.Reaches f) (hle : f.written ≤ n) (howed : n ≤ P.owed f.received)
    (hroom : n ≤ P.back) : P.Reaches { f with written := n } := by
  rcases hle.eq_or_lt with rfl | hlt
  · exact h
  · exact h.tail (.write hlt howed hroom)

/-- Byte by byte, as long as the answers fit the way back. -/
theorem reaches_idle (hr : r ≤ P.total) (hfits : ∀ j ≤ r, P.owed j ≤ P.back) :
    P.Reaches ⟨r, r, P.owed r⟩ := by
  have hthere := P.there_pos
  have hchunk := P.chunk_pos
  induction r with
  | zero =>
    have hstart : P.Reaches ⟨0, 0, 0⟩ := .refl
    exact hstart.write (Nat.zero_le _) le_rfl (hfits 0 le_rfl)
  | succ r ih =>
    have hidle : P.Reaches ⟨r, r, P.owed r⟩ := ih (by omega) fun j hj => hfits j (by omega)
    have hsent : P.Reaches ⟨r + 1, r, P.owed r⟩ :=
      hidle.send (Nat.le_succ r) hr (Nat.add_le_add_left hthere r)
    have hreceived : P.Reaches ⟨r + 1, r + 1, P.owed r⟩ :=
      hsent.tail (.receive (Nat.lt_succ_self r) le_rfl (Nat.add_le_add_left hchunk r) rfl)
    exact hreceived.write (P.owed_mono (Nat.le_succ r)) le_rfl (hfits (r + 1) le_rfl)

/-- The first byte whose answers do not fit the way back is received. -/
theorem reaches_first (hr : r ≤ P.total) (hfirst : P.back < P.owed r)
    (hfits : ∀ j < r, P.owed j ≤ P.back) : P.Reaches ⟨r, r, P.back⟩ := by
  have hthere := P.there_pos
  have hchunk := P.chunk_pos
  cases r with
  | zero =>
    have hstart : P.Reaches ⟨0, 0, 0⟩ := .refl
    exact hstart.write (Nat.zero_le _) hfirst.le le_rfl
  | succ r =>
    have hidle : P.Reaches ⟨r, r, P.owed r⟩ :=
      reaches_idle (by omega) fun j hj => hfits j (by omega)
    have hsent : P.Reaches ⟨r + 1, r, P.owed r⟩ :=
      hidle.send (Nat.le_succ r) hr (Nat.add_le_add_left hthere r)
    have hreceived : P.Reaches ⟨r + 1, r + 1, P.owed r⟩ :=
      hsent.tail (.receive (Nat.lt_succ_self r) le_rfl (Nat.add_le_add_left hchunk r) rfl)
    exact hreceived.write (hfits r (Nat.lt_succ_self r)) hfirst.le le_rfl

/-- **When sender and server can wait for each other**: exactly if the answers to some beginning do
not fit the way back, and what follows it does not fit the way there. -/
theorem deadlock_iff (P : Pipeline) : (∃ f, P.Reaches f ∧ P.Deadlocked f) ↔
    ∃ r, P.back < P.owed r ∧ r + P.there < P.total := by
  constructor
  · rintro ⟨f, hf, hdead⟩
    obtain ⟨hthere, hback⟩ := hdead.full (sound_of_reaches hf)
    exact ⟨f.received, hback, hthere⟩
  · rintro ⟨r, hback, hthere⟩
    classical
    have hex : ∃ r, P.back < P.owed r := ⟨r, hback⟩
    obtain ⟨first, hfirst⟩ : ∃ first, first = Nat.find hex := ⟨_, rfl⟩
    have hle : first ≤ r := hfirst ▸ Nat.find_min' hex hback
    have howed : P.back < P.owed first := hfirst ▸ Nat.find_spec hex
    have hfits : ∀ j < first, P.owed j ≤ P.back := fun j hj =>
      Nat.le_of_not_lt (Nat.find_min hex (hfirst ▸ hj))
    have hreceived : P.Reaches ⟨first, first, P.back⟩ := reaches_first (by omega) howed hfits
    refine ⟨⟨first + P.there, first, P.back⟩,
      hreceived.send (Nat.le_add_right ..) (by omega) le_rfl, by simp only; omega, ?_⟩
    intro g hg
    cases hg with
    | send hmore _ hroom => exact Nat.not_lt.mpr hroom hmore
    | receive _ _ _ hidle => exact Nat.ne_of_lt howed hidle
    | write hmore _ hroom => exact Nat.not_lt.mpr hroom hmore

/-! ## Systems that move as a pipeline -/

variable {S : Type*} {Step : S → S → Prop} {init s s' : S} {view : S → Flow}

/-- The streams of a system move as those of the pipeline, none, one or several in a step, and can
make all its moves. -/
structure Realized (P : Pipeline) (Step : S → S → Prop) (init : S) (view : S → Flow) : Prop where
  start : view init = ⟨0, 0, 0⟩
  step : ∀ s s', ReflTransGen Step init s → Step s s' → ReflTransGen P.Moves (view s) (view s')
  move : ∀ s g, ReflTransGen Step init s → P.Moves (view s) g →
    ∃ s', ReflTransGen Step s s' ∧ view s' = g

/-- Whatever the system does from here on, none of its streams gets on. -/
def Frozen (Step : S → S → Prop) (view : S → Flow) (s : S) : Prop :=
  ∀ s', ReflTransGen Step s s' → view s' = view s

namespace Realized

theorem moves (h : P.Realized Step init view) (hs : ReflTransGen Step init s)
    (hs' : ReflTransGen Step s s') : ReflTransGen P.Moves (view s) (view s') := by
  induction hs' with
  | refl => exact .refl
  | tail hs' hstep ih => exact ih.trans (h.step _ _ (hs.trans hs') hstep)

theorem reaches (h : P.Realized Step init view) (hs : ReflTransGen Step init s) :
    P.Reaches (view s) := by
  have hmoves := h.moves .refl hs
  rwa [h.start] at hmoves

theorem exists_of_reaches (h : P.Realized Step init view) (hf : P.Reaches f) :
    ∃ s, ReflTransGen Step init s ∧ view s = f := by
  induction hf with
  | refl => exact ⟨init, .refl, h.start⟩
  | tail _ hmove ih =>
    obtain ⟨s, hs, rfl⟩ := ih
    obtain ⟨s', hs', hview⟩ := h.move s _ hs hmove
    exact ⟨s', hs.trans hs', hview⟩

theorem frozen_iff (h : P.Realized Step init view) (hs : ReflTransGen Step init s) :
    Frozen Step view s ↔ ∀ g, ¬ P.Moves (view s) g := by
  constructor
  · intro hfrozen g hmove
    obtain ⟨s', hs', rfl⟩ := h.move s g hs hmove
    exact hmove.ne (hfrozen s' hs')
  · intro hstuck s' hs'
    rcases (h.moves hs hs').cases_head with hsame | ⟨g, hmove, -⟩
    · exact hsame.symm
    · exact absurd hmove (hstuck g)

/-- **When the system can deadlock.** -/
theorem deadlock_iff (h : P.Realized Step init view) :
    (∃ s, ReflTransGen Step init s ∧ (view s).sent < P.total ∧ Frozen Step view s) ↔
      ∃ r, P.back < P.owed r ∧ r + P.there < P.total := by
  rw [← P.deadlock_iff]
  constructor
  · rintro ⟨s, hs, hmore, hfrozen⟩
    exact ⟨view s, h.reaches hs, hmore, (h.frozen_iff hs).mp hfrozen⟩
  · rintro ⟨f, hf, hmore, hstuck⟩
    obtain ⟨s, hs, rfl⟩ := h.exists_of_reaches hf
    exact ⟨s, hs, hmore, (h.frozen_iff hs).mpr hstuck⟩

end Realized

end Pipeline

end Byor.Wire
