import Byor.Foundations.Decoder

/-!
# Loops over a test

The loop `while (test) {}` of a program whose test does the work. `Turns` is what the loop does,
turn by turn: it holds only of loops that end. `whileTrue` runs at most a given number of turns,
which is the loop itself when that number is large enough (`Turns.run_whileTrue`).

* `turns_of_invariant`: a test that takes one item off a buffer, wherever a decoder finds one, takes
  them all.
* `length_drain_le`: items of at least `d` bytes bound the number of turns;
  `length_drain_append_le`: so does the piece that has just arrived.
-/

namespace Byor.Wire

section Loops

variable {ε σ : Type}

/-- `while (test) {}`, at most `n` times round. -/
def whileTrue : ℕ → EStateM ε σ Bool → EStateM ε σ Unit
  | 0, _ => pure ()
  | n + 1, test => do
    if ← test then whileTrue n test

/-- Started in `s`, the test succeeds `k` times and then fails, which leaves `s'`. -/
inductive Turns (test : EStateM ε σ Bool) : σ → ℕ → σ → Prop
  | stop {s s'} (h : test.run s = .ok false s') : Turns test s 0 s'
  | again {s s₁ s' k} (h : test.run s = .ok true s₁) (ht : Turns test s₁ k s') :
      Turns test s (k + 1) s'

variable {test : EStateM ε σ Bool} {s s' : σ} {k n : ℕ}

/-- The loop as a program, when its turns are not cut short. -/
theorem Turns.run_whileTrue (h : Turns test s k s') (hn : k < n) :
    (whileTrue n test).run s = .ok () s' := by
  induction h generalizing n with
  | stop h =>
    obtain ⟨n, rfl⟩ := Nat.exists_eq_succ_of_ne_zero (Nat.ne_of_gt hn)
    simp [whileTrue, EStateM.run_bind, h]
  | again h _ ih =>
    obtain ⟨n, rfl⟩ := Nat.exists_eq_succ_of_ne_zero (Nat.ne_zero_of_lt hn)
    simp [whileTrue, EStateM.run_bind, h, ih (Nat.lt_of_succ_lt_succ hn)]

end Loops

namespace Decoder

variable {α β ε σ : Type} (D : Decoder α β) {test : EStateM ε σ Bool}

/-- **The loop takes items off the buffer.** `I bs xs s` relates the state `s` after the items `bs`
to the bytes `xs` that are left in the buffer; a test that takes one item, wherever the decoder
finds one, takes them all. -/
theorem turns_of_invariant {I : List β → List α → σ → Prop}
    (hsome : ∀ bs xs s b rest, I bs xs s → D.next xs = some (b, rest) →
      ∃ s', test.run s = .ok true s' ∧ I (bs ++ [b]) rest s')
    {xs r : List α} {cs : List β} (h : D.Takes xs cs r) (bs : List β) {s : σ} (hI : I bs xs s) :
    ∃ s', I (bs ++ cs) r s' ∧
      ∀ s'', test.run s' = .ok false s'' → Turns test s cs.length s'' := by
  induction h generalizing bs s with
  | nil =>
    rw [List.append_nil]
    exact ⟨s, hI, fun s'' hstop => .stop hstop⟩
  | @cons xs rest _ b _ hn _ ih =>
    obtain ⟨s₁, hrun, hI₁⟩ := hsome bs xs s b rest hI hn
    obtain ⟨s', hI', hturns⟩ := ih (bs ++ [b]) hI₁
    rw [List.append_assoc, List.singleton_append] at hI'
    exact ⟨s', hI', fun s'' hstop => .again hrun (hturns s'' hstop)⟩

/-- The same when the items and the buffer determine the state. -/
theorem turns_of_takes (S : List β → List α → σ)
    (hsome : ∀ bs xs b rest, D.next xs = some (b, rest) →
      test.run (S bs xs) = .ok true (S (bs ++ [b]) rest))
    {xs r : List α} {cs : List β} (h : D.Takes xs cs r) {s' : σ} (bs : List β)
    (hstop : test.run (S (bs ++ cs) r) = .ok false s') : Turns test (S bs xs) cs.length s' := by
  obtain ⟨_, rfl, hturns⟩ := D.turns_of_invariant (I := fun bs xs s => s = S bs xs)
    (fun bs xs s b rest hs hn => ⟨_, hs ▸ hsome bs xs b rest hn, rfl⟩) h bs rfl
  exact hturns s' hstop

/-- The turns in which items are taken, whatever becomes of the loop after them. -/
theorem run_whileTrue_of_takes (S : List β → List α → σ)
    (hsome : ∀ bs xs b rest, D.next xs = some (b, rest) →
      test.run (S bs xs) = .ok true (S (bs ++ [b]) rest))
    {xs r : List α} {cs : List β} (h : D.Takes xs cs r) (bs : List β) (n : ℕ) :
    (whileTrue (cs.length + n) test).run (S bs xs) = (whileTrue n test).run (S (bs ++ cs) r) := by
  induction h generalizing bs with
  | nil => simp
  | @cons xs rest _ b cs hn _ ih =>
    rw [List.length_cons, Nat.add_right_comm, whileTrue, EStateM.run_bind, hsome bs xs b rest hn]
    simpa using ih (bs ++ [b])

/-- Items of at least `d` bytes are few. -/
theorem length_takes_le {d : ℕ}
    (hd : ∀ {xs b rest}, D.next xs = some (b, rest) → rest.length + d ≤ xs.length)
    {xs r : List α} {bs : List β} (h : D.Takes xs bs r) : d * bs.length + r.length ≤ xs.length := by
  induction h with
  | nil => simp
  | cons h _ ih =>
    have hlen := hd h
    rw [List.length_cons, Nat.mul_succ]
    omega

theorem length_drain_le {d : ℕ}
    (hd : ∀ {xs b rest}, D.next xs = some (b, rest) → rest.length + d ≤ xs.length) (xs : List α) :
    d * (D.drain xs).1.length + (D.drain xs).2.length ≤ xs.length :=
  D.length_takes_le hd (D.takes_drain xs)

/-- A piece that arrives behind a buffer without an item completes few: one that began in the
buffer, and those that lie in the piece. -/
theorem length_drain_append_le {d : ℕ} (hpos : 0 < d)
    (hd : ∀ {xs b rest}, D.next xs = some (b, rest) → rest.length + d ≤ xs.length)
    (hpiece : ∀ {xs ys b rest}, D.next xs = none → D.next (xs ++ ys) = some (b, rest) →
      rest.length ≤ ys.length)
    {xs : List α} (hnone : D.next xs = none) (ys : List α) :
    (D.drain (xs ++ ys)).1.length ≤ 1 + ys.length / d := by
  have htakes := D.takes_drain (xs ++ ys)
  generalize D.drain (xs ++ ys) = drained at htakes
  obtain ⟨bs, r⟩ := drained
  cases htakes with
  | nil => exact Nat.zero_le _
  | @cons _ rest _ b bs hn ht =>
    have hrest := hpiece hnone hn
    have hlen := D.length_takes_le hd ht
    have hfew : bs.length ≤ ys.length / d := by
      rw [Nat.le_div_iff_mul_le hpos, Nat.mul_comm]
      omega
    rw [List.length_cons]
    omega

end Decoder

end Byor.Wire
