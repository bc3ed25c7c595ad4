import Byor.Foundations.Framing

/-!
# Reading one record

A program reads a record in two loops: the word with the length, whose `w` bytes it waits for, and
then the payload, if it is not longer than `max`. It never asks for more than is missing. `Reader`
is such a program between two calls of `read`.

* `Reader.Waiting.feed`: a reader that is fed from a stream of records takes the record at the front
  of the stream, and nothing behind it.
* `Reader.Waiting.incomplete`: a reader that waits holds no complete record.
-/

namespace Byor.Wire

/-- A record that is being read, or what came of it. -/
inductive Reader
  /-- Fewer bytes than the length has. -/
  | header (buf : List UInt8)
  /-- Fewer than the `n` bytes of the payload. -/
  | payload (n : ℕ) (buf : List UInt8)
  | done (payload : List UInt8)
  /-- The payload would be too long. -/
  | refused
  deriving DecidableEq, Repr

namespace Reader

/-- The reader in the loop that reads the payload. -/
def ofPayload (n : ℕ) (buf : List UInt8) : Reader :=
  if buf.length < n then .payload n buf else .done buf

variable (w max : ℕ)

/-- The reader in the loop that reads the length. -/
def ofHeader (buf : List UInt8) : Reader :=
  if buf.length < w then .header buf
  else if max < leVal buf then .refused
  else .ofPayload (leVal buf) []

/-- The reader that has not read anything. -/
def start : Reader := .ofHeader w max []

/-- A call of `read` has returned the bytes `b`. -/
def feed (b : List UInt8) : Reader → Reader
  | .header buf => .ofHeader w max (buf ++ b)
  | .payload n buf => .ofPayload n (buf ++ b)
  | r => r

/-- How many bytes the next call of `read` asks for. -/
def missing : Reader → ℕ
  | .header buf => w - buf.length
  | .payload n buf => n - buf.length
  | _ => 0

/-- The bytes a waiting reader has read. -/
def consumed : Reader → List UInt8
  | .header buf => buf
  | .payload n buf => leBytes w n ++ buf
  | _ => []

/-- The reader waits for bytes. -/
def Waiting : Reader → Prop
  | .header buf => buf.length < w
  | .payload n buf => n ≤ max ∧ buf.length < n
  | _ => False

/-- A reader of the record of `p` that was given the bytes `xs`. -/
def Reads (p xs : List UInt8) (r : Reader) : Prop :=
  (r.Waiting w max ∧ r.consumed w = xs) ∨ r = .done p ∧ xs = record w p

variable {w max} {r : Reader} {b p rest : List UInt8} {msgs taken : List (List UInt8)}

theorem start_eq (hw : 0 < w) : start w max = .header [] := if_pos hw

theorem start_waiting (hw : 0 < w) : (start w max).Waiting w max := by
  rw [start_eq hw]
  exact hw

theorem start_consumed (hw : 0 < w) : (start w max).consumed w = [] := by
  rw [start_eq hw]
  rfl

theorem reads_ofPayload {buf : List UInt8} (hp : p.length ≤ max) (hlen : buf.length ≤ p.length)
    (hb : leBytes w p.length ++ buf <+: record w p ++ rest) :
    (ofPayload p.length buf).Reads w max p (leBytes w p.length ++ buf) := by
  rw [record, List.append_assoc, List.prefix_append_right_inj] at hb
  unfold ofPayload
  split
  · rename_i hlt
    exact .inl ⟨⟨hp, hlt⟩, rfl⟩
  · rename_i hge
    obtain rfl : buf = p := (List.prefix_of_prefix_length_le hb (List.prefix_append ..)
      hlen).eq_of_length (by omega)
    exact .inr ⟨rfl, rfl⟩

theorem reads_ofHeader {buf : List UInt8} (hmax : max < 256 ^ w) (hp : p.length ≤ max)
    (hlen : buf.length ≤ w) (hb : buf <+: record w p ++ rest) :
    (ofHeader w max buf).Reads w max p buf := by
  unfold ofHeader
  split
  · rename_i hlt
    exact .inl ⟨hlt, rfl⟩
  · rename_i hge
    -- the length has been read in full
    have hword : buf = leBytes w p.length := by
      rw [record, List.append_assoc] at hb
      refine (List.prefix_of_prefix_length_le hb (List.prefix_append _ _) ?_).eq_of_length ?_
      · rwa [length_leBytes]
      · rw [length_leBytes]
        omega
    have hval : leVal buf = p.length := by rw [hword, leVal_leBytes_of_lt (by omega)]
    have hstart : leBytes w p.length ++ [] = buf := by rw [List.append_nil, hword]
    rw [if_neg (by omega), hval]
    exact hstart ▸ reads_ofPayload hp (Nat.zero_le _) (hstart.symm ▸ hb)

namespace Waiting

theorem missing_pos (h : r.Waiting w max) : 0 < r.missing w := by
  cases r with
  | header buf => exact Nat.sub_pos_of_lt h
  | payload n buf => exact Nat.sub_pos_of_lt h.2
  | done p => exact h.elim
  | refused => exact h.elim

/-- **A waiting reader holds no complete record.** -/
theorem incomplete (hmax : max < 256 ^ w) (h : r.Waiting w max) (hp : p.length ≤ max) :
    ¬ record w p <+: r.consumed w := by
  rintro ⟨rest, hrest⟩
  have hlen := congrArg List.length hrest
  rw [List.length_append, length_record] at hlen
  cases r with
  | header buf =>
    have hlt : buf.length < w := h
    change _ = buf.length at hlen
    omega
  | payload n buf =>
    obtain ⟨hn, hlt⟩ := h
    change record w p ++ rest = leBytes w n ++ buf at hrest
    rw [record, List.append_assoc] at hrest
    have hword := congrArg leVal (List.append_inj_left hrest (by simp))
    rw [leVal_leBytes_of_lt (by omega), leVal_leBytes_of_lt (by omega)] at hword
    change _ = (leBytes w n ++ buf).length at hlen
    rw [List.length_append, length_leBytes] at hlen
    omega
  | done p => exact h.elim
  | refused => exact h.elim

/-- **A reader takes the record** at the front of the stream it is fed from. -/
theorem feed (hmax : max < 256 ^ w) (h : r.Waiting w max) (hlen : b.length ≤ r.missing w)
    (hp : p.length ≤ max) (hb : r.consumed w ++ b <+: record w p ++ rest) :
    (r.feed w max b).Reads w max p (r.consumed w ++ b) := by
  cases r with
  | header buf =>
    have hlt : buf.length < w := h
    change b.length ≤ w - buf.length at hlen
    have hle : (buf ++ b).length ≤ w := by
      rw [List.length_append]
      omega
    exact reads_ofHeader hmax hp hle hb
  | payload n buf =>
    obtain ⟨hn, hlt⟩ := h
    change b.length ≤ n - buf.length at hlen
    change leBytes w n ++ buf ++ b <+: _ at hb
    change (ofPayload n (buf ++ b)).Reads w max p (leBytes w n ++ buf ++ b)
    rw [List.append_assoc] at hb ⊢
    have hword : leBytes w n = leBytes w p.length := by
      have hfirst := (List.prefix_append (leBytes w n) (buf ++ b)).trans hb
      rw [record, List.append_assoc] at hfirst
      exact (List.prefix_of_prefix_length_le hfirst (List.prefix_append _ _)
        (by simp)).eq_of_length (by simp)
    have hval := congrArg leVal hword
    rw [leVal_leBytes_of_lt (by omega), leVal_leBytes_of_lt (by omega)] at hval
    subst hval
    have hle : (buf ++ b).length ≤ p.length := by
      rw [List.length_append]
      omega
    exact reads_ofPayload hp hle hb
  | done p => exact h.elim
  | refused => exact h.elim

end Waiting

/-! ## Streams of records -/

/-- **A reader between records** that were taken off a stream takes the next one. -/
theorem Waiting.next (hmax : max < 256 ^ w) (h : r.Waiting w max)
    (hmsgs : ∀ msg ∈ msgs, msg.length ≤ max) (htaken : taken <+: msgs) (hne : b ≠ [])
    (hlen : b.length ≤ r.missing w) (hb : (taken.map (record w)).flatten ++ (r.consumed w ++ b) <+:
      (msgs.map (record w)).flatten) :
    ∃ p, (r.feed w max b).Reads w max p (r.consumed w ++ b) ∧ taken ++ [p] <+: msgs := by
  obtain ⟨later, rfl⟩ := htaken
  rw [List.map_append, List.flatten_append, List.prefix_append_right_inj] at hb
  cases later with
  | nil => exact absurd (List.append_eq_nil_iff.mp (List.prefix_nil.mp hb)).2 hne
  | cons p later =>
    refine ⟨p, h.feed hmax hlen (hmsgs p (by simp)) hb, later, ?_⟩
    rw [List.append_assoc]
    rfl

/-- A waiting reader that has been given a whole stream has taken all records off it. -/
theorem Waiting.all (hmax : max < 256 ^ w) (h : r.Waiting w max)
    (hmsgs : ∀ msg ∈ msgs, msg.length ≤ max) (htaken : taken <+: msgs)
    (hall : (taken.map (record w)).flatten ++ r.consumed w = (msgs.map (record w)).flatten) :
    taken = msgs ∧ r.consumed w = [] := by
  obtain ⟨later, rfl⟩ := htaken
  rw [List.map_append, List.flatten_append, List.append_right_inj] at hall
  cases later with
  | nil => exact ⟨(List.append_nil _).symm, hall⟩
  | cons p later =>
    refine absurd ?_ (h.incomplete hmax (hmsgs p (by simp)))
    rw [hall]
    exact List.prefix_append ..

end Reader

end Byor.Wire
