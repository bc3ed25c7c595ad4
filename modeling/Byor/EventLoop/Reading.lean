import Mathlib.Logic.Relation
import Byor.Foundations.Transfer
import Byor.EventLoop.Client

/-!
# The clients that read until a buffer is full

`read_full` of three clients (`02_protocol_parsing/myclient.cpp`, `03_event_loop/src/client.cpp`,
`04_key_value_server/src/client.cpp`), which is the same loop with other return values, and
`read_response` of the last two. The loop gives up on a negative result of `read`; on the result `0`
it reads again.

* `returned_of_run`, `exists_run`: what a loop that returns has read, and when it returns.
* `reading_returns_iff`: the loops return as they should exactly if the stream does not end before
  the buffer is full, and `int bytes_read` does not overflow; `read_response` returns exactly if the
  stream does not end before its header or before the data behind it.
* `fed_of_readResponse`: a `read_response` that succeeds is the one of `Byor.EventLoop.Client`,
  whose states are what the loops hold between two calls.
-/

namespace Byor

open Wire Optimized

namespace Reading

/-- How a loop can leave the ground the source stands on. -/
inductive Fault
  /-- `bytes_read += num_read` leaves the range of `int`. -/
  | overflow
  /-- The loop has not ended. -/
  | stillRunning
  deriving DecidableEq, Repr

/-- A program over a connection. -/
abbrev Io := EStateM Fault Socket

/-- The conversion of an `ssize_t` to an `int`. -/
def toInt (n : ℤ) : ℤ := n.bmod (2 ^ 32)

/-- The sum of two values of type `int` that are not negative. -/
def addInt (a b : ℤ) : Io ℤ := if a + b < 2 ^ 31 then return a + b else throw .overflow

/-- The loop of `read_full`, at most `fuel` tests of its condition, with the values it returns. Of
the buffer, the bytes that were put into it. -/
def readFullWith {ρ : Type} (failed succeeded : ρ) (c : Peer) (numToRead : ℕ) :
    ℕ → ℤ → Bytes → Io (ρ × Bytes)
  | 0, _, _ => throw .stillRunning
  | fuel + 1, bytesRead, buf =>
    if bytesRead < numToRead then do
      let (rv, b) ← c.read (numToRead - bytesRead).toNat
      let numRead := toInt rv
      if numRead < 0 then return (failed, buf)
      else do
        let bytesRead ← addInt bytesRead numRead
        readFullWith failed succeeded c numToRead fuel bytesRead (buf ++ b)
    else return (succeeded, buf)

/-- `read_response` over a `read_full`, without what it prints. -/
def readResponseWith (readFull : ℕ → ℕ → Io (Bool × Bytes)) (fuel : ℕ) : Io Bool := do
  let (ok, rbuf) ← readFull lenFieldSize fuel
  if !ok then return false
  else do
    let dataLen := leVal rbuf
    if maxMsgFieldSize < dataLen then return false
    else do
      let (ok, _) ← readFull dataLen fuel
      if !ok then return false
      else return true

end Reading

open Reading

/-- `read_full` of `02_protocol_parsing` -/
def ProtocolParsing.readFull (c : Peer) (numToRead fuel : ℕ) : Io (ℤ × Bytes) :=
  readFullWith (-1) 0 c numToRead fuel 0 []

/-- `read_full` of `03_event_loop` -/
def EventLoop.readFull (c : Peer) (numToRead fuel : ℕ) : Io (Bool × Bytes) :=
  readFullWith false true c numToRead fuel 0 []

/-- `read_full` of `04_key_value_server` -/
def KeyValue.readFull (c : Peer) (numToRead fuel : ℕ) : Io (Bool × Bytes) :=
  readFullWith false true c numToRead fuel 0 []

/-- `read_response` of `03_event_loop` -/
def EventLoop.readResponse (c : Peer) (fuel : ℕ) : Io Bool :=
  readResponseWith (EventLoop.readFull c) fuel

/-- `read_response` of `04_key_value_server` -/
def KeyValue.readResponse (c : Peer) (fuel : ℕ) : Io Bool :=
  readResponseWith (KeyValue.readFull c) fuel

namespace Reading

/-- What `read` promises: it transfers at most `0x7ffff000` bytes at a time, and at the end of the
stream it returns `0` from then on. -/
structure Promises (c : Peer) : Prop where
  limit : ∀ k, c.result k ≤ 0x7ffff000
  eof : ∀ k, c.result k = 0 → c.result (k + 1) = 0

/-- A loop for `n` bytes returns: success if they come before the end of the stream or an error, and
failure otherwise. -/
def Returns {ρ : Type} (failed succeeded : ρ) (c : Peer) (s : Socket) (n : ℕ)
    (x : ℕ → Io (ρ × Bytes)) : Prop :=
  ∃ fuel result buf s', (x fuel).run s = .ok (result, buf) s' ∧
    (Brings c.result s.calls n → result = succeeded) ∧
    (¬ Brings c.result s.calls n → result = failed)

/-- More bytes come than an `int` can count. -/
def Overflows (r : ℕ → ℤ) (j n : ℕ) : Prop := 2 ^ 31 ≤ n ∧ Brings r j (2 ^ 31)

section

variable {ρ : Type} {failed succeeded : ρ} {c : Peer} {s s' : Socket} {buf buf' : Bytes}
  {n m k fuel : ℕ} {result : ρ}

/-! ## One turn -/

theorem toInt_eq_self {n : ℤ} (hlow : -1 ≤ n) (hhigh : n ≤ 0x7ffff000) : toInt n = n :=
  Int.bmod_eq_of_le_mul_two (by omega) (by omega)

theorem run_full :
    (readFullWith failed succeeded c n (fuel + 1) n buf).run s = .ok (succeeded, buf) s := by
  rw [readFullWith, if_neg (Int.lt_irrefl _)]
  rfl

/-- An error ends the loop. -/
theorem run_error (hk : k < n) (h : c.result s.calls < 0) :
    (readFullWith failed succeeded c n (fuel + 1) k buf).run s =
      .ok (failed, buf) (s.failed (c.errno s.calls)) := by
  have hint : toInt (-1) < 0 := by decide
  rw [readFullWith, if_pos (by omega)]
  simp only [EStateM.run_bind, run_read_of_neg h, if_pos hint, EStateM.run_pure]

/-- Any other result, `0` included, has the loop go on. -/
theorem run_more (hc : Promises c) (hk : k + m = n) (hm : 0 < m) (h : 0 ≤ c.result s.calls) {b : ℕ}
    (hb : min (c.result s.calls).toNat m = b) :
    (readFullWith failed succeeded c n (fuel + 1) k buf).run s =
      if k + b < 2 ^ 31 then (readFullWith failed succeeded c n fuel ((k + b : ℕ) : ℤ)
        (buf ++ bytesAt c.stream s.taken b)).run (s.read b)
      else .error .overflow (s.read b) := by
  have hlimit := hc.limit s.calls
  have hcount : ((n : ℤ) - k).toNat = m := by omega
  have hint : toInt b = b := toInt_eq_self (by omega) (by omega)
  have hnonneg : ¬ toInt b < 0 := by
    rw [hint]
    exact Int.not_lt.mpr (Int.natCast_nonneg b)
  rw [readFullWith, if_pos (by omega), hcount]
  simp only [EStateM.run_bind, run_read h hb]
  rw [if_neg hnonneg, hint, addInt, ← Int.natCast_add]
  by_cases hlt : k + b < 2 ^ 31
  · rw [if_pos hlt, if_pos (by omega), pure_bind]
  · rw [if_neg hlt, if_neg (by omega)]
    rfl

/-! ## The loop -/

/-- What a loop has come to that returned with `k` of the `n` bytes read and `m` missing: it was not
stopped by the end of the stream, it has not counted too far, and it has read all the bytes if they
came. -/
structure Returned {ρ : Type} (failed succeeded : ρ) (c : Peer) (n k m : ℕ) (s : Socket)
    (buf : Bytes) (result : ρ) (buf' : Bytes) (s' : Socket) : Prop where
  notEnds : ¬ EndsEarly c.result s.calls m
  notOver : ¬ (2 ^ 31 ≤ n ∧ Brings c.result s.calls (2 ^ 31 - k))
  full : Brings c.result s.calls m → result = succeeded ∧ Completes c.result s.calls m s'.calls ∧
    buf' = buf ++ bytesAt c.stream s.taken m ∧ s'.taken = s.taken + m
  short : ¬ Brings c.result s.calls m → result = failed

theorem returned_full (hlt : n < 2 ^ 31) :
    Returned failed succeeded c n n 0 s buf succeeded buf s where
  notEnds := not_endsEarly_zero _ _
  notOver hover := absurd hover.1 (Nat.not_le.mpr hlt)
  full _ := ⟨rfl, (completes_zero _ _).mpr rfl, (List.append_nil _).symm, rfl⟩
  short hnot := absurd (brings_zero _ _) hnot

theorem returned_error (hm : 0 < m) (hlt : k < 2 ^ 31) (h : c.result s.calls < 0) :
    Returned failed succeeded c n k m s buf failed buf (s.failed (c.errno s.calls)) := by
  have hnot : ¬ 0 < c.result s.calls := by omega
  refine ⟨fun hends => ?_, fun hover => ?_, fun hall => ?_, fun _ => rfl⟩
  · rcases (endsEarly_iff hm).mp hends with hzero | hpos
    · omega
    · exact hnot hpos.1
  · exact hnot ((brings_iff (by omega)).mp hover.2).1
  · exact absurd ((brings_iff hm).mp hall).1 hnot

/-- Before a call that brings bytes the same holds as after it. -/
theorem Returned.of_more {b : ℕ} (hk : k + m = n) (hm : 0 < m) (hpos : 0 < c.result s.calls)
    (hb : min (c.result s.calls).toNat m = b) (hlt : k + b < 2 ^ 31)
    (h : Returned failed succeeded c n (k + b) (m - b) (s.read b)
      (buf ++ bytesAt c.stream s.taken b) result buf' s') :
    Returned failed succeeded c n k m s buf result buf' s' := by
  have hrest : m - (c.result s.calls).toNat = m - b := by omega
  have hends := endsEarly_iff (r := c.result) (j := s.calls) hm
  have hbrings := brings_iff (r := c.result) (j := s.calls) hm
  rw [hrest] at hends hbrings
  refine ⟨fun he => ?_, fun hover => ?_, fun hall => ?_, fun hall => ?_⟩
  · rcases hends.mp he with hzero | hlater
    · omega
    · exact h.notEnds hlater.2
  · have hlater := ((brings_iff (by omega)).mp hover.2).2
    have hn := hover.1
    rw [show 2 ^ 31 - k - (c.result s.calls).toNat = 2 ^ 31 - (k + b) by omega] at hlater
    exact h.notOver ⟨hover.1, hlater⟩
  · obtain ⟨hres, hcalls, hbuf, htaken⟩ := h.full (hbrings.mp hall).2
    have hsplit : bytesAt c.stream s.taken m =
        bytesAt c.stream s.taken b ++ bytesAt c.stream (s.taken + b) (m - b) := by
      rw [← bytesAt_add]
      congr 1
      omega
    refine ⟨hres, (completes_iff hm).mpr ⟨hpos, hrest ▸ hcalls⟩, ?_, ?_⟩
    · rw [hbuf, hsplit, List.append_assoc]
      rfl
    · rw [htaken]
      change s.taken + b + (m - b) = s.taken + m
      omega
  · exact h.short fun hlater => hall (hbrings.mpr ⟨hpos, hlater⟩)

/-- **A loop that returns**, whatever the calls of `read` came back with. -/
theorem returned_of_run (hc : Promises c) (hk : k + m = n) (hlt : k < 2 ^ 31)
    (h : (readFullWith failed succeeded c n fuel k buf).run s = .ok (result, buf') s') :
    Returned failed succeeded c n k m s buf result buf' s' := by
  induction fuel generalizing s k m buf with
  | zero => cases h
  | succ fuel ih =>
    rcases Nat.eq_zero_or_pos m with rfl | hm
    · obtain rfl : k = n := hk
      rw [run_full] at h
      obtain ⟨hout, rfl⟩ := EStateM.Result.ok.inj h
      obtain ⟨rfl, rfl⟩ := Prod.mk.inj hout
      exact returned_full hlt
    rcases lt_trichotomy (c.result s.calls) 0 with hneg | hzero | hpos
    · rw [run_error (by omega) hneg] at h
      obtain ⟨hout, rfl⟩ := EStateM.Result.ok.inj h
      obtain ⟨rfl, rfl⟩ := Prod.mk.inj hout
      exact returned_error hm hlt hneg
    · -- at the end of the stream the loop goes on, and meets its end again
      rw [run_more hc hk hm hzero.ge (b := 0) (by rw [hzero]; exact Nat.zero_min m), Nat.add_zero,
        if_pos hlt] at h
      exact absurd ((endsEarly_iff hm).mpr (.inl (hc.eof _ hzero))) (ih hk hlt h).notEnds
    · obtain ⟨b, hb⟩ : ∃ b, min (c.result s.calls).toNat m = b := ⟨_, rfl⟩
      rw [run_more hc hk hm (Int.le_of_lt hpos) hb] at h
      by_cases hint : k + b < 2 ^ 31
      · rw [if_pos hint] at h
        exact (ih (k := k + b) (m := m - b) (by omega) hint h).of_more hk hm hpos hb hint
      · rw [if_neg hint] at h
        cases h

/-- **A loop returns** unless the stream ends early or an `int` cannot count the bytes. -/
theorem exists_run (failed succeeded : ρ) (buf : Bytes) (hc : Promises c) (hk : k + m = n)
    (hlt : k < 2 ^ 31)
    (hends : ¬ EndsEarly c.result s.calls m)
    (hover : ¬ (2 ^ 31 ≤ n ∧ Brings c.result s.calls (2 ^ 31 - k))) :
    ∃ N out s', ∀ fuel > N,
      (readFullWith failed succeeded c n fuel k buf).run s = .ok out s' := by
  generalize hj : s.calls = j at hends hover
  induction j, m using transfer_induction c.result generalizing s k buf with
  | done j =>
    obtain rfl : k = n := hk
    refine ⟨0, (succeeded, buf), s, fun fuel hfuel => ?_⟩
    obtain ⟨fuel, rfl⟩ := Nat.exists_eq_succ_of_ne_zero (Nat.ne_of_gt hfuel)
    exact run_full
  | stop j m hm hstop =>
    subst hj
    have hneg : c.result s.calls < 0 :=
      lt_of_le_of_ne hstop fun hzero => hends ((endsEarly_iff hm).mpr (.inl hzero))
    refine ⟨0, (failed, buf), s.failed (c.errno s.calls), fun fuel hfuel => ?_⟩
    obtain ⟨fuel, rfl⟩ := Nat.exists_eq_succ_of_ne_zero (Nat.ne_of_gt hfuel)
    exact run_error (by omega) hneg
  | move j m hm hpos ih =>
    subst hj
    obtain ⟨b, hb⟩ : ∃ b, min (c.result s.calls).toNat m = b := ⟨_, rfl⟩
    have hrest : m - (c.result s.calls).toNat = m - b := by omega
    have hcount : k + b < 2 ^ 31 := by
      by_contra hge
      refine hover ⟨by omega, (brings_iff (by omega)).mpr ⟨hpos, ?_⟩⟩
      rw [show 2 ^ 31 - k - (c.result s.calls).toNat = 0 by omega]
      exact brings_zero _ _
    rw [hrest] at ih
    have hends' : ¬ EndsEarly c.result (s.read b).calls (m - b) := fun h =>
      hends ((endsEarly_iff hm).mpr (.inr ⟨hpos, hrest ▸ h⟩))
    have hover' : ¬ (2 ^ 31 ≤ n ∧ Brings c.result (s.read b).calls (2 ^ 31 - (k + b))) := by
      rintro ⟨hn, hmany⟩
      refine hover ⟨hn, (brings_iff (by omega)).mpr ⟨hpos, ?_⟩⟩
      rw [show 2 ^ 31 - k - (c.result s.calls).toNat = 2 ^ 31 - (k + b) by omega]
      exact hmany
    obtain ⟨N, out, s', hrun⟩ :=
      ih (s := s.read b) (buf ++ bytesAt c.stream s.taken b) (by omega) hcount rfl hends' hover'
    refine ⟨N + 1, out, s', fun fuel hfuel => ?_⟩
    obtain ⟨fuel, rfl⟩ := Nat.exists_eq_succ_of_ne_zero (Nat.ne_zero_of_lt hfuel)
    rw [run_more hc hk hm (Int.le_of_lt hpos) hb, if_pos hcount]
    exact hrun fuel (by omega)

/-- When `read_full` returns, whatever the values it returns. -/
theorem returns_iff (hc : Promises c) (s : Socket) (n : ℕ) :
    Returns failed succeeded c s n
        (fun fuel => readFullWith failed succeeded c n fuel (0 : ℕ) []) ↔
      ¬ EndsEarly c.result s.calls n ∧ ¬ Overflows c.result s.calls n := by
  constructor
  · rintro ⟨fuel, result, buf, s', hrun, -⟩
    have hret := returned_of_run hc (Nat.zero_add n) (by decide) hrun
    exact ⟨hret.notEnds, hret.notOver⟩
  · rintro ⟨hends, hover⟩
    obtain ⟨N, ⟨result, buf⟩, s', hrun⟩ := exists_run failed succeeded [] hc (Nat.zero_add n)
      (by decide) hends hover
    have hlast := hrun (N + 1) (Nat.lt_succ_self N)
    have hret := returned_of_run hc (Nat.zero_add n) (by decide) hlast
    exact ⟨N + 1, result, buf, s', hlast, fun h => (hret.full h).1, hret.short⟩

end

/-! ## `read_response` -/

/-- A call of `read_response` returns. -/
def ReturnsResponse (s : Socket) (x : ℕ → Io Bool) : Prop :=
  ∃ fuel ok s', (x fuel).run s = .ok ok s'

/-- The stream ends before the header of a response is read, or before the data behind a header
within the limit are. -/
def ResponseEndsEarly (c : Peer) (s : Socket) : Prop :=
  EndsEarly c.result s.calls lenFieldSize ∨ ∃ k, Completes c.result s.calls lenFieldSize k ∧
    leVal (bytesAt c.stream s.taken lenFieldSize) ≤ maxMsgFieldSize ∧
    EndsEarly c.result k (leVal (bytesAt c.stream s.taken lenFieldSize))

section

variable {readFull : ℕ → ℕ → Io (Bool × Bytes)} {s s' s₁ : Socket} {buf : Bytes} {ok : Bool}
  {fuel : ℕ}

theorem run_readResponse_failed (h : (readFull lenFieldSize fuel).run s = .ok (false, buf) s₁) :
    (readResponseWith readFull fuel).run s = .ok false s₁ := by
  simp only [readResponseWith, EStateM.run_bind, h]
  rfl

theorem run_readResponse_overLimit
    (h : (readFull lenFieldSize fuel).run s = .ok (true, buf) s₁)
    (hmax : maxMsgFieldSize < leVal buf) :
    (readResponseWith readFull fuel).run s = .ok false s₁ := by
  simp only [readResponseWith, EStateM.run_bind, h, if_pos hmax]
  rfl

theorem run_readResponse_data (h : (readFull lenFieldSize fuel).run s = .ok (true, buf) s₁)
    (hmax : leVal buf ≤ maxMsgFieldSize) : (readResponseWith readFull fuel).run s =
      match (readFull (leVal buf) fuel).run s₁ with
      | .ok out s' => .ok out.1 s'
      | .error e s' => .error e s' := by
  simp only [readResponseWith, EStateM.run_bind, h, if_neg (Nat.not_lt.mpr hmax), Bool.not_true,
    Bool.false_eq_true, if_false]
  cases (readFull (leVal buf) fuel).run s₁ with
  | error e s' => rfl
  | ok out s' =>
    obtain ⟨ok, data⟩ := out
    cases ok <;> rfl

/-- **A call of `read_response` that returns** has read a header, and then the data behind it if
the header is within the limit. -/
theorem readResponse_cases (h : (readResponseWith readFull fuel).run s = .ok ok s') :
    ∃ ok₁ rbuf s₁, (readFull lenFieldSize fuel).run s = .ok (ok₁, rbuf) s₁ ∧
      (ok₁ = true → leVal rbuf ≤ maxMsgFieldSize →
        ∃ data, (readFull (leVal rbuf) fuel).run s₁ = .ok (ok, data) s') ∧
      (ok = true → ok₁ = true ∧ leVal rbuf ≤ maxMsgFieldSize) := by
  cases hfirst : (readFull lenFieldSize fuel).run s with
  | error e s₁ =>
    simp only [readResponseWith, EStateM.run_bind, hfirst] at h
    cases h
  | ok out s₁ =>
    obtain ⟨ok₁, rbuf⟩ := out
    refine ⟨ok₁, rbuf, s₁, rfl, ?_, ?_⟩
    · rintro rfl hmax
      rw [run_readResponse_data hfirst hmax] at h
      cases hsecond : (readFull (leVal rbuf) fuel).run s₁ with
      | error e s₂ =>
        rw [hsecond] at h
        cases h
      | ok out s₂ =>
        rw [hsecond] at h
        obtain ⟨rfl, rfl⟩ := EStateM.Result.ok.inj h
        exact ⟨out.2, rfl⟩
    · rintro rfl
      cases ok₁ with
      | false =>
        rw [run_readResponse_failed hfirst] at h
        cases h
      | true =>
        refine ⟨rfl, Nat.le_of_not_lt fun hmax => ?_⟩
        rw [run_readResponse_overLimit hfirst hmax] at h
        cases h

end

section

variable {c : Peer} {s s' : Socket} {buf : Bytes} {n fuel : ℕ} {ok : Bool}

/-- A length within the limit can be counted by an `int`. -/
theorem not_overflows (r : ℕ → ℤ) (j : ℕ) (h : n ≤ maxMsgFieldSize) : ¬ Overflows r j n := by
  rw [maxMsgFieldSize_eq] at h
  exact fun hover => absurd hover.1 (by omega)

/-- What a call of `read_full` that returns has read. -/
theorem readFull_of_run (hc : Promises c)
    (h : (EventLoop.readFull c n fuel).run s = .ok (ok, buf) s') :
    Returned false true c n 0 n s [] ok buf s' :=
  returned_of_run hc (Nat.zero_add n) (by decide) h

theorem Returned.brings {k m : ℕ} {b b' : Bytes}
    (h : Returned false true c n k m s b true b' s') : Brings c.result s.calls m := by
  by_contra hno
  cases h.short hno

theorem exists_run_readFull (hc : Promises c) (s : Socket) (hn : n ≤ maxMsgFieldSize)
    (hends : ¬ EndsEarly c.result s.calls n) :
    ∃ N ok buf s', ∀ fuel > N, (EventLoop.readFull c n fuel).run s = .ok (ok, buf) s' := by
  obtain ⟨N, ⟨ok, buf⟩, s', hrun⟩ := exists_run false true [] hc (Nat.zero_add n) (by decide) hends
    (not_overflows _ _ hn)
  exact ⟨N, ok, buf, s', hrun⟩

theorem not_ends_of_returnsResponse (hc : Promises c)
    (h : ReturnsResponse s (EventLoop.readResponse c)) : ¬ ResponseEndsEarly c s := by
  obtain ⟨fuel, ok, s', hrun⟩ := h
  obtain ⟨ok₁, rbuf, s₁, hfirst, hdata, -⟩ := readResponse_cases hrun
  have hret := readFull_of_run hc hfirst
  rintro (hends | ⟨k, hk, hmax, hends⟩)
  · exact hret.notEnds hends
  · obtain ⟨hok, hcalls, rfl, -⟩ := hret.full hk.brings
    obtain rfl := hk.unique hcalls
    obtain ⟨data, hsecond⟩ := hdata hok hmax
    exact (readFull_of_run hc hsecond).notEnds hends

theorem returnsResponse_of_not_ends (hc : Promises c) (h : ¬ ResponseEndsEarly c s) :
    ReturnsResponse s (EventLoop.readResponse c) := by
  rw [ResponseEndsEarly, not_or, not_exists] at h
  obtain ⟨hheader, hdata⟩ := h
  obtain ⟨N, ok, rbuf, s₁, hfirst⟩ := exists_run_readFull hc s (by decide) hheader
  have hret := readFull_of_run hc (hfirst (N + 1) (Nat.lt_succ_self N))
  cases ok with
  | false => exact ⟨_, _, _, run_readResponse_failed (hfirst (N + 1) (Nat.lt_succ_self N))⟩
  | true =>
    obtain ⟨-, hcalls, rfl, -⟩ := hret.full hret.brings
    simp only [List.nil_append] at hfirst
    rcases Nat.lt_or_ge maxMsgFieldSize (leVal (bytesAt c.stream s.taken lenFieldSize)) with
      hmax | hle
    · exact ⟨_, _, _, run_readResponse_overLimit (hfirst (N + 1) (Nat.lt_succ_self N)) hmax⟩
    · obtain ⟨N', ok, data, s₂, hsecond⟩ := exists_run_readFull hc s₁ hle
        fun hends => hdata s₁.calls ⟨hcalls, hle, hends⟩
      have hrun := run_readResponse_data (hfirst (max N N' + 1) (by omega)) hle
      rw [hsecond (max N N' + 1) (by omega)] at hrun
      exact ⟨_, _, _, hrun⟩

/-- **When `read_response` returns.** -/
theorem returnsResponse_iff (hc : Promises c) (s : Socket) :
    ReturnsResponse s (EventLoop.readResponse c) ↔ ¬ ResponseEndsEarly c s :=
  ⟨not_ends_of_returnsResponse hc, returnsResponse_of_not_ends hc⟩

end

/-! ## The loops between two calls -/

section

open EventLoop (ReadFull ReadResponse)

/-- A call of `read` puts bytes into the buffer of the loop that is running. -/
inductive Fed (c : Peer) : ReadResponse × Socket → ReadResponse × Socket → Prop
  | read {r : ReadResponse} {s : Socket} {b : ℕ} (h : 0 ≤ c.result s.calls)
      (hb : min (c.result s.calls).toNat r.missing = b) :
      Fed c (r, s) (r.read (bytesAt c.stream s.taken b), s.read b)

/-- The loop of `read_full` is running as a part of `read_response`. -/
def Runs (f : ReadFull → ReadResponse) : Prop :=
  ∀ l : ReadFull, l.buf.length < l.numToRead → (f l).missing = l.numToRead - l.buf.length ∧
    ∀ b, (f l).read b = f { l with buf := l.buf ++ b }

theorem runs_ofLen : Runs ReadResponse.ofLen := by
  intro l h
  rw [ReadResponse.ofLen, if_pos h]
  exact ⟨rfl, fun b => rfl⟩

theorem runs_ofData : Runs ReadResponse.ofData := by
  intro l h
  rw [ReadResponse.ofData, if_pos h]
  exact ⟨rfl, fun b => rfl⟩

variable {c : Peer} {s s' : Socket} {buf buf' : Bytes} {n m fuel : ℕ}

/-- **A `read_full` that succeeds**, call by call. -/
theorem fed_of_run {f : ReadFull → ReadResponse} (hf : Runs f) (hc : Promises c)
    (hm : buf.length + m = n) (h : (readFullWith false true c n fuel (buf.length : ℕ) buf).run s =
      .ok (true, buf') s') :
    Relation.ReflTransGen (Fed c) (f ⟨n, buf⟩, s) (f ⟨n, buf'⟩, s') := by
  induction fuel generalizing s m buf with
  | zero => cases h
  | succ fuel ih =>
    rcases Nat.eq_zero_or_pos m with rfl | hpos
    · obtain rfl : buf.length = n := hm
      rw [run_full] at h
      obtain ⟨hout, rfl⟩ := EStateM.Result.ok.inj h
      obtain ⟨-, rfl⟩ := Prod.mk.inj hout
      exact .refl
    · have hlt : buf.length < n := by omega
      rcases Int.lt_or_le (c.result s.calls) 0 with hneg | hnonneg
      · rw [run_error hlt hneg] at h
        cases h
      · obtain ⟨b, hb⟩ : ∃ b, min (c.result s.calls).toNat m = b := ⟨_, rfl⟩
        rw [run_more hc hm hpos hnonneg hb] at h
        split at h
        · have hlen : (buf ++ bytesAt c.stream s.taken b).length = buf.length + b := by
            rw [List.length_append, length_bytesAt]
          rw [← hlen] at h
          have hrest := ih (m := m - b) (by omega) h
          obtain ⟨hmissing, hread⟩ := hf ⟨n, buf⟩ hlt
          refine .head ?_ hrest
          rw [← hread]
          refine .read hnonneg ?_
          rw [hmissing, ← hb]
          congr 1
          exact Nat.sub_eq_of_eq_add' hm.symm
        · cases h

theorem fed_of_readFull {f : ReadFull → ReadResponse} (hf : Runs f) (hc : Promises c)
    (h : (EventLoop.readFull c n fuel).run s = .ok (true, buf) s') :
    Relation.ReflTransGen (Fed c) (f ⟨n, []⟩, s) (f ⟨n, buf⟩, s') ∧
      buf = bytesAt c.stream s.taken n ∧ s'.taken = s.taken + n := by
  have hm : ([] : Bytes).length + n = n := Nat.zero_add n
  have hret := readFull_of_run hc h
  obtain ⟨-, -, hbuf, htaken⟩ := hret.full hret.brings
  exact ⟨fed_of_run hf hc hm h, hbuf, htaken⟩

/-- **A `read_response` that succeeds**, call by call: the state between two calls comes to the
response that stands behind its length. -/
theorem fed_of_readResponse (hc : Promises c)
    (h : (EventLoop.readResponse c fuel).run s = .ok true s') :
    Relation.ReflTransGen (Fed c) (.start, s) (.done (bytesAt c.stream (s.taken + lenFieldSize)
      (leVal (bytesAt c.stream s.taken lenFieldSize))), s') := by
  obtain ⟨ok₁, rbuf, s₁, hfirst, hdata, htrue⟩ := readResponse_cases h
  obtain ⟨rfl, hmax⟩ := htrue rfl
  obtain ⟨data, hsecond⟩ := hdata rfl hmax
  obtain ⟨hheader, rfl, htaken⟩ := fed_of_readFull runs_ofLen hc hfirst
  obtain ⟨hbody, rfl, -⟩ := fed_of_readFull runs_ofData hc hsecond
  have hlen : ReadResponse.ofLen ⟨lenFieldSize, bytesAt c.stream s.taken lenFieldSize⟩ =
      .ofData ⟨leVal (bytesAt c.stream s.taken lenFieldSize), []⟩ := by
    rw [ReadResponse.ofLen, if_neg (by rw [length_bytesAt]; exact Nat.lt_irrefl _)]
    exact if_neg (Nat.not_lt.mpr hmax)
  have hdone (n : ℕ) : ReadResponse.ofData ⟨n, bytesAt c.stream s₁.taken n⟩ =
      .done (bytesAt c.stream s₁.taken n) :=
    if_neg (by rw [length_bytesAt]; exact Nat.lt_irrefl n)
  rw [hlen] at hheader
  rw [hdone, htaken] at hbody
  exact hheader.trans hbody

end

/-! ## The clients -/

/-- **When the clients stop reading.** For every number of bytes and every sequence of results in
which the end of the stream stays, each `read_full` returns, with success exactly if all the bytes
came before the end of the stream or an error, if and only if the stream does not end after fewer
bytes, and no more of them come than an `int` can count. `read_response` returns if and only if the
stream does not end before its header or before the data behind it. -/
theorem reading_returns_iff (c : Peer) (hc : Promises c) (s : Socket) :
    (∀ n, Returns false true c s n (KeyValue.readFull c n) ↔
      ¬ EndsEarly c.result s.calls n ∧ ¬ Overflows c.result s.calls n) ∧
    (∀ n, Returns false true c s n (EventLoop.readFull c n) ↔
      ¬ EndsEarly c.result s.calls n ∧ ¬ Overflows c.result s.calls n) ∧
    (∀ n, Returns (-1) 0 c s n (ProtocolParsing.readFull c n) ↔
      ¬ EndsEarly c.result s.calls n ∧ ¬ Overflows c.result s.calls n) ∧
    (ReturnsResponse s (KeyValue.readResponse c) ↔ ¬ ResponseEndsEarly c s) ∧
    (ReturnsResponse s (EventLoop.readResponse c) ↔ ¬ ResponseEndsEarly c s) :=
  ⟨fun n => returns_iff hc s n, fun n => returns_iff hc s n, fun n => returns_iff hc s n,
    returnsResponse_iff hc s, returnsResponse_iff hc s⟩

/-- A server that sends two bytes of a header and closes the connection. -/
def closesMidHeader : Peer := ⟨fun _ => 0, fun k => if k = 0 then 2 else 0, fun _ => 0⟩

theorem closesMidHeader_promises : Promises closesMidHeader := by
  constructor
  · intro k
    change (if k = 0 then (2 : ℤ) else 0) ≤ 0x7ffff000
    split <;> decide
  · exact fun k _ => rfl

theorem closesMidHeader_endsEarly : EndsEarly closesMidHeader.result 0 4 :=
  (endsEarly_iff (by decide)).mpr (.inr ⟨by decide, (endsEarly_iff (by decide)).mpr (.inl rfl)⟩)

/-- The two bytes can be read; a response cannot. -/
theorem reading_returns_of_close :
    Returns false true closesMidHeader ⟨0, 0, [], 0⟩ 2 (KeyValue.readFull closesMidHeader 2) ∧
      ¬ ReturnsResponse ⟨0, 0, [], 0⟩ (KeyValue.readResponse closesMidHeader) := by
  obtain ⟨hfull, -, -, hresponse, -⟩ :=
    reading_returns_iff closesMidHeader closesMidHeader_promises ⟨0, 0, [], 0⟩
  have hends : ¬ EndsEarly closesMidHeader.result 0 2 := by
    rw [endsEarly_iff (by decide)]
    rintro (h | ⟨-, h⟩)
    · cases h
    · exact not_endsEarly_zero _ _ h
  refine ⟨(hfull 2).mpr ⟨hends, not_overflows _ _ (by decide)⟩, fun h => ?_⟩
  exact hresponse.mp h (.inl closesMidHeader_endsEarly)

/-- When the server closes the connection within a header, `read_full` does not return. -/
theorem reading_never_returns :
    ¬ Returns false true closesMidHeader ⟨0, 0, [], 0⟩ 4 (KeyValue.readFull closesMidHeader 4) :=
  fun h => ((returns_iff closesMidHeader_promises ⟨0, 0, [], 0⟩ 4).mp h).1 closesMidHeader_endsEarly

end Reading

end Byor
