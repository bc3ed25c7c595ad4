import Byor.Foundations.Buffer
import Byor.Foundations.Transfer
import Byor.Optimized.Parse

/-!
# The loops of the command-line client

`read_full` and `write_all` of the client for the first key-value server
(`04_key_value_server/src/cli_client.cpp`). Both move a pointer over a buffer and count down what is
missing, whatever pieces the calls of `read` and `write` come back with.

* `run_readFull`, `run_writeAll`: what the loops leave behind.
* `io_loops`: both statements together.
-/

namespace Byor.KeyValue.Cli

open Wire
open Optimized (Bytes)

/-- How a loop can leave the ground the source stands on. -/
inductive Fault
  /-- `assert((size_t)rv <= n)` fails, and `n -= (size_t)rv` would wrap around. -/
  | assertion
  /-- A copy past the end of the buffer. -/
  | outOfBuffer
  /-- The loop has not ended. -/
  | stillRunning
  deriving DecidableEq, Repr

/-- A program over a connection. -/
abbrev Io := EStateM Fault Socket

/-- The kernel copies what was read to the position `p` of the buffer. -/
def store (rbuf : Bytes) (p : ℕ) (b : Bytes) : Io Bytes :=
  match copyAt rbuf p b with
  | some rbuf => pure rbuf
  | none => throw .outOfBuffer

/-- `read_full`, at most `fuel` tests of its condition. The pointer `buf` is a position in an array
`rbuf` of the caller. -/
def readFull (c : Peer) : ℕ → Bytes → ℕ → ℕ → Io (ℤ × Bytes)
  | 0, _, _, _ => throw .stillRunning
  | fuel + 1, rbuf, buf, n =>
    if 0 < n then do
      let (rv, b) ← c.read n
      if rv ≤ 0 then return (-1, rbuf)
      else do
        let rbuf ← store rbuf buf b
        if n < rv.toNat then throw .assertion
        else readFull c fuel rbuf (buf + rv.toNat) (n - rv.toNat)
    else return (0, rbuf)

/-- `write_all`, at most `fuel` tests of its condition, with the bytes from the pointer `buf` on. -/
def writeAll (c : Peer) : ℕ → Bytes → ℕ → Io ℤ
  | 0, _, _ => throw .stillRunning
  | fuel + 1, buf, n =>
    if 0 < n then do
      let rv ← c.write (buf.take n)
      if rv ≤ 0 then return -1
      else if n < rv.toNat then throw .assertion
      else writeAll c fuel (buf.drop rv.toNat) (n - rv.toNat)
    else return 0

variable {c : Peer} {s : Socket} {rbuf buf : Bytes} {p n m fuel : ℕ}

/-! ## One turn -/

theorem run_readFull_zero : (readFull c (fuel + 1) rbuf p 0).run s = .ok (0, rbuf) s := rfl

/-- A call that brings nothing ends the loop. -/
theorem run_readFull_stop (rbuf : Bytes) (p : ℕ) (hn : 0 < n) (h : c.result s.calls ≤ 0) : ∃ s',
    (∀ fuel, (readFull c (fuel + 1) rbuf p n).run s = .ok (-1, rbuf) s') ∧
      s'.taken = s.taken ∧ s'.sent = s.sent := by
  rcases Int.lt_or_le (c.result s.calls) 0 with hneg | hzero
  · refine ⟨s.failed (c.errno s.calls), fun fuel => ?_, rfl, rfl⟩
    rw [readFull, if_pos hn]
    simp only [EStateM.run_bind, run_read_of_neg hneg]
    rfl
  · have heq : c.result s.calls = 0 := Int.le_antisymm h hzero
    have hmin : min (c.result s.calls).toNat n = 0 := by
      rw [heq]
      exact Nat.zero_min n
    refine ⟨s.read 0, fun fuel => ?_, rfl, rfl⟩
    rw [readFull, if_pos hn]
    simp only [EStateM.run_bind, run_read hzero hmin]
    rfl

/-- A call that brings bytes moves the pointer behind them. -/
theorem run_readFull_move (hn : 0 < n) (h : 0 < c.result s.calls) {rbuf' : Bytes}
    (hm : min (c.result s.calls).toNat n = m)
    (hcopy : copyAt rbuf p (bytesAt c.stream s.taken m) = some rbuf') :
    (readFull c (fuel + 1) rbuf p n).run s =
      (readFull c fuel rbuf' (p + m) (n - m)).run (s.read m) := by
  rw [readFull, if_pos hn]
  simp only [EStateM.run_bind, run_read (Int.le_of_lt h) hm, store, hcopy, Int.toNat_natCast]
  rw [if_neg (by omega), pure_bind, if_neg (by omega)]

theorem run_writeAll_zero : (writeAll c (fuel + 1) buf 0).run s = .ok 0 s := rfl

/-- A call that takes nothing ends the loop. -/
theorem run_writeAll_stop (buf : Bytes) (hn : 0 < n) (h : c.result s.calls ≤ 0) : ∃ s',
    (∀ fuel, (writeAll c (fuel + 1) buf n).run s = .ok (-1) s') ∧
      s'.taken = s.taken ∧ s'.sent = s.sent := by
  rcases Int.lt_or_le (c.result s.calls) 0 with hneg | hzero
  · refine ⟨s.failed (c.errno s.calls), fun fuel => ?_, rfl, rfl⟩
    rw [writeAll, if_pos hn]
    simp only [EStateM.run_bind, run_write_of_neg hneg]
    rfl
  · have heq : c.result s.calls = 0 := Int.le_antisymm h hzero
    have hmin : min (c.result s.calls).toNat (buf.take n).length = 0 := by
      rw [heq]
      exact Nat.zero_min _
    refine ⟨s.wrote [], fun fuel => ?_, rfl, List.append_nil _⟩
    rw [writeAll, if_pos hn]
    simp only [EStateM.run_bind, run_write hzero hmin]
    rfl

/-- A call that takes bytes moves the pointer behind them. -/
theorem run_writeAll_move (hn : 0 < n) (h : 0 < c.result s.calls) (hfit : n ≤ buf.length)
    (hm : min (c.result s.calls).toNat n = m) : (writeAll c (fuel + 1) buf n).run s =
      (writeAll c fuel (buf.drop m) (n - m)).run (s.wrote (buf.take m)) := by
  have hmin : min (c.result s.calls).toNat (buf.take n).length = m := by
    rw [List.length_take, Nat.min_eq_left hfit]
    exact hm
  have htake : (buf.take n).take m = buf.take m := by
    rw [List.take_take, Nat.min_eq_left (by omega)]
  rw [writeAll, if_pos hn]
  simp only [EStateM.run_bind, run_write (Int.le_of_lt h) hmin, Int.toNat_natCast, htake]
  rw [if_neg (by omega), if_neg (by omega)]

/-! ## The loops -/

/-- **`read_full`** ends by itself. It copies bytes of the stream to the position `p`, no more than
the `n` it is asked for, and returns `0` exactly if all of them came; it then has made the calls
that bring them, and no other. -/
theorem run_readFull (c : Peer) (s : Socket) (rbuf : Bytes) (p n : ℕ)
    (hfit : p + n ≤ rbuf.length) : ∃ m ≤ n, ∃ rbuf' s',
      (∀ fuel > n, (readFull c fuel rbuf p n).run s = .ok (if m = n then 0 else -1, rbuf') s') ∧
      copyAt rbuf p (bytesAt c.stream s.taken m) = some rbuf' ∧
      s'.taken = s.taken + m ∧ s'.sent = s.sent ∧ (m = n ↔ Brings c.result s.calls n) ∧
      (m = n → Completes c.result s.calls n s'.calls) := by
  generalize hj : s.calls = j
  induction j, n using transfer_induction c.result generalizing s rbuf p with
  | done j =>
    refine ⟨0, Nat.le_refl 0, rbuf, s, fun fuel hfuel => ?_, copyAt_nil hfit, rfl, rfl,
      iff_of_true rfl (brings_zero c.result j), fun _ => (completes_zero c.result j).mpr hj⟩
    obtain ⟨fuel, rfl⟩ := Nat.exists_eq_succ_of_ne_zero (Nat.ne_of_gt hfuel)
    exact run_readFull_zero
  | stop j n hn hstop =>
    subst hj
    obtain ⟨s', hrun, htaken, hsent⟩ := run_readFull_stop rbuf p hn hstop
    refine ⟨0, Nat.zero_le n, rbuf, s', fun fuel hfuel => ?_, copyAt_nil (by omega), htaken, hsent,
      iff_of_false (Nat.ne_of_lt hn) fun h => ?_, fun he => absurd he (Nat.ne_of_lt hn)⟩
    · obtain ⟨fuel, rfl⟩ := Nat.exists_eq_succ_of_ne_zero (Nat.ne_zero_of_lt hfuel)
      rw [if_neg (Nat.ne_of_lt hn)]
      exact hrun fuel
    · exact absurd ((brings_iff hn).mp h).1 (Int.not_lt.mpr hstop)
  | move j n hn hpos ih =>
    subst hj
    obtain ⟨m, hm⟩ : ∃ m, min (c.result s.calls).toNat n = m := ⟨_, rfl⟩
    obtain ⟨rbuf₁, hcopy₁⟩ : ∃ rbuf₁, copyAt rbuf p (bytesAt c.stream s.taken m) = some rbuf₁ :=
      exists_copyAt (by rw [length_bytesAt]; omega)
    have hlen₁ := (length_of_copyAt hcopy₁).1
    have hrest : n - (c.result s.calls).toNat = n - m := by omega
    rw [hrest] at ih
    obtain ⟨m', hle, rbuf', s', hrun, hcopy, htaken, hsent, hiff, hcalls⟩ :=
      ih (s.read m) rbuf₁ (p + m) (by omega) rfl
    have hall : m' = n - m ↔ m + m' = n := by omega
    refine ⟨m + m', by omega, rbuf', s', fun fuel hfuel => ?_, ?_, ?_, hsent, ?_, fun he => ?_⟩
    · obtain ⟨fuel, rfl⟩ := Nat.exists_eq_succ_of_ne_zero (Nat.ne_zero_of_lt hfuel)
      rw [run_readFull_move hn hpos hm hcopy₁, hrun fuel (by omega), if_congr hall rfl rfl]
    · rw [bytesAt_add]
      refine copyAt_trans hcopy₁ ?_
      rw [length_bytesAt]
      exact hcopy
    · rw [htaken, ← Nat.add_assoc]
      rfl
    · rw [← hall, hiff, brings_iff hn, hrest]
      exact (and_iff_right hpos).symm
    · rw [completes_iff hn, hrest]
      exact ⟨hpos, hcalls (hall.mpr he)⟩

/-- **`write_all`** ends by itself. It writes the bytes of the buffer in order, no more than the `n`
it is given, and returns `0` exactly if all of them were accepted. -/
theorem run_writeAll (c : Peer) (s : Socket) (buf : Bytes) (n : ℕ) (hfit : n ≤ buf.length) :
    ∃ m ≤ n, ∃ s',
      (∀ fuel > n, (writeAll c fuel buf n).run s = .ok (if m = n then 0 else -1) s') ∧
      s'.sent = s.sent ++ buf.take m ∧ s'.taken = s.taken ∧
      (m = n ↔ Brings c.result s.calls n) := by
  generalize hj : s.calls = j
  induction j, n using transfer_induction c.result generalizing s buf with
  | done j =>
    refine ⟨0, Nat.le_refl 0, s, fun fuel hfuel => ?_, (List.append_nil _).symm, rfl,
      iff_of_true rfl (brings_zero c.result j)⟩
    obtain ⟨fuel, rfl⟩ := Nat.exists_eq_succ_of_ne_zero (Nat.ne_of_gt hfuel)
    exact run_writeAll_zero
  | stop j n hn hstop =>
    subst hj
    obtain ⟨s', hrun, htaken, hsent⟩ := run_writeAll_stop buf hn hstop
    refine ⟨0, Nat.zero_le n, s', fun fuel hfuel => ?_, ?_, htaken,
      iff_of_false (Nat.ne_of_lt hn) fun h => ?_⟩
    · obtain ⟨fuel, rfl⟩ := Nat.exists_eq_succ_of_ne_zero (Nat.ne_zero_of_lt hfuel)
      rw [if_neg (Nat.ne_of_lt hn)]
      exact hrun fuel
    · rw [hsent]
      exact (List.append_nil _).symm
    · exact absurd ((brings_iff hn).mp h).1 (Int.not_lt.mpr hstop)
  | move j n hn hpos ih =>
    subst hj
    obtain ⟨m, hm⟩ : ∃ m, min (c.result s.calls).toNat n = m := ⟨_, rfl⟩
    have hrest : n - (c.result s.calls).toNat = n - m := by omega
    rw [hrest] at ih
    have hlen : n - m ≤ (buf.drop m).length := by
      rw [List.length_drop]
      omega
    obtain ⟨m', hle, s', hrun, hsent, htaken, hiff⟩ :=
      ih (s.wrote (buf.take m)) (buf.drop m) hlen rfl
    have hall : m' = n - m ↔ m + m' = n := by omega
    refine ⟨m + m', by omega, s', fun fuel hfuel => ?_, ?_, htaken, ?_⟩
    · obtain ⟨fuel, rfl⟩ := Nat.exists_eq_succ_of_ne_zero (Nat.ne_zero_of_lt hfuel)
      rw [run_writeAll_move hn hpos hfit hm, hrun fuel (by omega), if_congr hall rfl rfl]
    · rw [hsent, List.take_add, ← List.append_assoc]
      rfl
    · rw [← hall, hiff, brings_iff hn, hrest]
      exact (and_iff_right hpos).symm

/-! ## Both loops -/

/-- **The loops of the client.** For every sequence of results, `read_full` and `write_all` end,
with no failed assertion and no copy past the end of a buffer. They return `0` exactly if `n` bytes
were moved before the first result that is `0` or negative. `read_full` then has put the next `n`
bytes of the stream into the buffer; in every case it has consumed just the bytes it put there, and
touched nothing else. `write_all` has sent some of the bytes it was given, from the first one on,
each once. -/
theorem io_loops (c : Peer) (s : Socket) :
    (∀ rbuf p n, p + n ≤ rbuf.length → ∃ m ≤ n, ∃ s', (∀ fuel > n,
      (readFull c fuel rbuf p n).run s = .ok (if m = n then 0 else -1,
        rbuf.take p ++ bytesAt c.stream s.taken m ++ rbuf.drop (p + m)) s') ∧
      s'.taken = s.taken + m ∧ s'.sent = s.sent ∧ (m = n ↔ Brings c.result s.calls n)) ∧
    (∀ buf n, n ≤ buf.length → ∃ m ≤ n, ∃ s', (∀ fuel > n,
      (writeAll c fuel buf n).run s = .ok (if m = n then 0 else -1) s') ∧
      s'.sent = s.sent ++ buf.take m ∧ s'.taken = s.taken ∧
      (m = n ↔ Brings c.result s.calls n)) := by
  refine ⟨fun rbuf p n hfit => ?_, fun buf n hfit => run_writeAll c s buf n hfit⟩
  obtain ⟨m, hm, rbuf', s', hrun, hcopy, htaken, hsent, hiff, -⟩ := run_readFull c s rbuf p n hfit
  obtain ⟨-, rfl⟩ := eq_of_copyAt hcopy
  rw [length_bytesAt] at hrun
  exact ⟨m, hm, s', hrun, htaken, hsent, hiff⟩

/-- A connection that has not been used. -/
def fresh : Socket := ⟨0, 0, [], 0⟩

/-- Four bytes in pieces of at most three, to and from the middle of a buffer. -/
theorem io_loops_pieces :
    (∃ m ≤ 4, ∃ s', (readFull ⟨UInt8.ofNat, fun _ => 3, fun _ => 0⟩ 5 [9, 9, 9, 9, 9, 9] 1 4).run
        fresh = .ok (if m = 4 then 0 else -1, [9] ++ bytesAt UInt8.ofNat 0 m ++
          ([9, 9, 9, 9, 9, 9] : Bytes).drop (1 + m)) s' ∧
      (m = 4 ↔ Brings (fun _ => 3) 0 4)) ∧
    ∃ m ≤ 4, ∃ s', (writeAll ⟨UInt8.ofNat, fun _ => 3, fun _ => 0⟩ 5 [1, 2, 3, 4, 5] 4).run
        fresh = .ok (if m = 4 then 0 else -1) s' ∧ s'.sent = ([1, 2, 3, 4, 5] : Bytes).take m := by
  obtain ⟨hread, hwrite⟩ := io_loops ⟨UInt8.ofNat, fun _ => 3, fun _ => 0⟩ fresh
  obtain ⟨m, hm, s', hrun, -, -, hiff⟩ := hread [9, 9, 9, 9, 9, 9] 1 4 (by decide)
  obtain ⟨m', hm', s'', hrun', hsent, -⟩ := hwrite [1, 2, 3, 4, 5] 4 (by decide)
  exact ⟨⟨m, hm, s', hrun 5 (by decide), hiff⟩, m', hm', s'', hrun' 5 (by decide), hsent⟩

end Byor.KeyValue.Cli
