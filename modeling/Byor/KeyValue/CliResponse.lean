import Byor.KeyValue.CliClient
import Byor.KeyValue.CliIO

/-!
# Printing a response

`read_res` of the command-line client (`04_key_value_server/src/cli_client.cpp`). The length of a
response counts its status byte, and is also the precision with which the text behind the status
byte is printed.

* `run_readRes`: what is printed for a response frame, which depends on the byte of the array that
  stands behind the frame.
* `readRes_prints_iff`: the status and the data are printed, and nothing else, exactly if the data
  contain a NUL or that byte is one.
-/

namespace Byor.KeyValue.Cli

open Wire
open Optimized (Bytes ascii)

/-- `char rbuf[4 + k_max_msg + 1]`, whatever the stack holds there. -/
abbrev Rbuf := {rbuf : Bytes // rbuf.length = 4 + kMaxMsg + 1}

/-- What `read_res` returns and prints. -/
structure ReadRes where
  err : ℤ
  stdout : Bytes
  stderr : Bytes
  deriving DecidableEq, Repr

/-- `msg` -/
def msg (text : String) : Bytes := ascii text ++ ascii "\n"

/-- The conversion `%.*s` of `printf`: at most `precision` bytes, and none from a NUL on. -/
def printString (precision : ℕ) (s : Bytes) : Bytes := (s.take precision).takeWhile (· ≠ 0)

/-- `read_res`, with at most `fuel` tests in each loop. -/
def readRes (c : Peer) (fuel : ℕ) (rbuf : Rbuf) : Io ReadRes := do
  modify fun s => { s with errno := 0 }
  let (err, rbuf) ← readFull c fuel rbuf.1 0 4
  if err ≠ 0 then
    if (← get).errno = 0 then return ⟨err, [], msg "EOF"⟩
    else return ⟨err, [], msg "read() error"⟩
  else do
    let len := leVal (rbuf.take 4)
    if kMaxMsg < len then return ⟨-1, [], msg "too long"⟩
    else do
      let stdout := ascii "Received LEN: " ++ decimal len ++ ascii "\n"
      let (err, rbuf) ← readFull c fuel rbuf 4 len
      if err ≠ 0 then return ⟨err, stdout, msg "read() error"⟩
      else do
        let stdout := stdout ++ ascii "Received BODY: \n"
        let rescode := leVal ((rbuf.drop 4).take 1)
        return ⟨0, stdout ++ (ascii "server says: [" ++ decimal rescode ++ ascii "] " ++
          printString len (rbuf.drop 5) ++ ascii "\n"), []⟩

/-- What `read_res` prints for a response with the given length and status, if it shows `text`. -/
def printed (len : ℕ) (status : UInt8) (text : Bytes) : Bytes :=
  ascii "Received LEN: " ++ decimal len ++ ascii "\n" ++ ascii "Received BODY: \n" ++
    (ascii "server says: [" ++ decimal status.toNat ++ ascii "] " ++ text ++ ascii "\n")

/-- The calls of `read` bring a header, and then the `len` bytes behind it. -/
def BringsFrame (r : ℕ → ℤ) (j len : ℕ) : Prop := ∃ k, Completes r j 4 k ∧ Brings r k len

/-- `read_res` returns `0` and shows `text` for a response, and prints nothing else. -/
def Prints (c : Peer) (s : Socket) (rbuf : Rbuf) (len : ℕ) (status : UInt8) (text : Bytes) : Prop :=
  ∃ s', ∀ fuel > kMaxMsg, (readRes c fuel rbuf).run s = .ok ⟨0, printed len status text, []⟩ s'

variable {c : Peer} {s : Socket} {rbuf : Rbuf} {status : UInt8} {data : Bytes}

/-- All the bytes were read. -/
theorem run_readFull_brings (s : Socket) (r : Bytes) (p n : ℕ) (hfit : p + n ≤ r.length)
    (h : Brings c.result s.calls n) : ∃ rbuf' s',
      (∀ fuel > n, (readFull c fuel r p n).run s = .ok (0, rbuf') s') ∧
      copyAt r p (bytesAt c.stream s.taken n) = some rbuf' ∧ s'.taken = s.taken + n ∧
      Completes c.result s.calls n s'.calls := by
  obtain ⟨m, -, rbuf', s', hrun, hcopy, htaken, -, hiff, hcalls⟩ := run_readFull c s r p n hfit
  obtain rfl := hiff.mpr h
  rw [if_pos rfl] at hrun
  exact ⟨rbuf', s', hrun, hcopy, htaken, hcalls rfl⟩

/-! ## What the array holds -/

section

variable {r : Bytes}

/-- The header of a response that was read to the front of the array. -/
theorem leVal_header (h : (status :: data).length < 256 ^ 4) :
    leVal (((record 4 (status :: data)).take 4 ++ r).take 4) = 1 + data.length := by
  have hword : (record 4 (status :: data)).take 4 = leBytes 4 (status :: data).length :=
    List.take_left' (length_leBytes ..)
  rw [hword, leVal_take_leBytes_append h, List.length_cons, Nat.add_comm]

/-- The status byte of a response at the front of the array. -/
theorem status_of_record : ((record 4 (status :: data) ++ r).drop 4).take 1 = [status] := by
  rw [record, List.append_assoc, List.drop_left' (length_leBytes ..)]
  rfl

/-- Behind the status byte, the length of the response takes in one byte behind the data. -/
theorem data_of_record {stale : UInt8} (hstale : r[0]? = some stale) :
    ((record 4 (status :: data) ++ r).drop 5).take (1 + data.length) = data ++ [stale] := by
  have hdata : (record 4 (status :: data) ++ r).drop 5 = data ++ r := by
    rw [record, List.append_assoc, show 5 = 4 + 1 from rfl, ← List.drop_drop,
      List.drop_left' (length_leBytes ..)]
    rfl
  have hone : r.take 1 = [stale] := by
    cases r with
    | nil => cases hstale
    | cons x r => exact congrArg ([·]) (Option.some.inj hstale)
  rw [hdata, Nat.add_comm, List.take_length_add_append, hone]

end

/-- **What is printed for a response frame**: one byte more than the data is looked at. -/
theorem run_readRes (status : UInt8) (data : Bytes) (hlen : 1 + data.length ≤ kMaxMsg)
    (hframe : bytesAt c.stream s.taken (4 + (1 + data.length)) = record 4 (status :: data))
    (hbrings : BringsFrame c.result s.calls (1 + data.length)) {stale : UInt8}
    (hstale : rbuf.1[5 + data.length]? = some stale) :
    Prints c s rbuf (1 + data.length) status ((data ++ [stale]).takeWhile (· ≠ 0)) := by
  have hmax : kMaxMsg = 4096 := rfl
  have hsize := rbuf.2
  obtain ⟨k, hheader, hbody⟩ := hbrings
  obtain ⟨rbuf₁, s₁, hrun₁, hcopy₁, htaken₁, hcalls₁⟩ := run_readFull_brings
    { s with errno := 0 } rbuf.1 0 4 (by omega) hheader.brings
  obtain rfl : k = s₁.calls := hheader.unique hcalls₁
  obtain ⟨hsize₁, -⟩ := length_of_copyAt hcopy₁
  obtain ⟨rbuf₂, s₂, hrun₂, hcopy₂, -, -⟩ := run_readFull_brings
    s₁ rbuf₁ 4 (1 + data.length) (by omega) hbody
  -- both calls together copy the frame to the front of the array
  have hcopy : copyAt rbuf.1 0 (record 4 (status :: data)) = some rbuf₂ := by
    rw [← hframe, bytesAt_add]
    rw [htaken₁] at hcopy₂
    exact copyAt_trans hcopy₁ (by rw [length_bytesAt]; exact hcopy₂)
  obtain ⟨-, hall⟩ := eq_of_copyAt hcopy
  have hword : leVal (rbuf₁.take 4) = 1 + data.length := by
    rw [← take_bytesAt (Nat.le_add_right 4 (1 + data.length)), hframe] at hcopy₁
    rw [(eq_of_copyAt hcopy₁).2]
    exact leVal_header (by rw [List.length_cons]; omega)
  have hrest : (rbuf.1.drop (0 + (record 4 (status :: data)).length))[0]? = some stale := by
    rw [List.getElem?_drop, length_record, List.length_cons, ← hstale]
    congr 1
    omega
  refine ⟨s₂, fun fuel hfuel => ?_⟩
  have hstatus : (rbuf₂.drop 4).take 1 = [status] := by
    rw [hall]
    exact status_of_record
  have htext : (rbuf₂.drop 5).take (1 + data.length) = data ++ [stale] := by
    rw [hall]
    exact data_of_record hrest
  simp only [readRes, EStateM.run_bind, EStateM.run_modify, hrun₁ fuel (by omega), ne_eq,
    not_true_eq_false, if_false, hword, if_neg (Nat.not_lt.mpr hlen), hrun₂ fuel (by omega),
    hstatus, printString, htext, EStateM.run_pure]
  rfl

/-! ## When nothing else is printed -/

/-- One byte more makes no difference exactly if it is not reached, or is a NUL itself. -/
theorem takeWhile_append_singleton (data : Bytes) (x : UInt8) :
    (data ++ [x]).takeWhile (· ≠ 0) = data.takeWhile (· ≠ 0) ↔ 0 ∈ data ∨ x = 0 := by
  induction data with
  | nil =>
    by_cases hx : x = 0
    · simp [hx]
    · simp [hx]
  | cons b data ih =>
    by_cases hb : b = 0
    · simp [hb]
    · have hb' : ¬ 0 = b := fun h => hb h.symm
      simpa [hb, hb'] using ih

theorem printed_inj {len : ℕ} {text text' : Bytes}
    (h : printed len status text = printed len status text') : text = text' := by
  rw [printed, printed] at h
  exact List.append_cancel_left (List.append_cancel_right (List.append_cancel_left h))

/-- Only one text is shown. -/
theorem Prints.unique {len : ℕ} {text text' : Bytes} (h : Prints c s rbuf len status text)
    (h' : Prints c s rbuf len status text') : text = text' := by
  obtain ⟨s₁, hrun⟩ := h
  obtain ⟨s₂, hrun'⟩ := h'
  have hlast := (hrun (kMaxMsg + 1) (Nat.lt_succ_self _)).symm.trans
    (hrun' (kMaxMsg + 1) (Nat.lt_succ_self _))
  exact printed_inj (congrArg ReadRes.stdout (EStateM.Result.ok.inj hlast).1)

/-- **When a response is printed as it is**: for a response frame within the limit, however it is
split and whatever the stack held, `read_res` prints the status and the data up to the first NUL
and nothing else exactly if the data contain a NUL, or the byte of the array behind the frame was
one. -/
theorem readRes_prints_iff (c : Peer) (s : Socket) (rbuf : Rbuf) (status : UInt8) (data : Bytes)
    (hlen : 1 + data.length ≤ kMaxMsg)
    (hframe : bytesAt c.stream s.taken (4 + (1 + data.length)) = record 4 (status :: data))
    (hbrings : BringsFrame c.result s.calls (1 + data.length)) :
    Prints c s rbuf (1 + data.length) status (data.takeWhile (· ≠ 0)) ↔
      0 ∈ data ∨ rbuf.1[5 + data.length]? = some 0 := by
  have hsize := rbuf.2
  have hin : 5 + data.length < rbuf.1.length := by omega
  have hstale := List.getElem?_eq_getElem hin
  have hprints := run_readRes status data hlen hframe hbrings hstale
  rw [hstale, Option.some_inj, ← takeWhile_append_singleton]
  constructor
  · exact fun h => hprints.unique h
  · intro h
    rwa [h] at hprints

/-- The stack holds an `X` everywhere. -/
def staleRbuf : Rbuf := ⟨List.replicate (4 + kMaxMsg + 1) 88, List.length_replicate⟩

/-- The stack holds a zero everywhere. -/
def zeroRbuf : Rbuf := ⟨List.replicate (4 + kMaxMsg + 1) 0, List.length_replicate⟩

/-- A server that sends the response `v` byte by byte. -/
def respondsV : Peer := ⟨memoryOf 0 (record 4 (0 :: ascii "v")), fun _ => 1, fun _ => 0⟩

theorem respondsV_bringsFrame (len : ℕ) : BringsFrame respondsV.result 0 len := by
  obtain ⟨k, hk⟩ := exists_completes (r := respondsV.result) (j := 0)
    (fun _ _ => Int.one_pos) 4
  obtain ⟨k', hk'⟩ := exists_completes (r := respondsV.result) (j := k)
    (fun _ _ => Int.one_pos) len
  exact ⟨k, hk, hk'.brings⟩

/-- On a stack of zeros the response `v` is shown as it is. -/
theorem readRes_prints_v : Prints respondsV fresh zeroRbuf 2 0 (ascii "v") := by
  have hzero : zeroRbuf.1[6]? = some 0 := by
    rw [zeroRbuf, List.getElem?_replicate]
    rfl
  exact (readRes_prints_iff respondsV fresh zeroRbuf 0 (ascii "v") (by decide) (by decide)
    (respondsV_bringsFrame 2)).mpr (.inr hzero)

/-- The response `v` is shown with an `X` behind it. -/
theorem readRes_prints_stale : ¬ Prints respondsV fresh staleRbuf 2 0 (ascii "v") := by
  intro h
  have hstale : staleRbuf.1[6]? = some 88 := by
    rw [staleRbuf, List.getElem?_replicate]
    rfl
  have hprints : Prints respondsV fresh staleRbuf 2 0 ((ascii "v" ++ [88]).takeWhile (· ≠ 0)) :=
    run_readRes 0 (ascii "v") (by decide) (by decide) (respondsV_bringsFrame 2) hstale
  exact absurd (hprints.unique h) (by decide)

end Byor.KeyValue.Cli
