import Byor.KeyValue.Server
import Byor.Optimized.Client

/-!
# The command-line client

`send_req` of the client for the first key-value server (`04_key_value_server/src/cli_client.cpp`).
It encodes a request into an array on the stack, by index, where `RedisSerializer::serialize` of the
optimized client fills a vector of the right size, by pointer.

* `sendArgs_eq`: the two loops over the strings do the same.
* `sendReq_eq_serialize`: `send_req` refuses exactly the requests above `k_max_msg`, sends any other
  one as `serialize` encodes it, and the server parses it back.
-/

namespace Byor.KeyValue

open Wire Optimized

/-- `k_max_msg` -/
def kMaxMsg : ℕ := 4096

/-- `char wbuf[4 + k_max_msg]`, whatever the stack holds there. -/
abbrev Wbuf := {wbuf : Bytes // wbuf.length = 4 + kMaxMsg}

/-- What `send_req` comes to. -/
inductive SendReq
  /-- `-1`, before anything is sent. -/
  | refused
  /-- `write_all` of these bytes. -/
  | writeAll (buf : Bytes)
  deriving DecidableEq, Repr

/-- The loop of `send_req` that copies the strings to the index `cur`. -/
def sendArgs : Bytes → ℕ → List Bytes → Option Bytes
  | wbuf, _, [] => some wbuf
  | wbuf, cur, s :: cmd => do
    let p := s.length % 2 ^ 32
    let wbuf ← copyAt wbuf cur (leBytes 4 p)
    let wbuf ← copyAt wbuf (cur + 4) s
    sendArgs wbuf (cur + (4 + s.length)) cmd

/-- `send_req`. The sizes are of type `uint32_t`; a copy past the end of `wbuf` is undefined
(`none`). -/
def sendReq (wbuf : Wbuf) (cmd : List Bytes) : Option SendReq := do
  let len := cmd.foldl (fun len s => (len + (4 + s.length)) % 2 ^ 32) 4
  if kMaxMsg < len then return .refused
  let wbuf ← copyAt wbuf.1 0 (leBytes 4 len)
  let n := cmd.length % 2 ^ 32
  let wbuf ← copyAt wbuf 4 (leBytes 4 n)
  let wbuf ← sendArgs wbuf 8 cmd
  return .writeAll (wbuf.take ((4 + len) % 2 ^ 32))

/-- The number of bytes behind the header, as `send_req` adds it up. -/
def reqLen (cmd : List Bytes) : ℕ := 4 + (cmd.map fun s => 4 + s.length).sum

variable {wbuf : Wbuf} {cmd : List Bytes}

theorem reqLen_eq (cmd : List Bytes) : reqLen cmd = (encodePayload cmd).length := by
  rw [length_encodePayload]
  rfl

theorem length_le_reqLen {s : Bytes} (hs : s ∈ cmd) : 4 + s.length ≤ reqLen cmd := by
  have hle : 4 + s.length ≤ (cmd.map fun s => 4 + s.length).sum :=
    List.single_le_sum (fun _ _ => Nat.zero_le _) _ (List.mem_map_of_mem hs)
  exact hle.trans (Nat.le_add_left ..)

theorem four_mul_length_le_reqLen (cmd : List Bytes) : 4 + 4 * cmd.length ≤ reqLen cmd := by
  have hsum : (cmd.map fun s => 4 + s.length).sum =
      4 * cmd.length + (cmd.map List.length).sum := sum_map_lenFieldSize_add cmd
  rw [reqLen, hsum]
  omega

/-- The loops of the two clients over the strings do the same. -/
theorem sendArgs_eq (wbuf : Bytes) (cur : ℕ) (cmd : List Bytes)
    (hs : ∀ s ∈ cmd, s.length < 2 ^ 32) : sendArgs wbuf cur cmd = serializeArgs wbuf cur cmd := by
  induction cmd generalizing wbuf cur with
  | nil => rfl
  | cons s cmd ih =>
    obtain ⟨hlt, hs⟩ := List.forall_mem_cons.mp hs
    have hlen : s.take (s.length % 2 ^ 32) = s := by
      rw [Nat.mod_eq_of_lt hlt, List.take_of_length_le (Nat.le_refl _)]
    have hcur : cur + (4 + s.length) = cur + lenFieldSize + s.length % 2 ^ 32 := by
      rw [Nat.mod_eq_of_lt hlt, Nat.add_assoc]
      rfl
    rw [sendArgs, serializeArgs, hlen, hcur]
    simp only [ih _ _ hs]
    rfl

/-- Below 4 GiB `send_req` adds up the sizes as they are. -/
theorem foldl_len_eq (h : reqLen cmd < 2 ^ 32) :
    cmd.foldl (fun len s => (len + (4 + s.length)) % 2 ^ 32) 4 = reqLen cmd :=
  foldl_add_mod (fun s : Bytes => 4 + s.length) cmd h

theorem sendReq_refused (h : reqLen cmd < 2 ^ 32) (hlen : kMaxMsg < reqLen cmd) :
    sendReq wbuf cmd = some .refused := by
  rw [sendReq]
  simp only [foldl_len_eq h, if_pos hlen]
  rfl

/-- A request within the limit fills the front of the array with its frame. -/
theorem sendReq_writeAll (hlen : reqLen cmd ≤ kMaxMsg) :
    sendReq wbuf cmd = some (.writeAll (record lenFieldSize (encodePayload cmd))) := by
  have hmax : kMaxMsg = 4096 := rfl
  have hlt : reqLen cmd < 2 ^ 32 := by omega
  have hs : ∀ s ∈ cmd, s.length < 2 ^ 32 := by
    intro s hs
    have hle := length_le_reqLen hs
    omega
  have hn : cmd.length % 2 ^ 32 = cmd.length := by
    have hle := four_mul_length_le_reqLen cmd
    exact Nat.mod_eq_of_lt (by omega)
  have hfill := fill_append cmd hs wbuf.1 (by
    rw [wbuf.2, ← reqLen_eq]
    exact Nat.add_le_add_left hlen 4)
  have hframe : (4 + reqLen cmd) % 2 ^ 32 = (record lenFieldSize (encodePayload cmd)).length := by
    rw [length_record, ← reqLen_eq]
    exact Nat.mod_eq_of_lt (by omega)
  have hsend := congrArg (fun filled : Option Bytes => filled >>= fun wbuf =>
    some (SendReq.writeAll (wbuf.take (record lenFieldSize (encodePayload cmd)).length))) hfill
  simp only [bind_assoc, ← reqLen_eq] at hsend
  rw [sendReq]
  simp only [foldl_len_eq hlt, if_neg (Nat.not_lt.mpr hlen), hn, sendArgs_eq _ _ cmd hs, hframe]
  refine hsend.trans ?_
  simp only [Option.bind_eq_bind, Option.bind_some]
  exact congrArg (some ∘ SendReq.writeAll) List.take_left

theorem serialize_eq_of_reqLen (hlen : reqLen cmd ≤ kMaxMsg) :
    serialize cmd = some (record lenFieldSize (encodePayload cmd)) := by
  refine serialize_eq cmd ?_
  have hmax : kMaxMsg = 4096 := rfl
  have h4 : Optimized.lenFieldSize = 4 := rfl
  rw [← reqLen_eq]
  omega

/-- The server parses the payload of what is sent. -/
theorem parseReq_record (hlen : reqLen cmd ≤ kMaxMsg) :
    parseReq ((record lenFieldSize (encodePayload cmd)).drop lenFieldSize) [] = (true, cmd) := by
  have hmax : kMaxMsg = 4096 := rfl
  have hargs : cmd.length ≤ maxCmdArgs := by
    have hle := four_mul_length_le_reqLen cmd
    have hmaxArgs : maxCmdArgs = 200000 := rfl
    omega
  have hs : ∀ s ∈ cmd, s.length < 256 ^ Optimized.lenFieldSize := by
    intro s hs
    have hle := length_le_reqLen hs
    have hpow : 256 ^ Optimized.lenFieldSize = 2 ^ 32 := by decide
    omega
  have hparse := parseReq_encodePayload cmd hargs hs []
  rw [List.append_nil] at hparse
  rw [record, List.drop_left' (length_leBytes ..)]
  exact hparse

/-- **The two request encoders agree.** Below 4 GiB, `send_req` refuses a request above `k_max_msg`
without sending anything. It sends any other one, with every copy inside `wbuf`, as the bytes
`serialize` returns, and the server parses the payload behind the header to the same strings. -/
theorem sendReq_eq_serialize (wbuf : Wbuf) (cmd : List Bytes) (h : reqLen cmd < 2 ^ 32) :
    (reqLen cmd ≤ kMaxMsg → ∃ frame, sendReq wbuf cmd = some (.writeAll frame) ∧
      serialize cmd = some frame ∧ leVal (frame.take lenFieldSize) = reqLen cmd ∧
        parseReq (frame.drop lenFieldSize) [] = (true, cmd)) ∧
      (kMaxMsg < reqLen cmd → sendReq wbuf cmd = some .refused) := by
  refine ⟨fun hlen => ?_, sendReq_refused h⟩
  refine ⟨_, sendReq_writeAll hlen, serialize_eq_of_reqLen hlen, ?_, parseReq_record hlen⟩
  have hlt : (encodePayload cmd).length < 256 ^ lenFieldSize := by
    rw [← reqLen_eq, show 256 ^ lenFieldSize = 2 ^ 32 by decide]
    exact h
  rw [record, List.take_left' (length_leBytes ..), leVal_leBytes_of_lt hlt, reqLen_eq]

/-- The array with zeros on the stack. -/
def zeroWbuf : Wbuf := ⟨List.replicate (4 + kMaxMsg) 0, List.length_replicate⟩

theorem sendReq_eq_serialize_get :
    ∃ frame, sendReq zeroWbuf [ascii "get", ascii "k"] = some (.writeAll frame) ∧
      serialize [ascii "get", ascii "k"] = some frame ∧ leVal (frame.take lenFieldSize) = 16 ∧
        parseReq (frame.drop lenFieldSize) [] = (true, [ascii "get", ascii "k"]) :=
  (sendReq_eq_serialize zeroWbuf [ascii "get", ascii "k"] (by decide)).1 (by decide)

end Byor.KeyValue
