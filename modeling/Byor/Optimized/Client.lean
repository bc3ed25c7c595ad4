import Mathlib.Algebra.Order.BigOperators.Group.List
import Byor.Foundations.Buffer
import Byor.Foundations.Decimal
import Byor.Optimized.Commands

/-!
# The client

`RedisSerializer`, `RedisDeserializer`, `TcpTransport` and `SocketClient` of the optimized client
(`include/client.h`).

* `serialize_eq`: what `serialize` puts into its buffer is the frame the server's parser reads.
* `deserialize_eq`: the text `deserialize` makes of a buffer that holds at least a header and a
  status.
* `receiveMessage_eq`: what is shown after a `recv`. `TcpTransport::receive` returns its whole
  buffer, so `deserialize` cannot tell received bytes from the zeros behind them.
-/

namespace Byor.Optimized

open Wire

/-! ## `RedisSerializer` -/

/-- The loop of `serialize` that writes `len0`, `cmd0` and so on at the cursor `p`. -/
def serializeArgs : Bytes → ℕ → List Bytes → Option Bytes
  | wbuf, _, [] => some wbuf
  | wbuf, p, s :: message => do
    let len := s.length % 2 ^ 32
    let wbuf ← copyAt wbuf p (leBytes lenFieldSize len)
    let p := p + lenFieldSize
    let wbuf ← copyAt wbuf p (s.take len)
    serializeArgs wbuf (p + len) message

/-- `RedisSerializer::serialize`. The sizes are of type `uint32_t`; a copy past the end of the
buffer is undefined (`none`). -/
def serialize (message : List Bytes) : Option Bytes := do
  let totalLen := message.foldl (fun totalLen s => (totalLen + s.length) % 2 ^ 32)
    ((2 * lenFieldSize + lenFieldSize * message.length) % 2 ^ 32)
  let wbuf := List.replicate totalLen 0
  -- all bytes excluding `nbytes`
  let totalLen := (totalLen + 2 ^ 32 - lenFieldSize) % 2 ^ 32
  let wbuf ← copyAt wbuf 0 (leBytes lenFieldSize totalLen)
  let nstr := message.length % 2 ^ 32
  let wbuf ← copyAt wbuf lenFieldSize (leBytes lenFieldSize nstr)
  serializeArgs wbuf (2 * lenFieldSize) message

/-- Below 4 GiB a loop that adds up sizes does not overflow. -/
theorem foldl_add_mod {α : Type} (size : α → ℕ) (l : List α) {n : ℕ}
    (h : n + (l.map size).sum < 2 ^ 32) :
    l.foldl (fun len a => (len + size a) % 2 ^ 32) n = n + (l.map size).sum := by
  induction l generalizing n with
  | nil => rfl
  | cons a l ih =>
    rw [List.map_cons, List.sum_cons] at h ⊢
    rw [List.foldl_cons, Nat.mod_eq_of_lt (by omega), ih (by omega), Nat.add_assoc]

theorem sum_map_lenFieldSize_add (message : List Bytes) :
    (message.map fun s => lenFieldSize + s.length).sum =
      lenFieldSize * message.length + (message.map List.length).sum := by
  induction message with
  | nil => rfl
  | cons s message ih =>
    rw [List.map_cons, List.sum_cons, ih, List.length_cons, List.map_cons, List.sum_cons]
    ring

/-- The loop writes the encoded strings behind what was written before. -/
theorem serializeArgs_append (pre junk : Bytes) (message : List Bytes)
    (hs : ∀ s ∈ message, s.length < 2 ^ 32) (h : (encodeArgs message).length ≤ junk.length) :
    serializeArgs (pre ++ junk) pre.length message =
      some (pre ++ encodeArgs message ++ junk.drop (encodeArgs message).length) := by
  induction message generalizing pre junk with
  | nil =>
    rw [encodeArgs_nil, List.append_nil]
    rfl
  | cons s message ih =>
    obtain ⟨hlt, hs⟩ := List.forall_mem_cons.mp hs
    have hrec : (record lenFieldSize s).length = lenFieldSize + s.length := length_record ..
    rw [encodeArgs_cons, List.length_append, hrec] at h
    have hword := copyAt_append pre junk (leBytes lenFieldSize s.length)
      (by rw [length_leBytes]; omega)
    have hcopy := copyAt_append (pre ++ leBytes lenFieldSize s.length)
      (junk.drop (leBytes lenFieldSize s.length).length) s
      (by rw [List.length_drop, length_leBytes]; omega)
    rw [List.length_append, length_leBytes] at hcopy
    have hnext := ih (pre ++ leBytes lenFieldSize s.length ++ s)
      ((junk.drop lenFieldSize).drop s.length) hs
      (by rw [List.length_drop, List.length_drop]; omega)
    rw [List.length_append, List.length_append, length_leBytes] at hnext
    rw [serializeArgs, Nat.mod_eq_of_lt hlt, List.take_of_length_le (Nat.le_refl _)]
    simp only [hword, hcopy, hnext, length_leBytes, Option.bind_eq_bind, Option.bind_some]
    rw [encodeArgs_cons, record, List.drop_drop, List.drop_drop, List.length_append,
      List.length_append, length_leBytes]
    simp only [List.append_assoc, Nat.add_assoc]

/-- Writing the header, the number of strings and the strings fills the front of a buffer that is
large enough. -/
theorem fill_append (message : List Bytes) (hs : ∀ s ∈ message, s.length < 2 ^ 32) (wbuf : Bytes)
    (h : lenFieldSize + (encodePayload message).length ≤ wbuf.length) :
    (do
      let wbuf ← copyAt wbuf 0 (leBytes lenFieldSize (encodePayload message).length)
      let wbuf ← copyAt wbuf lenFieldSize (leBytes lenFieldSize message.length)
      serializeArgs wbuf (2 * lenFieldSize) message) =
        some (record lenFieldSize (encodePayload message) ++
          wbuf.drop (lenFieldSize + (encodePayload message).length)) := by
  have hpayload : (encodePayload message).length = lenFieldSize + (encodeArgs message).length := by
    rw [encodePayload, List.length_append, length_leBytes]
  have hfirst := copyAt_append [] wbuf (leBytes lenFieldSize (encodePayload message).length)
    (by rw [length_leBytes]; omega)
  have hsecond := copyAt_append (leBytes lenFieldSize (encodePayload message).length)
    (wbuf.drop lenFieldSize) (leBytes lenFieldSize message.length)
    (by rw [length_leBytes, List.length_drop]; omega)
  have hloop := serializeArgs_append (leBytes lenFieldSize (encodePayload message).length ++
    leBytes lenFieldSize message.length) ((wbuf.drop lenFieldSize).drop lenFieldSize) message hs
    (by rw [List.length_drop, List.length_drop]; omega)
  have hend : ((wbuf.drop lenFieldSize).drop lenFieldSize).drop (encodeArgs message).length =
      wbuf.drop (lenFieldSize + (encodePayload message).length) := by
    rw [List.drop_drop, List.drop_drop, hpayload]
  rw [List.nil_append, List.nil_append, List.length_nil, length_leBytes] at hfirst
  rw [length_leBytes, length_leBytes] at hsecond
  rw [hend, List.length_append, length_leBytes, length_leBytes] at hloop
  simp only [hfirst, hsecond, Option.bind_eq_bind, Option.bind_some]
  rw [show 2 * lenFieldSize = lenFieldSize + lenFieldSize from rfl, hloop, record, encodePayload]
  simp only [List.append_assoc]

/-- **The buffer `serialize` fills** is the frame of the encoded list of strings. -/
theorem serialize_eq (message : List Bytes)
    (h : lenFieldSize + (encodePayload message).length < 2 ^ 32) :
    serialize message = some (record lenFieldSize (encodePayload message)) := by
  have hlen : (encodePayload message).length =
      4 + (4 * message.length + (message.map List.length).sum) := by
    rw [length_encodePayload, sum_map_lenFieldSize_add]
    rfl
  have h4 : lenFieldSize = 4 := rfl
  have hshort : ∀ s ∈ message, s.length < 2 ^ 32 := by
    intro s hs
    have hle : s.length ≤ (message.map List.length).sum :=
      List.single_le_sum (fun _ _ => Nat.zero_le _) _ (List.mem_map_of_mem hs)
    omega
  have hstart : (2 * lenFieldSize + lenFieldSize * message.length) % 2 ^ 32 =
      2 * 4 + 4 * message.length := by
    rw [h4, Nat.mod_eq_of_lt (by omega)]
  have htotal : message.foldl (fun totalLen s => (totalLen + s.length) % 2 ^ 32)
      ((2 * lenFieldSize + lenFieldSize * message.length) % 2 ^ 32) =
        lenFieldSize + (encodePayload message).length := by
    rw [hstart, foldl_add_mod List.length message (by omega)]
    omega
  have hsub : (lenFieldSize + (encodePayload message).length + 2 ^ 32 - lenFieldSize) % 2 ^ 32 =
      (encodePayload message).length := by omega
  have hnstr : message.length % 2 ^ 32 = message.length := Nat.mod_eq_of_lt (by omega)
  rw [serialize]
  simp only [htotal, hsub, hnstr]
  rw [fill_append message hshort _ List.length_replicate.ge, List.drop_replicate, Nat.sub_self,
    List.replicate_zero, List.append_nil]

/-! ## `RedisDeserializer` -/

/-- `RedisDeserializer::deserialize`. Reading the status past the end of the message is undefined
(`none`). -/
def deserialize (message : Bytes) : Option Bytes :=
  if message.length < 4 then some (ascii "Did not receive enough bytes")
  else if maxMsgFieldSize < dataLen message then some (ascii "Received too many bytes!")
  else do
    let status ← message[4]?
    let resp := ascii "Status: " ++ decimal status.toNat
    let resp := resp ++ ascii ", Response: "
    if 1 < dataLen message ∧ 4 + 1 + dataLen message ≤ message.length then
      some (resp ++ (message.drop 5).take (dataLen message))
    else some resp

/-- The text for a status, up to the data. -/
def statusText (status : UInt8) : Bytes :=
  ascii "Status: " ++ decimal status.toNat ++ ascii ", Response: "

/-- The text for a response. -/
def Response.text (resp : Response) : Bytes := statusText resp.status.toByte ++ resp.data

theorem statusText_append_inj {a b : UInt8} {x y : Bytes}
    (h : statusText a ++ x = statusText b ++ y) : a = b ∧ x = y := by
  have hcut : ∀ (s : UInt8) (z : Bytes), statusText s ++ z =
      ascii "Status: " ++ (decimal s.toNat ++ 44 :: (ascii " Response: " ++ z)) := by
    intro s z
    have hsep : ascii ", Response: " = 44 :: ascii " Response: " := by decide
    rw [statusText, hsep, List.append_assoc, List.append_assoc, List.cons_append]
  rw [hcut, hcut] at h
  obtain ⟨hstatus, htail⟩ := decimal_append_inj (by decide) (List.append_cancel_left h)
  exact ⟨UInt8.toNat_inj.mp hstatus, List.append_cancel_left htail⟩

/-- What `deserialize` makes of a message with a header within the limit and a status. -/
theorem deserialize_eq {message : Bytes} {status : UInt8} (hlen : 4 ≤ message.length)
    (hmax : dataLen message ≤ maxMsgFieldSize) (hstatus : message[4]? = some status) :
    deserialize message = some (statusText status ++
      if 1 < dataLen message ∧ 5 + dataLen message ≤ message.length then
        (message.drop 5).take (dataLen message)
      else []) := by
  rw [deserialize, if_neg (Nat.not_lt.mpr hlen), if_neg (Nat.not_lt.mpr hmax), hstatus]
  simp only [Option.bind_eq_bind, Option.bind_some, statusText]
  split
  · rfl
  · rw [List.append_nil]

theorem deserialize_of_overLimit {message : Bytes} (h : OverLimit message) :
    deserialize message = some (ascii "Received too many bytes!") := by
  have h4 : 4 ≤ message.length := h.1
  rw [deserialize, if_neg (Nat.not_lt.mpr h4), if_pos h.2]

/-! ## `TcpTransport` and `SocketClient` -/

/-- The result of `recv`: the bytes it put into the buffer, `0`, or `-1`. -/
inductive RecvResult
  | bytes (b : Bytes)
  | eof
  | error

/-- The bytes that were received. -/
def RecvResult.received : RecvResult → Bytes
  | .bytes b => b
  | _ => []

/-- The default of `buffer_size` in `receive`. -/
def recvBufferSize : ℕ := 32 <<< 20

/-- `TcpTransport::receive`: the whole buffer, whatever `recv` returned. -/
def receive (r : RecvResult) : Bytes :=
  let buf := List.replicate recvBufferSize 0
  match r with
  | .bytes b => overwrite buf b
  | .eof => buf
  | .error => buf

/-- `SocketClient::receive_message` -/
def receiveMessage (r : RecvResult) : Option Bytes := deserialize (receive r)

theorem recvBufferSize_eq : recvBufferSize = 33554432 := by decide

theorem receive_eq (r : RecvResult) :
    receive r = r.received ++ List.replicate (recvBufferSize - r.received.length) 0 := by
  cases r with
  | bytes b => exact overwrite_replicate ..
  | eof => rfl
  | error => rfl

/-- The data `receive_message` shows after the bytes `b` were received, by the header in them. -/
def shownData (b : Bytes) : Bytes :=
  if 1 < dataLen b ∧ 5 + dataLen b ≤ recvBufferSize then
    (b.drop 5 ++ List.replicate (dataLen b) 0).take (dataLen b)
  else []

theorem dataLen_receive (r : RecvResult) : dataLen (receive r) = dataLen r.received := by
  rw [receive_eq]
  exact leVal_take_append_zeros ..

/-- **What is shown after a `recv`** that did not announce too much: bytes that were not received
are taken to be zero. -/
theorem receiveMessage_eq {r : RecvResult} (hr : r.received.length ≤ recvBufferSize)
    (hmax : dataLen r.received ≤ maxMsgFieldSize) :
    receiveMessage r = some (statusText (r.received.getD 4 0) ++ shownData r.received) := by
  have hsize := recvBufferSize_eq
  have hlen : (receive r).length = recvBufferSize := by
    rw [receive_eq, List.length_append, List.length_replicate]
    omega
  have hstatus : (receive r)[4]? = some (r.received.getD 4 0) := by
    rw [receive_eq]
    exact getElem?_append_replicate 0 (by omega)
  rw [receiveMessage, deserialize_eq (by omega) (by rwa [dataLen_receive]) hstatus, hlen,
    dataLen_receive, shownData]
  split
  · rename_i h
    rw [receive_eq, take_drop_append_replicate 0 (by omega)]
  · rfl

theorem receiveMessage_overLimit {r : RecvResult} (hr : r.received.length ≤ recvBufferSize)
    (hmax : maxMsgFieldSize < dataLen r.received) :
    receiveMessage r = some (ascii "Received too many bytes!") := by
  have hsize := recvBufferSize_eq
  refine deserialize_of_overLimit ⟨?_, by rwa [dataLen_receive]⟩
  rw [receive_eq, List.length_append, List.length_replicate]
  simp only [lenFieldSize]
  omega

end Byor.Optimized
