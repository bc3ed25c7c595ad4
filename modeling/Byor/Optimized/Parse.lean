import Byor.Foundations.Framing

/-!
# Requests on the wire

The request parser of the optimized server (`include/server.tpp`). A request is a frame
`nbytes | nstr | len0 | cmd0 | ... | lenn | cmdn` of little-endian 32-bit words and strings;
`try_request` strips `nbytes` and hands the rest to `parse_req`.

The pointer pair `data`, `end` of the source is the list of the bytes between them, so
`data + n > end` is `length < n` and `data += n` drops `n` bytes.

* `requestDecoder` is the decoder of a stream of requests: a frame within the size limit, complete,
  whose payload `parse_req` accepts.
* `parseReq_encodePayload`: what `parse_req` makes of an encoded list of strings.
-/

namespace Byor.Optimized

open Wire

/-- `std::string`, `std::vector<uint8_t>`: a sequence of bytes. -/
abbrev Bytes := List UInt8

/-- `LEN_FIELD_SIZE` -/
def lenFieldSize : ℕ := 4

theorem lenFieldSize_pos : 0 < lenFieldSize := by decide

/-- `MAX_MSG_FIELD_SIZE` -/
def maxMsgFieldSize : ℕ := 32 <<< 20

/-- `READ_BUFFER_SIZE` -/
def readBufferSize : ℕ := 64 * 1024

/-- `MAX_CMD_ARGS` -/
def maxCmdArgs : ℕ := 200 * 1000

theorem maxMsgFieldSize_eq : maxMsgFieldSize = 33554432 := by decide

/-! ## The parser -/

/-- `read_cmd_length`: the word under the cursor and the advanced cursor. -/
def readCmdLength (data : Bytes) : Option (ℕ × Bytes) :=
  if data.length < lenFieldSize then none
  else some (leVal (data.take lenFieldSize), data.drop lenFieldSize)

/-- `read_cmd_data`: the next `bytes_to_read` bytes and the advanced cursor. -/
def readCmdData (data : Bytes) (bytesToRead : ℕ) : Option (Bytes × Bytes) :=
  if data.length < bytesToRead then none
  else some (data.take bytesToRead, data.drop bytesToRead)

/-- The loop of `parse_req`, with `n` strings still to read and the strings read so far. The
string is pushed before its bytes are read, so a failing read leaves an empty one behind. -/
def parseArgs : ℕ → Bytes → List Bytes → Bool × List Bytes
  | 0, _, parsedCmds => (true, parsedCmds)
  | n + 1, data, parsedCmds =>
    match readCmdLength data with
    | none => (false, parsedCmds)
    | some (cmdLen, data) =>
      match readCmdData data cmdLen with
      | none => (false, parsedCmds ++ [[]])
      | some (out, data) => parseArgs n data (parsedCmds ++ [out])

/-- `parse_req`: whether the payload parses, and the strings pushed to `parsed_cmds`. -/
def parseReq (data : Bytes) (parsedCmds : List Bytes) : Bool × List Bytes :=
  match readCmdLength data with
  | none => (false, parsedCmds)
  | some (nstr, data) => if maxCmdArgs < nstr then (false, parsedCmds) else
    parseArgs nstr data parsedCmds

/-! ## The encoding it reads -/

/-- The strings, each behind its length. -/
def encodeArgs (msg : List Bytes) : Bytes := (msg.map (record lenFieldSize)).flatten

/-- The payload of a request: the number of strings, then the strings. -/
def encodePayload (msg : List Bytes) : Bytes := leBytes lenFieldSize msg.length ++ encodeArgs msg

@[simp] theorem encodeArgs_nil : encodeArgs [] = [] := rfl

theorem encodeArgs_cons (s : Bytes) (msg : List Bytes) :
    encodeArgs (s :: msg) = record lenFieldSize s ++ encodeArgs msg := rfl

theorem length_encodeArgs (msg : List Bytes) :
    (encodeArgs msg).length = (msg.map fun s => lenFieldSize + s.length).sum := by
  induction msg with
  | nil => rfl
  | cons s msg ih => rw [encodeArgs_cons, List.length_append, length_record, ih, List.map_cons,
      List.sum_cons]

theorem length_encodePayload (msg : List Bytes) : (encodePayload msg).length =
    lenFieldSize + (msg.map fun s => lenFieldSize + s.length).sum := by
  rw [encodePayload, List.length_append, length_leBytes, length_encodeArgs]

theorem readCmdLength_leBytes_append {n : ℕ} (hn : n < 256 ^ lenFieldSize) (rest : Bytes) :
    readCmdLength (leBytes lenFieldSize n ++ rest) = some (n, rest) := by
  rw [readCmdLength, if_neg, leVal_take_leBytes_append hn, List.drop_left' (length_leBytes _ _)]
  rw [List.length_append, length_leBytes]
  omega

theorem readCmdData_append (s rest : Bytes) :
    readCmdData (s ++ rest) s.length = some (s, rest) := by
  rw [readCmdData, if_neg, List.take_left' rfl, List.drop_left' rfl]
  rw [List.length_append]
  omega

/-- The loop reads back the strings that were encoded, whatever follows them. -/
theorem parseArgs_encodeArgs (msg : List Bytes) (hmsg : ∀ s ∈ msg, s.length < 256 ^ lenFieldSize)
    (rest : Bytes) (parsedCmds : List Bytes) :
    parseArgs msg.length (encodeArgs msg ++ rest) parsedCmds = (true, parsedCmds ++ msg) := by
  induction msg generalizing parsedCmds with
  | nil => rw [List.append_nil]; rfl
  | cons s msg ih =>
    obtain ⟨hs, hmsg⟩ := List.forall_mem_cons.mp hmsg
    rw [encodeArgs_cons, record, List.append_assoc, List.append_assoc, List.length_cons, parseArgs,
      readCmdLength_leBytes_append hs]
    simp only [readCmdData_append, ih hmsg, List.append_assoc, List.singleton_append]

theorem parseReq_encodePayload (msg : List Bytes) (hn : msg.length ≤ maxCmdArgs)
    (hmsg : ∀ s ∈ msg, s.length < 256 ^ lenFieldSize) (rest : Bytes) :
    parseReq (encodePayload msg ++ rest) [] = (true, msg) := by
  have hlt : msg.length < 256 ^ lenFieldSize := by
    simp only [maxCmdArgs, lenFieldSize] at hn ⊢
    omega
  rw [encodePayload, List.append_assoc, parseReq, readCmdLength_leBytes_append hlt]
  simp only [if_neg (Nat.not_lt.mpr hn), parseArgs_encodeArgs msg hmsg, List.nil_append]

/-! ## The stream of requests -/

/-- What the server makes of a complete payload: the command, if the payload is within the size
limit and parses. -/
def acceptPayload (payload : Bytes) : Option (List Bytes) :=
  if maxMsgFieldSize < payload.length then none
  else
    match parseReq payload [] with
    | (true, cmd) => some cmd
    | (false, _) => none

/-- A request taken off a stream: its payload and the command in it. -/
abbrev Request := Record (List Bytes)

/-- The bytes of a request, header included. -/
def Request.frame (f : Request) : Bytes := record lenFieldSize f.payload

/-- The decoder of a stream of requests. -/
def requestDecoder : Decoder UInt8 Request := framing lenFieldSize (by decide) acceptPayload

theorem requestDecoder_next (incoming : Bytes) :
    requestDecoder.next incoming = Framing.next lenFieldSize acceptPayload incoming := rfl

/-- The length in the header of the first frame. -/
def dataLen (incoming : Bytes) : ℕ := leVal (incoming.take lenFieldSize)

/-- The buffer starts with a header above the size limit. -/
def OverLimit (incoming : Bytes) : Prop :=
  lenFieldSize ≤ incoming.length ∧ maxMsgFieldSize < dataLen incoming

/-- The buffer starts with a complete frame within the size limit. -/
def StartsComplete (incoming : Bytes) : Prop :=
  lenFieldSize ≤ incoming.length ∧ dataLen incoming ≤ maxMsgFieldSize ∧
    lenFieldSize + dataLen incoming ≤ incoming.length

/-- The payload of the first frame. -/
def headPayload (incoming : Bytes) : Bytes := (incoming.drop lenFieldSize).take (dataLen incoming)

instance (incoming : Bytes) : Decidable (OverLimit incoming) :=
  inferInstanceAs (Decidable (_ ∧ _))

instance (incoming : Bytes) : Decidable (StartsComplete incoming) :=
  inferInstanceAs (Decidable (_ ∧ _))

theorem OverLimit.append {incoming : Bytes} (h : OverLimit incoming) (b : Bytes) :
    OverLimit (incoming ++ b) := by
  obtain ⟨h4, hmax⟩ := h
  refine ⟨by rw [List.length_append]; omega, ?_⟩
  rwa [dataLen, List.take_append_of_le_length h4]

theorem StartsComplete.length_headPayload {incoming : Bytes} (h : StartsComplete incoming) :
    (headPayload incoming).length = dataLen incoming := by
  obtain ⟨_, _, hlen⟩ := h
  rw [headPayload, List.length_take, List.length_drop]
  omega

theorem StartsComplete.take_eq {incoming : Bytes} (h : StartsComplete incoming) :
    incoming.take (lenFieldSize + dataLen incoming) =
      record lenFieldSize (headPayload incoming) := by
  have hword : (incoming.take lenFieldSize).length = lenFieldSize := by
    rw [List.length_take]; exact Nat.min_eq_left h.1
  have hcopy := leBytes_leVal (incoming.take lenFieldSize)
  rw [hword] at hcopy
  rw [record, h.length_headPayload, dataLen, hcopy, List.take_add, headPayload, dataLen]

theorem acceptPayload_eq {payload : Bytes} (h : payload.length ≤ maxMsgFieldSize) :
    acceptPayload payload =
      if (parseReq payload []).1 then some (parseReq payload []).2 else none := by
  rw [acceptPayload, if_neg (Nat.not_lt.mpr h)]
  rcases parseReq payload [] with ⟨_ | _, cmd⟩ <;> rfl

theorem acceptPayload_eq_some {payload : Bytes} {cmd : List Bytes}
    (h : acceptPayload payload = some cmd) :
    payload.length ≤ maxMsgFieldSize ∧ parseReq payload [] = (true, cmd) := by
  unfold acceptPayload at h
  split at h
  · cases h
  rename_i hmax
  refine ⟨Nat.le_of_not_lt hmax, ?_⟩
  split at h
  · rename_i cmd' hp
    rw [hp, Option.some.inj h]
  · cases h

/-- The header holds every length within the limit. -/
theorem lt_of_le_maxMsgFieldSize {n : ℕ} (h : n ≤ maxMsgFieldSize) : n < 256 ^ lenFieldSize := by
  rw [maxMsgFieldSize_eq] at h
  exact lt_of_le_of_lt h (by decide)

/-- Within the limit the size of a frame does not wrap around. -/
theorem add_mod_of_le_maxMsgFieldSize {n : ℕ} (h : n ≤ maxMsgFieldSize) :
    (lenFieldSize + n) % 2 ^ 32 = lenFieldSize + n := by
  have h4 : lenFieldSize = 4 := rfl
  rw [maxMsgFieldSize_eq] at h
  exact Nat.mod_eq_of_lt (by omega)

/-- A frame whose payload is accepted is taken off the buffer, whatever follows it. -/
theorem next_record_append {payload : Bytes} {cmd : List Bytes}
    (h : acceptPayload payload = some cmd) (rest : Bytes) :
    requestDecoder.next (record lenFieldSize payload ++ rest) = some (⟨payload, cmd⟩, rest) := by
  have hlt := lt_of_le_maxMsgFieldSize (acceptPayload_eq_some h).1
  rw [requestDecoder_next, Framing.next_record_append hlt h]

/-- A frame within the limit is complete, whatever follows it. -/
theorem startsComplete_record_append {payload : Bytes} (h : payload.length ≤ maxMsgFieldSize)
    (rest : Bytes) : StartsComplete (record lenFieldSize payload ++ rest) := by
  have hlen : dataLen (record lenFieldSize payload ++ rest) = payload.length := by
    rw [dataLen, record, List.append_assoc, leVal_take_leBytes_append (lt_of_le_maxMsgFieldSize h)]
  refine ⟨?_, hlen ▸ h, ?_⟩
  · rw [List.length_append, length_record]; omega
  · rw [hlen, List.length_append, length_record]; omega

/-- What is taken off a buffer that starts with a complete frame, whatever a payload is read by. -/
theorem StartsComplete.next_eq {β : Type*} {accept : Bytes → Option β} {incoming : Bytes}
    (h : StartsComplete incoming) : Framing.next lenFieldSize accept incoming =
      (accept (headPayload incoming)).map fun v =>
        (⟨headPayload incoming, v⟩, incoming.drop (lenFieldSize + dataLen incoming)) := by
  have hfull : ¬ incoming.length < lenFieldSize + leVal (incoming.take lenFieldSize) :=
    Nat.not_lt.mpr h.2.2
  rw [Framing.next, if_neg (Nat.not_lt.mpr h.1), if_neg hfull]
  rfl

/-- What is taken off a buffer is a complete frame within the limit, if no other payload is
accepted. -/
theorem startsComplete_of_framing {β : Type*} {accept : Bytes → Option β} {incoming rest : Bytes}
    {f : Record β} (hmax : accept f.payload = some f.value → f.payload.length ≤ maxMsgFieldSize)
    (hn : Framing.next lenFieldSize accept incoming = some (f, rest)) :
    StartsComplete incoming := by
  obtain ⟨rfl, -, haccept⟩ := Framing.next_eq_some_iff.mp hn
  exact startsComplete_record_append (hmax haccept) rest

/-- What the decoder takes off a buffer that starts with a complete frame. -/
theorem next_of_startsComplete {incoming : Bytes} (h : StartsComplete incoming) :
    requestDecoder.next incoming =
      if (parseReq (headPayload incoming) []).1 then
        some (⟨headPayload incoming, (parseReq (headPayload incoming) []).2⟩,
          incoming.drop (lenFieldSize + dataLen incoming))
      else none := by
  rw [requestDecoder_next, h.next_eq, acceptPayload_eq (h.length_headPayload ▸ h.2.1)]
  split <;> rfl

/-- The first request of a buffer is its first frame, which is complete and parses. -/
theorem request_of_next {incoming rest : Bytes} {f : Request}
    (hn : requestDecoder.next incoming = some (f, rest)) :
    StartsComplete incoming ∧ (parseReq (headPayload incoming) []).1 = true ∧
      f = ⟨headPayload incoming, (parseReq (headPayload incoming) []).2⟩ ∧
        rest = incoming.drop (lenFieldSize + dataLen incoming) := by
  have hs : StartsComplete incoming :=
    startsComplete_of_framing (fun haccept => (acceptPayload_eq_some haccept).1) hn
  rw [next_of_startsComplete hs] at hn
  split at hn
  · rename_i hp
    obtain ⟨rfl, rfl⟩ := Prod.mk.inj (Option.some.inj hn)
    exact ⟨hs, hp, rfl, rfl⟩
  · cases hn

/-- A complete frame that is no request does not parse. -/
theorem refused_of_next_eq_none {incoming : Bytes} (hs : StartsComplete incoming)
    (hn : requestDecoder.next incoming = none) :
    (parseReq (headPayload incoming) []).1 = false := by
  rw [next_of_startsComplete hs] at hn
  split at hn
  · cases hn
  · rename_i hp
    exact Bool.eq_false_iff.mpr hp

/-- A buffer that does not start with a complete frame within the limit yields no request. -/
theorem next_eq_none {incoming : Bytes} (h : ¬ StartsComplete incoming) :
    requestDecoder.next incoming = none := by
  cases hn : requestDecoder.next incoming with
  | none => rfl
  | some p => exact absurd (request_of_next hn).1 h

theorem OverLimit.not_startsComplete {incoming : Bytes} (h : OverLimit incoming) :
    ¬ StartsComplete incoming := fun hs => absurd hs.2.1 (Nat.not_le.mpr h.2)

/-- Behind the requests that are served from the stream stands a header above the limit. -/
def MeetsOverLimit (stream : Bytes) : Prop :=
  ∃ fs rest, requestDecoder.Takes stream fs rest ∧ OverLimit rest

theorem meetsOverLimit_iff (stream : Bytes) :
    MeetsOverLimit stream ↔ OverLimit (requestDecoder.drain stream).2 := by
  constructor
  · rintro ⟨fs, rest, ht, ho⟩
    rwa [requestDecoder.drain_eq_of_takes ht (next_eq_none ho.not_startsComplete)]
  · intro ho
    exact ⟨_, _, requestDecoder.takes_drain stream, ho⟩

/-- A header above the limit stays in the way. -/
theorem MeetsOverLimit.append {stream : Bytes} (h : MeetsOverLimit stream) (b : Bytes) :
    MeetsOverLimit (stream ++ b) := by
  obtain ⟨fs, rest, ht, ho⟩ := h
  exact ⟨fs, rest ++ b, ht.append b, ho.append b⟩

end Byor.Optimized
