import Byor.Optimized.Commands

/-!
# Responses of the first key-value server

`make_response` of the server before the optimized one (`04_key_value_server/src/server.cpp`). Its
`Response` is the one of the optimized server, but it hands `vector::insert` a range of four
`uint32_t`, of which only the first is the length; each is narrowed to a byte.

* `makeResponse_eq`: what is appended, with the words that happen to stand behind the length.
* `makeResponse_eq_replyFrame_iff`: it is the frame of the response exactly if these words agree
  with the upper bytes of the length.
* `replies_iff`: the same for a stream of responses and a reader that follows the length field.
-/

namespace Byor.KeyValue

open Wire Optimized

/-- `LEN_FIELD_SIZE` -/
def lenFieldSize : ℕ := 4

/-- What stands in memory behind the local variable `resp_size`: the words that a range of
`LEN_FIELD_SIZE` words from there takes in after the first. -/
structure Adjacent where
  words : List UInt32
  length_eq : words.length + 1 = lenFieldSize

/-- `make_response` -/
def makeResponse (adjacent : Adjacent) (resp : Response) (out : Bytes) : Bytes :=
  let respSize := UInt32.ofNat (1 + resp.data.length)
  ((out ++ (respSize :: adjacent.words).map UInt32.toUInt8) ++ [resp.status.toByte]) ++ resp.data

/-- `make_response` for one response after another, each with the memory it finds. -/
def makeResponses (resps : List (Adjacent × Response)) (out : Bytes) : Bytes :=
  resps.foldl (fun out p => makeResponse p.1 p.2 out) out

/-- A response as a reader gets it: the status and the data. -/
abbrev Reply := UInt8 × Bytes

/-- The status byte and the data behind it. -/
def acceptReply : Bytes → Option Reply
  | [] => none
  | status :: data => some (status, data)

/-- A reader that follows the length field, as `read_res` of the client does. -/
def replyDecoder : Decoder UInt8 (Record Reply) := framing lenFieldSize (by decide) acceptReply

/-- The replies a reader takes off a stream, and what it leaves. -/
def readReplies (stream : Bytes) : List Reply × Bytes :=
  ((replyDecoder.drain stream).1.map Record.value, (replyDecoder.drain stream).2)

/-- The status and the data of a response. -/
def reply (resp : Response) : Reply := (resp.status.toByte, resp.data)

/-- The frame of a response: the little-endian length of what follows, the status, the data. -/
def replyFrame (resp : Response) : Bytes :=
  leBytes lenFieldSize (1 + resp.data.length) ++ [resp.status.toByte] ++ resp.data

/-- The stream a reader expects. -/
def replyStream (resps : List (Adjacent × Response)) : Bytes :=
  (resps.map fun p => replyFrame p.2).flatten

/-- The words behind the length agree with its upper bytes. -/
def Agrees (p : Adjacent × Response) : Prop :=
  p.1.words.map UInt32.toUInt8 = leBytes 3 ((1 + p.2.data.length) / 256)

/-! ## One response -/

theorem toUInt8_ofNat {n : ℕ} (h : n < 2 ^ 32) : (UInt32.ofNat n).toUInt8 = UInt8.ofNat n := by
  apply UInt8.toNat_inj.mp
  rw [UInt32.toNat_toUInt8, UInt32.toNat_ofNat', UInt8.toNat_ofNat', Nat.mod_eq_of_lt h]

/-- What is appended for a response does not depend on what was there. -/
theorem makeResponse_append (adjacent : Adjacent) (resp : Response) (out : Bytes) :
    makeResponse adjacent resp out = out ++ makeResponse adjacent resp [] := by
  simp only [makeResponse, List.nil_append, List.append_assoc]

theorem makeResponse_nil (adjacent : Adjacent) (resp : Response)
    (h : 1 + resp.data.length < 2 ^ 32) : makeResponse adjacent resp [] =
      UInt8.ofNat (1 + resp.data.length) ::
        (adjacent.words.map UInt32.toUInt8 ++ ([resp.status.toByte] ++ resp.data)) := by
  rw [makeResponse, List.map_cons, toUInt8_ofNat h, List.nil_append, List.append_assoc,
    List.cons_append]

theorem replyFrame_eq (resp : Response) : replyFrame resp =
    UInt8.ofNat (1 + resp.data.length) ::
      (leBytes 3 ((1 + resp.data.length) / 256) ++ ([resp.status.toByte] ++ resp.data)) := by
  rw [replyFrame, List.append_assoc]
  rfl

theorem length_makeResponse (adjacent : Adjacent) (resp : Response) :
    (makeResponse adjacent resp []).length = (replyFrame resp).length := by
  have hwords := adjacent.length_eq
  rw [makeResponse, replyFrame]
  simp only [List.length_append, List.length_map, List.length_cons, List.length_nil,
    length_leBytes]
  omega

/-- **When a response is framed**: exactly if the memory behind the length holds, word by word, the
upper bytes of the length. -/
theorem makeResponse_eq_replyFrame_iff {p : Adjacent × Response}
    (h : 1 + p.2.data.length < 2 ^ 32) :
    makeResponse p.1 p.2 [] = replyFrame p.2 ↔ Agrees p := by
  rw [makeResponse_nil p.1 p.2 h, replyFrame_eq, List.cons_inj_right, List.append_cancel_right_eq]
  rfl

/-! ## The stream -/

theorem makeResponses_eq (resps : List (Adjacent × Response)) (out : Bytes) :
    makeResponses resps out = out ++ (resps.map fun p => makeResponse p.1 p.2 []).flatten := by
  induction resps generalizing out with
  | nil => exact (List.append_nil out).symm
  | cons p resps ih =>
    change makeResponses resps (makeResponse p.1 p.2 out) = _
    rw [ih, makeResponse_append, List.map_cons, List.flatten_cons, List.append_assoc]

theorem makeResponses_eq_iff (resps : List (Adjacent × Response))
    (h : ∀ p ∈ resps, 1 + p.2.data.length < 2 ^ 32) (out : Bytes) :
    makeResponses resps out = out ++ replyStream resps ↔ ∀ p ∈ resps, Agrees p := by
  rw [makeResponses_eq, List.append_cancel_left_eq, replyStream,
    flatten_map_eq_iff fun p _ => length_makeResponse p.1 p.2]
  constructor
  · exact fun he p hp => (makeResponse_eq_replyFrame_iff (h p hp)).mp (he p hp)
  · exact fun ha p hp => (makeResponse_eq_replyFrame_iff (h p hp)).mpr (ha p hp)

/-- The record a reader takes a response for. -/
def toRecord (resp : Response) : Record Reply := ⟨resp.status.toByte :: resp.data, reply resp⟩

theorem toRecord_accepted {resp : Response} (h : 1 + resp.data.length < 2 ^ 32) :
    (toRecord resp).payload.length < 256 ^ lenFieldSize ∧
      acceptReply (toRecord resp).payload = some (toRecord resp).value := by
  refine ⟨?_, rfl⟩
  change (resp.status.toByte :: resp.data).length < 256 ^ lenFieldSize
  rw [List.length_cons, Nat.add_comm, show 256 ^ lenFieldSize = 2 ^ 32 by decide]
  exact h

theorem replyFrame_eq_record (resp : Response) :
    replyFrame resp = record lenFieldSize (toRecord resp).payload := by
  change replyFrame resp = record lenFieldSize (resp.status.toByte :: resp.data)
  rw [replyFrame, record, List.length_cons, Nat.add_comm, List.append_assoc]
  rfl

/-- A reader of the expected stream recovers the responses. -/
theorem readReplies_replyStream (resps : List (Adjacent × Response))
    (h : ∀ p ∈ resps, 1 + p.2.data.length < 2 ^ 32) :
    readReplies (replyStream resps) = (resps.map fun p => reply p.2, []) := by
  have hrecords : replyStream resps = ((resps.map fun p => toRecord p.2).map
      fun r => record lenFieldSize r.payload).flatten := by
    rw [replyStream, List.map_map]
    exact congrArg List.flatten (List.map_congr_left fun p _ => replyFrame_eq_record p.2)
  have hdrain : replyDecoder.drain (replyStream resps) =
      (resps.map fun p => toRecord p.2, []) := by
    rw [hrecords]
    refine drain_records _ _ fun r hr => ?_
    obtain ⟨p, hp, rfl⟩ := List.mem_map.mp hr
    exact toRecord_accepted (h p hp)
  rw [readReplies, hdrain, List.map_map]
  rfl

/-- **When the stream of responses is framed**: what is appended to the outgoing buffer is the
concatenation of the frames, and a reader recovers the responses from it, exactly if for each
response the memory behind the length agrees with the upper bytes of the length. -/
theorem replies_iff (resps : List (Adjacent × Response))
    (h : ∀ p ∈ resps, 1 + p.2.data.length < 2 ^ 32) (out : Bytes) :
    (∃ appended, makeResponses resps out = out ++ appended ∧ appended = replyStream resps ∧
      readReplies appended = (resps.map fun p => reply p.2, [])) ↔ ∀ p ∈ resps, Agrees p := by
  rw [← makeResponses_eq_iff resps h out]
  constructor
  · rintro ⟨appended, he, rfl, -⟩
    exact he
  · intro he
    exact ⟨replyStream resps, he, rfl, readReplies_replyStream resps h⟩

/-- Zeros behind the length of a short response. -/
def zeros : Adjacent := ⟨[0, 0, 0], rfl⟩

theorem replies_with_zeros :
    (∃ appended, makeResponses [(zeros, ⟨.RES_OK, ascii "v"⟩)] [] = [] ++ appended ∧
      appended = replyStream [(zeros, ⟨.RES_OK, ascii "v"⟩)] ∧
      readReplies appended =
        ([(zeros, ⟨.RES_OK, ascii "v"⟩)].map fun p => reply p.2, [])) ↔
      ∀ p ∈ [(zeros, (⟨.RES_OK, ascii "v"⟩ : Response))], Agrees p :=
  replies_iff [(zeros, ⟨.RES_OK, ascii "v"⟩)] (by decide) []

/-- With any other value behind the length of an empty response the stream is not framed. -/
theorem replies_not_framed :
    ¬ ∀ (resps : List (Adjacent × Response)) (out : Bytes),
      (∀ p ∈ resps, 1 + p.2.data.length < 2 ^ 32) →
        ∃ appended, makeResponses resps out = out ++ appended ∧ appended = replyStream resps ∧
          readReplies appended = (resps.map fun p => reply p.2, []) := by
  intro h
  obtain ⟨appended, hmake, rfl, -⟩ := h [(⟨[7, 0, 0], rfl⟩, ⟨.RES_OK, []⟩)] [] (by decide)
  exact absurd hmake (by decide)

end Byor.KeyValue
