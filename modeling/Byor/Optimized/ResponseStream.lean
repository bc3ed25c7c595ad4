import Byor.KeyValue.Response
import Byor.Optimized.Handlers

/-!
# The stream of responses

What `make_response` of the optimized server appends to an outgoing buffer, response after response,
and what a reader that follows the length fields takes off it. `handle_write_event` sends the stream
in pieces, so the reader may see it cut anywhere.

* `read_responseBytes`: the reader recovers the responses that lie completely before the cut.
* `responses_delimited`: the same for the buffers `make_response` leaves, which are distinct for
  distinct responses.
-/

namespace Byor.Optimized

open Wire
open KeyValue (Reply reply replyDecoder readReplies acceptReply toRecord)

/-- `make_response` for one response after another. -/
def makeResponses (resps : List Response) (out : Bytes) : Bytes :=
  resps.foldl (fun out resp => makeResponse resp out) out

/-- The length of a response fits the length field. -/
def Response.Fits (resp : Response) : Prop := resp.data.length < 2 ^ 32 - 1

/-- No response is complete in what a reader has left. -/
def Incomplete (rest : Bytes) : Prop :=
  rest.length < lenFieldSize ∨ rest.length < lenFieldSize + dataLen rest

variable {resps resps' : List Response} {cut out : Bytes}

theorem toRecord_injective : Function.Injective toRecord := by
  intro resp resp' h
  obtain ⟨hstatus, hdata⟩ := Prod.mk.inj (congrArg Record.value h)
  exact Response.eq_of_toByte hstatus hdata

theorem makeResponses_eq (resps : List Response) (out : Bytes) :
    makeResponses resps out = out ++ responseBytes resps := by
  induction resps generalizing out with
  | nil => exact (List.append_nil out).symm
  | cons resp resps ih =>
    change makeResponses resps (makeResponse resp out) = _
    rw [ih, makeResponse_eq, List.append_assoc]
    rfl

theorem responseBytes_eq_records (h : ∀ resp ∈ resps, resp.Fits) : responseBytes resps =
    ((resps.map toRecord).map
      fun r => record KeyValue.lenFieldSize r.payload).flatten := by
  rw [responseBytes, List.map_map]
  refine congrArg List.flatten (List.map_congr_left fun resp hr => ?_)
  have hfits := h resp hr
  rw [Response.Fits] at hfits
  exact resp.frame_eq_record (by omega)

theorem records_accepted (h : ∀ resp ∈ resps, resp.Fits) :
    ∀ r ∈ resps.map toRecord, r.payload.length < 256 ^ KeyValue.lenFieldSize ∧
      acceptReply r.payload = some r.value := by
  intro r hr
  obtain ⟨resp, hmem, rfl⟩ := List.mem_map.mp hr
  have hfits := h resp hmem
  rw [Response.Fits] at hfits
  exact KeyValue.toRecord_accepted (by omega)

theorem values_toRecord (resps : List Response) :
    (resps.map toRecord).map Record.value = resps.map reply := by
  rw [List.map_map]
  rfl

/-- **A reader of a cut stream** recovers the responses that lie completely before the cut, in
order, and is left with an incomplete one. -/
theorem read_responseBytes (h : ∀ resp ∈ resps, resp.Fits) (hcut : cut <+: responseBytes resps) :
    ∃ m ≤ resps.length, ∃ rest, readReplies cut = ((resps.take m).map reply, rest) ∧
      cut = responseBytes (resps.take m) ++ rest ∧
      (∀ n ≤ resps.length, (responseBytes (resps.take n)).length ≤ cut.length ↔ n ≤ m) ∧
      Incomplete rest := by
  have htake : ∀ n, responseBytes (resps.take n) = (((resps.map toRecord).take n).map
      fun r => record KeyValue.lenFieldSize r.payload).flatten := by
    intro n
    rw [← List.map_take]
    exact responseBytes_eq_records fun resp hr => h resp (List.mem_of_mem_take hr)
  rw [responseBytes_eq_records h] at hcut
  obtain ⟨m, hm, rest, hdrain, hsplit, hbefore, hrest⟩ :=
    drain_of_cut (by decide) _ (records_accepted h) hcut
  rw [List.length_map] at hm hbefore
  refine ⟨m, hm, rest, ?_, ?_, ?_, hrest⟩
  · rw [readReplies, replyDecoder, hdrain, ← List.map_take, values_toRecord]
  · rw [htake]
    exact hsplit
  · intro n hn
    rw [htake]
    exact hbefore n hn

theorem responseBytes_injOn (h : ∀ resp ∈ resps, resp.Fits) (h' : ∀ resp ∈ resps', resp.Fits)
    (he : responseBytes resps = responseBytes resps') : resps = resps' := by
  have hdrain := drain_records (w := KeyValue.lenFieldSize) (by decide) _ (records_accepted h)
  rw [← responseBytes_eq_records h, he, responseBytes_eq_records h',
    drain_records (by decide) _ (records_accepted h')] at hdrain
  exact (List.map_injective_iff.mpr toRecord_injective (Prod.mk.inj hdrain).1).symm

/-- **The outgoing stream is self-delimiting.** What `make_response` appends to a buffer for a list
of responses can be cut anywhere: a reader recovers the responses before the cut, in order, and is
left with an incomplete one. Distinct lists of responses are appended as distinct streams. -/
theorem responses_delimited (resps : List Response) (h : ∀ resp ∈ resps, resp.Fits)
    (out : Bytes) :
    ∃ stream, makeResponses resps out = out ++ stream ∧
      (∀ cut, cut <+: stream →
        ∃ m ≤ resps.length, ∃ rest, readReplies cut = ((resps.take m).map reply, rest) ∧
          cut = responseBytes (resps.take m) ++ rest ∧
          (∀ n ≤ resps.length, (responseBytes (resps.take n)).length ≤ cut.length ↔ n ≤ m) ∧
          Incomplete rest) ∧
      ∀ resps', (∀ resp ∈ resps', resp.Fits) → makeResponses resps' out = out ++ stream →
        resps' = resps := by
  refine ⟨responseBytes resps, makeResponses_eq resps out, fun cut => read_responseBytes h, ?_⟩
  intro resps' h' he
  rw [makeResponses_eq] at he
  exact responseBytes_injOn h' h (List.append_cancel_left he)

/-- Two responses behind a byte that was not sent yet. -/
theorem responses_delimited_two :
    ∃ stream, makeResponses [⟨.RES_OK, ascii "v"⟩, ⟨.RES_NX, []⟩] [7] = [7] ++ stream ∧
      ∃ m ≤ 2, ∃ rest, readReplies (stream.take 8) =
        (([⟨.RES_OK, ascii "v"⟩, ⟨.RES_NX, []⟩] : List Response).take m |>.map reply, rest) := by
  obtain ⟨stream, hstream, hcut, -⟩ :=
    responses_delimited [⟨.RES_OK, ascii "v"⟩, ⟨.RES_NX, []⟩]
      (by simp [Response.Fits, ascii]) [7]
  obtain ⟨m, hm, rest, hread, -⟩ := hcut (stream.take 8) (List.take_prefix ..)
  exact ⟨stream, hstream, m, hm, rest, hread⟩

end Byor.Optimized
