import Mathlib.Data.List.Infix
import Byor.Optimized.Client
import Byor.Optimized.Handlers

/-!
# What the client shows after a `recv`

`TcpTransport::receive` calls `recv` once and forgets how many bytes it returned. So a call of
`receive_message` shows whatever that one piece of the stream looks like, with zeros for the bytes
that are not in it.

* `receiveMessage_text_iff`: after which bytes exactly a response is shown.
* `reports_iff`: the calls show the responses in order exactly if each piece of the stream is laid
  out as a frame whose length leaves the status byte out; and that is the case for every cutting
  only for no response, or a single one that is all zeros but for its length.
* `receiveMessage_honest_iff`: a status is shown only for a complete frame exactly if there is one,
  or the header announces too much.
-/

namespace Byor.Optimized

open Wire

variable {b : Bytes} {resp : Response} {r : RecvResult}

/-! ## One call -/

/-- The received bytes, with zeros behind them, carry the response at the places where it is looked
for: the status at offset 4, and the data from offset 5 with their own length in the header. -/
def LaidOut (b : Bytes) (resp : Response) : Prop :=
  b.getD 4 0 = resp.status.toByte ∧
    (resp.data = [] ∧
        (dataLen b ≤ 1 ∨ recvBufferSize < 5 + dataLen b ∧ dataLen b ≤ maxMsgFieldSize) ∨
      1 < dataLen b ∧ 5 + dataLen b ≤ recvBufferSize ∧ resp.data.length = dataLen b ∧
        resp.data <+: b.drop 5 ++ List.replicate (dataLen b) 0)

theorem shownData_eq_iff (hmax : dataLen b ≤ maxMsgFieldSize) {data : Bytes} :
    shownData b = data ↔
      (data = [] ∧
          (dataLen b ≤ 1 ∨ recvBufferSize < 5 + dataLen b ∧ dataLen b ≤ maxMsgFieldSize) ∨
        1 < dataLen b ∧ 5 + dataLen b ≤ recvBufferSize ∧ data.length = dataLen b ∧
          data <+: b.drop 5 ++ List.replicate (dataLen b) 0) := by
  unfold shownData
  by_cases hshown : 1 < dataLen b ∧ 5 + dataLen b ≤ recvBufferSize
  · rw [if_pos hshown]
    have hlen : ((b.drop 5 ++ List.replicate (dataLen b) 0).take (dataLen b)).length =
        dataLen b := by
      rw [List.length_take, List.length_append, List.length_replicate]
      omega
    constructor
    · rintro rfl
      exact .inr ⟨hshown.1, hshown.2, hlen, List.take_prefix ..⟩
    · rintro (⟨rfl, h | h⟩ | ⟨-, -, hdata, hpre⟩)
      · omega
      · omega
      · rw [List.prefix_iff_eq_take.mp hpre, hdata]
  · rw [if_neg hshown]
    constructor
    · rintro rfl
      refine .inl ⟨rfl, ?_⟩
      by_cases h1 : 1 < dataLen b
      · exact .inr ⟨Nat.lt_of_not_le fun h => hshown ⟨h1, h⟩, hmax⟩
      · exact .inl (Nat.le_of_not_lt h1)
    · rintro (⟨rfl, -⟩ | ⟨h1, h2, -⟩)
      · rfl
      · exact absurd ⟨h1, h2⟩ hshown

theorem statusText_ne_tooMany (s : UInt8) (data : Bytes) :
    ascii "Received too many bytes!" ≠ statusText s ++ data := by
  intro h
  have hhead := congrArg List.head? h
  have hlong : (statusText s ++ data).head? = some 83 := rfl
  rw [hlong] at hhead
  exact absurd hhead (by decide)

/-- **After which bytes a response is shown.** -/
theorem receiveMessage_text_iff (hr : r.received.length ≤ recvBufferSize) :
    receiveMessage r = some resp.text ↔ LaidOut r.received resp := by
  have hsize := recvBufferSize_eq
  have hmaxSize := maxMsgFieldSize_eq
  by_cases hmax : maxMsgFieldSize < dataLen r.received
  · rw [receiveMessage_overLimit hr hmax, Option.some_inj]
    refine iff_of_false (statusText_ne_tooMany _ _) ?_
    rintro ⟨-, ⟨-, h | h⟩ | h⟩
    · omega
    · omega
    · omega
  have hmax := Nat.le_of_not_lt hmax
  rw [receiveMessage_eq hr hmax, Option.some_inj, LaidOut, ← shownData_eq_iff hmax]
  constructor
  · exact statusText_append_inj
  · rintro ⟨hs, hd⟩
    rw [hs, hd]
    rfl

/-! ## Success without a response -/

/-- The bytes hold a complete response frame: a length of at least one, and that many bytes. -/
def HoldsFrame (b : Bytes) : Prop :=
  4 ≤ b.length ∧ 1 ≤ dataLen b ∧ 4 + dataLen b ≤ b.length

/-- What the kernel promises of `recv`. -/
def RecvResult.Allowed (r : RecvResult) : Prop :=
  ∀ b, r = .bytes b → b ≠ [] ∧ b.length ≤ recvBufferSize

theorem RecvResult.Allowed.length_le (h : r.Allowed) : r.received.length ≤ recvBufferSize := by
  cases r with
  | bytes b => exact (h b rfl).2
  | eof => exact Nat.zero_le _
  | error => exact Nat.zero_le _

/-- No status is shown unless a complete frame was received, and status 0 only if the byte 0 was
received in its place. -/
def Honest (r : RecvResult) : Prop :=
  (¬ HoldsFrame r.received → ∀ text, receiveMessage r = some text →
      ¬ ascii "Status: " <+: text) ∧
    ∀ text, receiveMessage r = some text → statusText 0 <+: text → r.received[4]? = some 0

/-- **When failure is not shown as success**: exactly when a complete frame was received, or a
header that announces too much. -/
theorem receiveMessage_honest_iff (hr : r.Allowed) :
    Honest r ↔ HoldsFrame r.received ∨ maxMsgFieldSize < dataLen r.received := by
  by_cases hmax : maxMsgFieldSize < dataLen r.received
  · refine iff_of_true ⟨?_, ?_⟩ (.inr hmax)
    · intro _ text htext
      rw [receiveMessage_overLimit hr.length_le hmax] at htext
      obtain rfl := Option.some.inj htext
      decide
    · rintro text htext ⟨data, hdata⟩
      rw [receiveMessage_overLimit hr.length_le hmax] at htext
      obtain rfl := Option.some.inj htext
      exact absurd hdata.symm (statusText_ne_tooMany 0 data)
  have hshow := receiveMessage_eq hr.length_le (Nat.le_of_not_lt hmax)
  rw [or_iff_left hmax]
  constructor
  · rintro ⟨hframe, -⟩
    by_contra hnot
    refine hframe hnot _ hshow ?_
    rw [statusText, List.append_assoc, List.append_assoc]
    exact List.prefix_append ..
  · intro hframe
    refine ⟨fun hnot => absurd hframe hnot, ?_⟩
    rintro text htext ⟨data, rfl⟩
    rw [hshow] at htext
    obtain ⟨hstatus, -⟩ := statusText_append_inj (Option.some.inj htext)
    have hlen : 4 < r.received.length := by
      obtain ⟨-, h1, hlen⟩ := hframe
      omega
    have hget := List.getElem?_eq_getElem hlen
    rw [List.getD_eq_getElem?_getD, hget, Option.getD_some] at hstatus
    rw [hget, hstatus]

theorem receiveMessage_honest_for_nx :
    Honest (.bytes [1, 0, 0, 0, 2]) ↔
      HoldsFrame [1, 0, 0, 0, 2] ∨ maxMsgFieldSize < dataLen [1, 0, 0, 0, 2] :=
  receiveMessage_honest_iff (r := .bytes [1, 0, 0, 0, 2]) (by
    rintro b h
    cases h
    exact ⟨by decide, by decide⟩)

/-- The server closes the connection before it answers: status 0 is shown. -/
theorem eof_shown_as_success : ¬ ∀ r : RecvResult, r.Allowed → Honest r := by
  intro h
  have hshow : receiveMessage .eof = some (statusText 0 ++ shownData []) :=
    receiveMessage_eq (r := .eof) (Nat.zero_le _) (by decide)
  have hreceived := (h .eof fun b hb => RecvResult.noConfusion hb).2 _ hshow (List.prefix_append ..)
  cases hreceived

/-! ## A sequence of calls -/

/-- The pieces in which `recv` returns the stream of responses. -/
structure Cutting (resps : List Response) (pieces : List Bytes) : Prop where
  flatten : pieces.flatten = responseBytes resps
  piece : ∀ b ∈ pieces, b ≠ [] ∧ b.length ≤ recvBufferSize

/-- What the call of `receive_message` with the given number shows. A call that finds no piece left
does not return. -/
def shows (pieces : List Bytes) (i : ℕ) : Option Bytes :=
  pieces[i]?.bind fun b => receiveMessage (.bytes b)

/-- Each call shows the response with its own number. -/
def Reports (resps : List Response) (pieces : List Bytes) : Prop :=
  ∀ (i : ℕ) (resp : Response), resps[i]? = some resp → shows pieces i = some resp.text

/-- The calls show the responses exactly if each finds its response laid out in its piece. -/
theorem reports_iff_laidOut {resps : List Response} {pieces : List Bytes}
    (hc : Cutting resps pieces) : Reports resps pieces ↔
      ∀ (i : ℕ) (resp : Response), resps[i]? = some resp →
        ∃ b, pieces[i]? = some b ∧ LaidOut b resp := by
  have key : ∀ (i : ℕ) (resp : Response), shows pieces i = some resp.text ↔
      ∃ b, pieces[i]? = some b ∧ LaidOut b resp := by
    intro i resp
    cases hb : pieces[i]? with
    | none =>
      rw [shows, hb]
      refine iff_of_false (by simp) ?_
      rintro ⟨b, h, -⟩
      cases h
    | some b =>
      have hlen := (hc.piece b (List.mem_of_getElem? hb)).2
      have htext : receiveMessage (.bytes b) = some resp.text ↔ LaidOut b resp :=
        receiveMessage_text_iff (r := .bytes b) hlen
      rw [shows, hb, Option.bind_some, htext]
      constructor
      · exact fun h => ⟨b, rfl, h⟩
      · rintro ⟨b', h, hl⟩
        obtain rfl := Option.some.inj h
        exact hl
  constructor
  · exact fun h i resp hi => (key i resp).mp (h i resp hi)
  · exact fun h i resp hi => (key i resp).mpr (h i resp hi)

/-! ## Every cutting -/

/-- A single byte passes only for an answer without data, or with as many zeros as it counts. -/
theorem LaidOut.of_singleton {x : UInt8} (h : LaidOut [x] resp) :
    resp.status = .RES_OK ∧ (resp.data = [] ∧ x.toNat ≤ 1 ∨
      1 < x.toNat ∧ resp.data.length = x.toNat) := by
  have hword : dataLen [x] = x.toNat := by
    change x.toNat + 256 * 0 = x.toNat
    omega
  have hx := x.toNat_lt
  have hsize := recvBufferSize_eq
  obtain ⟨hstatus, hdata⟩ := h
  have hok : ResponseStatus.RES_OK = resp.status := ResponseStatus.toByte_injective hstatus
  refine ⟨hok.symm, ?_⟩
  rw [hword] at hdata
  rcases hdata with ⟨hd, h1 | h1⟩ | ⟨h1, -, hd, -⟩
  · exact .inl ⟨hd, h1⟩
  · omega
  · exact .inr ⟨h1, hd⟩

/-- The stream in pieces of one byte. -/
def singleBytes (stream : Bytes) : List Bytes := stream.map fun x => [x]

theorem cutting_singleBytes (resps : List Response) :
    Cutting resps (singleBytes (responseBytes resps)) := by
  refine ⟨?_, fun b hb => ?_⟩
  · rw [singleBytes, ← List.flatMap_def, List.flatMap_singleton']
  · obtain ⟨x, -, rfl⟩ := List.mem_map.mp hb
    have h1 : ([x] : Bytes).length = 1 := rfl
    have hsize := recvBufferSize_eq
    exact ⟨List.cons_ne_nil x [], by omega⟩

theorem responseBytes_cons (resp : Response) (resps : List Response) :
    responseBytes (resp :: resps) = resp.frame ++ responseBytes resps := rfl

/-- The frames of empty answers hold nothing but ones and zeros. -/
theorem mem_responseBytes_replicate {n : ℕ} {x : UInt8}
    (h : x ∈ responseBytes (List.replicate n Response.init)) : x.toNat ≤ 1 := by
  obtain ⟨f, hf, hx⟩ := List.mem_flatten.mp h
  obtain ⟨resp, hresp, rfl⟩ := List.mem_map.mp hf
  have hframe : Response.init.frame = [1, 0, 0, 0, 0] := by decide
  rw [List.eq_of_mem_replicate hresp, hframe] at hx
  simp only [List.mem_cons, List.not_mem_nil, or_false] at hx
  rcases hx with rfl | rfl | rfl | rfl | rfl <;> decide

theorem length_responseBytes_replicate (n : ℕ) :
    (responseBytes (List.replicate n Response.init)).length = n * 5 := by
  rw [responseBytes, List.map_replicate, List.length_flatten, List.map_replicate,
    List.sum_replicate]
  rfl

/-- The first byte of a frame is the low byte of its length. -/
theorem frame_getElem?_zero (resp : Response) (rest : Bytes) :
    (resp.frame ++ rest)[0]? = some (UInt8.ofNat ((1 + resp.data.length) % 2 ^ 32)) := rfl

/-- Behind `i` responses of no data, the byte at `i` is the length in a header only if the response
there has no data either. -/
theorem data_eq_nil_of_single {i : ℕ} {resp : Response} {rest : Bytes} {x : UInt8}
    (hx : (responseBytes (List.replicate i Response.init) ++ (resp.frame ++ rest))[i]? = some x)
    (hdata : resp.data = [] ∧ x.toNat ≤ 1 ∨ 1 < x.toNat ∧ resp.data.length = x.toNat) :
    resp.data = [] := by
  rcases Nat.eq_zero_or_pos i with rfl | hpos
  · obtain rfl := Option.some.inj (hx.symm.trans (frame_getElem?_zero resp rest))
    -- the low byte of the length would have to be the length without the status
    have hlow : (UInt8.ofNat ((1 + resp.data.length) % 2 ^ 32)).toNat =
        (1 + resp.data.length) % 2 ^ 32 % 256 := UInt8.toNat_ofNat'
    rw [hlow] at hdata
    rcases hdata with ⟨hd, -⟩ | ⟨-, hd⟩
    · exact hd
    · omega
  · have hshort : i < (responseBytes (List.replicate i Response.init)).length := by
      rw [length_responseBytes_replicate]
      omega
    rw [List.getElem?_append_left hshort] at hx
    have h1 := mem_responseBytes_replicate (List.mem_of_getElem? hx)
    rcases hdata with ⟨hd, -⟩ | ⟨hgt, -⟩
    · exact hd
    · omega

/-- If the stream may arrive byte by byte, every response is the empty one: the first piece decides
the first response, and from then on the stream is known. -/
theorem Reports.eq_init {resps : List Response}
    (h : Reports resps (singleBytes (responseBytes resps))) (i : ℕ) :
    ∀ resp : Response, resps[i]? = some resp → resp = Response.init := by
  induction i using Nat.strong_induction_on with
  | _ i ih =>
    intro resp hi
    obtain ⟨b, hb, hlaid⟩ := (reports_iff_laidOut (cutting_singleBytes resps)).mp h i resp hi
    rw [singleBytes, List.getElem?_map] at hb
    obtain ⟨x, hx, rfl⟩ := Option.map_eq_some_iff.mp hb
    obtain ⟨hlt, hget⟩ := List.getElem?_eq_some_iff.mp hi
    have hbefore : resps.take i = List.replicate i Response.init := by
      refine List.eq_replicate_iff.mpr ⟨by rw [List.length_take]; omega, fun resp' hmem => ?_⟩
      obtain ⟨j, hj⟩ := List.getElem?_of_mem hmem
      rw [List.getElem?_take] at hj
      split at hj
      · rename_i hji
        exact ih j hji resp' hj
      · cases hj
    have hstream : responseBytes resps = responseBytes (List.replicate i Response.init) ++
        (resp.frame ++ responseBytes (resps.drop (i + 1))) := by
      have hsplit : resps = resps.take i ++ (resp :: resps.drop (i + 1)) := by
        rw [← hget, ← List.drop_eq_getElem_cons hlt, List.take_append_drop]
      rw [← hbefore, ← responseBytes_cons, ← responseBytes_append, ← hsplit]
    obtain ⟨hstatus, hdata⟩ := hlaid.of_singleton
    have hempty : resp.data = [] := data_eq_nil_of_single (hstream ▸ hx) hdata
    exact congrArg₂ Response.mk hstatus hempty

/-- Two responses may arrive in one piece; the last call then finds none. -/
theorem not_reports_of_coalesced (n : ℕ) : ∃ pieces,
    Cutting (List.replicate (n + 2) Response.init) pieces ∧
      ¬ Reports (List.replicate (n + 2) Response.init) pieces := by
  refine ⟨(Response.init.frame ++ Response.init.frame) :: List.replicate n Response.init.frame,
    ⟨?_, fun b hb => ?_⟩, fun h => ?_⟩
  · rw [List.replicate_succ, List.replicate_succ, responseBytes_cons, responseBytes_cons,
      List.flatten_cons, List.append_assoc, responseBytes, List.map_replicate]
  · have hframe : Response.init.frame = [1, 0, 0, 0, 0] := by decide
    have hsize := recvBufferSize_eq
    rcases List.mem_cons.mp hb with rfl | hb
    · rw [hframe, hsize]
      exact ⟨by decide, by decide⟩
    · rw [List.eq_of_mem_replicate hb, hframe, hsize]
      exact ⟨by decide, by decide⟩
  · have hlast : (List.replicate (n + 2) Response.init)[n + 1]? = some Response.init := by
      rw [List.getElem?_replicate, if_pos (Nat.lt_succ_self _)]
    have hshow := h (n + 1) Response.init hlast
    rw [shows, List.getElem?_cons_succ, List.getElem?_replicate, if_neg (Nat.lt_irrefl _)] at hshow
    cases hshow

/-- Any first piece of a single empty answer shows it. -/
theorem reports_init {pieces : List Bytes} (hc : Cutting [Response.init] pieces) :
    Reports [Response.init] pieces := by
  refine (reports_iff_laidOut hc).mpr fun i resp hi => ?_
  have hframe : responseBytes [Response.init] = [1, 0, 0, 0, 0] := by decide
  obtain ⟨rfl, rfl⟩ : i = 0 ∧ resp = Response.init := by
    cases i with
    | zero => exact ⟨rfl, (Option.some.inj hi).symm⟩
    | succ i => cases hi
  cases pieces with
  | nil =>
    have hnil := hc.flatten
    rw [hframe] at hnil
    cases hnil
  | cons b pieces =>
    have hpre : b <+: [1, 0, 0, 0, 0] := by
      rw [← hframe, ← hc.flatten, List.flatten_cons]
      exact List.prefix_append ..
    have hall : ∀ p ∈ ([1, 0, 0, 0, 0] : Bytes).inits, p.getD 4 0 = 0 ∧ dataLen p ≤ 1 := by decide
    obtain ⟨hstatus, hword⟩ := hall b ((List.mem_inits _ _).mpr hpre)
    exact ⟨b, rfl, hstatus, .inl ⟨rfl, .inl hword⟩⟩

/-- **When the calls show the responses in order**: for a given cutting, exactly if each call finds
its response laid out in its piece; and for every cutting, exactly if there is no response, or a
single one that is empty. -/
theorem reports_iff (resps : List Response) :
    (∀ pieces, Cutting resps pieces → (Reports resps pieces ↔
      ∀ (i : ℕ) (resp : Response), resps[i]? = some resp →
        ∃ b, pieces[i]? = some b ∧ LaidOut b resp)) ∧
      ((∀ pieces, Cutting resps pieces → Reports resps pieces) ↔
        resps = [] ∨ resps = [Response.init]) := by
  refine ⟨fun pieces hc => reports_iff_laidOut hc, ?_, ?_⟩
  · intro h
    have hall := (h _ (cutting_singleBytes resps)).eq_init
    have hreplicate : resps = List.replicate resps.length Response.init := by
      refine List.eq_replicate_iff.mpr ⟨rfl, fun resp hmem => ?_⟩
      obtain ⟨i, hi⟩ := List.getElem?_of_mem hmem
      exact hall i resp hi
    match hn : resps.length with
    | 0 => exact .inl (List.length_eq_zero_iff.mp hn)
    | 1 =>
      rw [hn] at hreplicate
      exact .inr hreplicate
    | n + 2 =>
      rw [hn] at hreplicate
      obtain ⟨pieces, hc, hnot⟩ := not_reports_of_coalesced n
      rw [← hreplicate] at hc hnot
      exact absurd (h pieces hc) hnot
  · rintro (rfl | rfl)
    · intro pieces _ i resp hi
      cases hi
    · intro pieces hc
      exact reports_init hc

/-- A single empty answer that arrives in two pieces. -/
theorem reports_split_init : Reports [Response.init] [[1, 0], [0, 0, 0]] :=
  (reports_iff [Response.init]).2.mpr (.inr rfl) [[1, 0], [0, 0, 0]]
    ⟨by decide, fun b hb => by
      have hsize := recvBufferSize_eq
      rw [List.mem_cons, List.mem_singleton] at hb
      rcases hb with rfl | rfl
      · exact ⟨by decide, by rw [hsize]; decide⟩
      · exact ⟨by decide, by rw [hsize]; decide⟩⟩

/-- Two empty answers in one piece: the second call waits for a response that was received. -/
theorem coalesced_not_reported :
    ¬ ∀ (gData : Store) (cmds : List (List Bytes)) (pieces : List Bytes),
      Cutting (runCommands gData cmds).2 pieces → Reports (runCommands gData cmds).2 pieces := by
  intro h
  obtain ⟨pieces, hc, hnot⟩ := not_reports_of_coalesced 0
  exact hnot (h Store.empty [[ascii "del", ascii "k"], [ascii "del", ascii "k"]] pieces hc)

end Byor.Optimized
