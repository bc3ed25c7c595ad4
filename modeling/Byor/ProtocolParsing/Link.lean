import Byor.ProtocolParsing.Protocol

/-!
# A client and the server

What a client, the server and the streams between them have to do with each other.

* `Client.Ok`, `Stage.Ok`: where a client and the server are with a connection, and what that says
  about the bytes that have passed over it.
* `Link.Ok`: both, and what is between them. There is one lemma for each call, of whatever size.
-/

namespace Byor.ProtocolParsing

open Wire
open Optimized (Bytes ascii lenFieldSize lenFieldSize_pos)
open EventLoop (WriteAll frames frames_append frames_nil frames_cons)

theorem maxMsgFieldSize_lt : maxMsgFieldSize < 256 ^ lenFieldSize := by decide

/-- The messages of texts. -/
def bytesOf (texts : List CString) : List Bytes := texts.map CString.bytes

/-- As many replies. -/
def replies (n : ℕ) : List Bytes := List.replicate n reply

/-- The texts that `query` sends. -/
def Fits (texts : List CString) : Prop := ∀ text ∈ texts, text.bytes.length ≤ maxMsgFieldSize

theorem Fits.length_le {texts : List CString} (h : Fits texts) :
    ∀ msg ∈ bytesOf texts, msg.length ≤ maxMsgFieldSize := by
  intro msg hmsg
  obtain ⟨text, htext, rfl⟩ := List.mem_map.mp hmsg
  exact h text htext

/-- A reader of a message that waits. -/
abbrev Waits (r : Reader) : Prop := r.Waiting lenFieldSize maxMsgFieldSize

/-- A reader of a message after a call of `read`. -/
abbrev fed (r : Reader) (b : Bytes) : Reader := r.feed lenFieldSize maxMsgFieldSize b

variable {asked : List CString} {text : CString} {heard : List Bytes} {msg b : Bytes}
  {l : WriteAll} {r : Reader} {n : ℕ}

/-! ## What is printed and sent -/

theorem printed_append (h : ∀ b ∈ msg, b ≠ 0) (rest : Bytes) :
    printed (msg ++ 0 :: rest) = msg := by
  rw [printed, List.takeWhile_append_of_pos (by simpa using h)]
  simp

theorem rbuf_eq (h : msg.length ≤ maxMsgFieldSize) : rbuf msg = leBytes lenFieldSize msg.length ++
    (msg ++ 0 :: List.replicate (maxMsgFieldSize - msg.length) 0) := by
  have hlen : (leBytes lenFieldSize msg.length ++ msg).length = lenFieldSize + msg.length := by
    rw [List.length_append, length_leBytes]
  have hzeros : lenFieldSize + maxMsgFieldSize + 1 - (lenFieldSize + msg.length) =
      maxMsgFieldSize - msg.length + 1 := by omega
  rw [rbuf, List.rightpad, hlen, hzeros, List.set_append_right _ _ (by rw [hlen]; omega),
    List.set_replicate_self, List.append_assoc]
  rfl

/-- **The server prints the text** it was sent. -/
theorem saysAfter_done (h : text.bytes.length ≤ maxMsgFieldSize) :
    saysAfter (.done text.bytes) = [text.bytes] := by
  rw [saysAfter, rbuf_eq h, List.drop_left' (length_leBytes ..), printed_append text.nonzero]

theorem showsAfter_done : showsAfter (.done reply) = [reply] := by decide

theorem wbuf_eq (text : CString) : wbuf text = record lenFieldSize text.bytes := rfl

theorem frames_replies_succ (n : ℕ) :
    frames (replies (n + 1)) = frames (replies n) ++ replyBuf := by
  rw [replies, List.replicate_succ', frames_append, frames_cons, frames_nil, List.append_nil]
  rfl

theorem length_le_of_mem_replies (h : msg ∈ replies n) : msg.length ≤ maxMsgFieldSize := by
  rw [List.eq_of_mem_replicate h]
  decide

/-! ## The loops of `write_all` -/

theorem rest_wrote (l : WriteAll) (n : ℕ) : (l.wrote n).rest = l.rest.drop n := by
  rw [WriteAll.rest, WriteAll.rest, WriteAll.wrote, List.drop_drop]

theorem rest_ne_nil_iff : l.rest ≠ [] ↔ l.bytesWritten < l.buf.length := by
  rw [WriteAll.rest, Ne, List.drop_eq_nil_iff, Nat.not_le]

theorem frames_append_replyBuf (h : b = replyBuf) (n : ℕ) :
    frames (replies n) ++ b = frames (replies (n + 1)) := by
  rw [frames_replies_succ, h]

/-- A reader that waits is what the programs go on with. -/
theorem ofReader_of_waits (h : Waits r) : Query.ofReader r = .read r ∧
    OneRequest.ofReader r = .read r ∧ showsAfter r = [] ∧ saysAfter r = [] := by
  cases r with
  | header buf => exact ⟨rfl, rfl, rfl, rfl⟩
  | payload n buf => exact ⟨rfl, rfl, rfl, rfl⟩
  | done p => exact h.elim
  | refused => exact h.elim

/-! ## A client -/

/-- A client that has exited. It has had all replies but perhaps the last. If no call has `Failed`,
it has had all, and it has sent all texts up to the first that is too long. -/
structure Client.Exited (Failed : Prop) (T : List CString) (c : Client) (code : ℕ)
    (asked : List CString) (sent got : Bytes) : Prop where
  called : asked <+: T
  part : sent <+: frames (bytesOf asked)
  count : c.shown.length ≤ asked.length ∧ asked.length ≤ c.shown.length + 1
  success : code = 0 → asked = T ∧ c.shown.length = asked.length
  clean : ¬ Failed → sent = frames (bytesOf asked) ∧ c.shown.length = asked.length ∧
    got = frames c.shown ∧ (code = 0 ∨
      code = 1 ∧ ∃ text later, T = asked ++ text :: later ∧ maxMsgFieldSize < text.bytes.length)

/-- **A client** of the texts `T` that has called `query` for `asked`, has sent and got these bytes,
and has shown a reply to each query but the last. -/
def Client.Ok (Failed : Prop) (T : List CString) (c : Client) (asked : List CString)
    (sent got : Bytes) : Prop :=
  match c.process with
  | .waiting => T = c.texts ∧ asked = [] ∧ c.shown = [] ∧ sent = [] ∧ got = []
  | .running (.write l) => T = asked ++ c.texts ∧ asked.length = c.shown.length + 1 ∧
      (l.rest ≠ [] ∧ sent ++ l.rest = frames (bytesOf asked)) ∧ got = frames c.shown
  | .running (.read r) => T = asked ++ c.texts ∧ asked.length = c.shown.length + 1 ∧
      sent = frames (bytesOf asked) ∧ Waits r ∧ got = frames c.shown ++ r.consumed lenFieldSize
  | .running (.returned _) => False
  | .exited code => c.Exited Failed T code asked sent got

section Client

variable {Failed : Prop} {T : List CString} {c : Client} {sent got : Bytes}

theorem Client.Ok.sent_part (h : c.Ok Failed T asked sent got) :
    sent <+: frames (bytesOf asked) := by
  unfold Client.Ok at h
  split at h
  · obtain ⟨-, -, -, rfl, -⟩ := h
    exact List.nil_prefix
  · obtain ⟨-, -, ⟨-, hsent⟩, -⟩ := h
    exact ⟨_, hsent⟩
  · obtain ⟨-, -, rfl, -⟩ := h
    exact List.prefix_rfl
  · exact h.elim
  · exact Client.Exited.part h

theorem Client.Ok.called (h : c.Ok Failed T asked sent got) : asked <+: T := by
  unfold Client.Ok at h
  split at h
  · obtain ⟨-, rfl, -⟩ := h
    exact List.nil_prefix
  · obtain ⟨rfl, -⟩ := h
    exact List.prefix_append ..
  · obtain ⟨rfl, -⟩ := h
    exact List.prefix_append ..
  · exact h.elim
  · exact Client.Exited.called h

theorem Client.Ok.length_asked_le (h : c.Ok Failed T asked sent got) :
    asked.length ≤ c.shown.length + 1 := by
  unfold Client.Ok at h
  split at h
  · obtain ⟨-, rfl, -⟩ := h
    exact Nat.zero_le _
  · exact h.2.1.le
  · exact h.2.1.le
  · exact h.elim
  · exact (Client.Exited.count h).2

/-- **`main` between two calls of `query`**, when there is a reply to every text that was sent. -/
theorem Client.next_ok (Failed : Prop) (hT : T = asked ++ c.texts)
    (hshown : c.shown.length = asked.length) (hsent : sent = frames (bytesOf asked))
    (hgot : got = frames c.shown) (hfits : Fits asked) :
    ∃ asked', asked <+: asked' ∧ Fits asked' ∧ c.next.Ok Failed T asked' sent got ∧
      c.next.shown = c.shown := by
  unfold Client.next
  cases htexts : c.texts with
  | nil =>
    rw [htexts, List.append_nil] at hT
    refine ⟨asked, List.prefix_rfl, hfits, ?_, rfl⟩
    exact ⟨hT ▸ List.prefix_rfl, hsent ▸ List.prefix_rfl,
      ⟨hshown.le, hshown.ge.trans (Nat.le_succ _)⟩, fun _ => ⟨hT.symm, hshown⟩,
      fun _ => ⟨hsent, hshown, hgot, .inl rfl⟩⟩
  | cons text later =>
    rw [htexts] at hT
    by_cases hlong : maxMsgFieldSize < text.bytes.length
    · have hcall : Query.call text = .returned (-1) := if_pos hlong
      simp only [hcall]
      refine ⟨asked, List.prefix_rfl, hfits, ?_, trivial⟩
      exact ⟨hT ▸ List.prefix_append .., hsent ▸ List.prefix_rfl,
        ⟨hshown.le, hshown.ge.trans (Nat.le_succ _)⟩, nofun,
        fun _ => ⟨hsent, hshown, hgot, .inr ⟨rfl, text, later, hT, hlong⟩⟩⟩
    · have hcall : Query.call text = .write ⟨wbuf text, 0⟩ := by
        have hpos : 0 < (wbuf text).length := by
          rw [wbuf_eq, length_record]
          exact Nat.lt_of_lt_of_le lenFieldSize_pos (Nat.le_add_right ..)
        rw [Query.call, if_neg hlong, Query.ofWriteAll, if_pos hpos]
      simp only [hcall]
      refine ⟨asked ++ [text], List.prefix_append .., ?_, ⟨?_, ?_, ⟨?_, ?_⟩, hgot⟩, trivial⟩
      · intro t ht
        rcases List.mem_append.mp ht with ht | ht
        · exact hfits t ht
        · rw [List.mem_singleton.mp ht]
          exact Nat.le_of_not_lt hlong
      · rw [hT, List.append_assoc]
        rfl
      · rw [List.length_append, hshown]
        rfl
      · change wbuf text ≠ []
        rw [wbuf_eq, ← List.length_pos_iff, length_record]
        exact Nat.lt_of_lt_of_le lenFieldSize_pos (Nat.le_add_right ..)
      · rw [hsent, bytesOf, bytesOf, List.map_append, frames_append, List.map_singleton,
          frames_cons, frames_nil, List.append_nil]
        rfl

end Client

/-! ## The server's end of a connection -/

/-- Where the server is with a connection. -/
inductive Stage
  /-- It has not accepted it. -/
  | fresh
  | serving (o : OneRequest)
  | closed

/-- The stage of a connection, when `one_request` for it is in the state `o`. -/
def Stage.of : OneRequest → Stage
  | .returned err => if err = 0 then .serving .start else .closed
  | o => .serving o

/-- **The server** has `heard` these messages on a connection, has received and written these bytes,
and has written a reply to each message but the last. -/
def Stage.Ok (stage : Stage) (heard : List Bytes) (received written : Bytes) : Prop :=
  match stage with
  | .fresh => heard = [] ∧ received = [] ∧ written = []
  | .serving (.read r) => Waits r ∧ received = frames heard ++ r.consumed lenFieldSize ∧
      written = frames (replies heard.length)
  | .serving (.write l) => (l.rest ≠ [] ∧ written ++ l.rest = frames (replies heard.length)) ∧
      received = frames heard
  | .serving (.returned _) => False
  | .closed => written <+: frames (replies heard.length)

theorem Stage.Ok.written_part {stage : Stage} {received written : Bytes}
    (h : stage.Ok heard received written) : written <+: frames (replies heard.length) := by
  unfold Stage.Ok at h
  split at h
  · obtain ⟨-, -, rfl⟩ := h
    exact List.nil_prefix
  · obtain ⟨-, -, rfl⟩ := h
    exact List.prefix_rfl
  · obtain ⟨⟨-, hwritten⟩, -⟩ := h
    exact ⟨_, hwritten⟩
  · exact h.elim
  · exact h

/-- `one_request` is called. -/
theorem Stage.ok_start {received written : Bytes} (hreceived : received = frames heard)
    (hwritten : written = frames (replies heard.length)) :
    (Stage.serving .start).Ok heard received written := by
  have hstart : OneRequest.start = .read (.start lenFieldSize maxMsgFieldSize) := rfl
  rw [hstart]
  refine ⟨Reader.start_waiting lenFieldSize_pos, ?_, hwritten⟩
  rw [Reader.start_consumed lenFieldSize_pos, List.append_nil]
  exact hreceived

/-! ## A connection -/

/-- **A client, the server and what is between them.** Both have read only what the other side has
sent; the server has heard the first of the texts, and there is a reply to each text whose reply was
shown. -/
structure Link.Ok (Failed : Prop) (T : List CString) (l : Link) (stage : Stage)
    (heard : List Bytes) (asked : List CString) : Prop where
  fits : Fits asked
  client : l.client.Ok Failed T asked l.sent l.got
  server : stage.Ok heard l.received l.written
  hears : heard <+: bytesOf asked
  receives : l.received <+: l.sent
  gets : l.got <+: l.written
  shows : l.client.shown <+: replies heard.length
  closed : stage = .closed → ¬ Failed →
    (∃ code, l.client.process = .exited code) ∧ heard = bytesOf asked

namespace Link.Ok

variable {Failed : Prop} {T : List CString} {k : Link} {stage : Stage}

theorem init (T : List CString) :
    Link.Ok Failed T ⟨⟨T, .waiting, []⟩, [], [], [], []⟩ .fresh [] [] where
  fits _ ht := by cases ht
  client := ⟨rfl, rfl, rfl, rfl, rfl⟩
  server := ⟨rfl, rfl, rfl⟩
  hears := List.prefix_rfl
  receives := List.prefix_rfl
  gets := List.prefix_rfl
  shows := List.prefix_rfl
  closed hstage := by cases hstage

/-- The server has not closed the connection of a client that runs or waits. -/
theorem not_closed (h : k.Ok Failed T stage heard asked)
    (hrun : ∀ code, k.client.process ≠ .exited code) (hstage : stage = .closed) (hf : ¬ Failed) :
    False := by
  obtain ⟨⟨code, hexit⟩, -⟩ := h.closed hstage hf
  exact hrun code hexit

theorem bytesOf_mono {asked' : List CString} (h : asked <+: asked') :
    bytesOf asked <+: bytesOf asked' := h.map _

theorem connect (h : k.Ok Failed T stage heard asked) (hp : k.client.process = .waiting) :
    ∃ asked', Link.Ok Failed T { k with client := k.client.next } stage heard asked' := by
  obtain ⟨hT, rfl, hshown, hsent, hgot⟩ : T = _ ∧ _ := by
    have hclient := h.client
    rwa [Client.Ok, hp] at hclient
  have hlength : k.client.shown.length = 0 := congrArg List.length hshown
  have hframes : k.got = frames k.client.shown := hgot.trans (congrArg frames hshown).symm
  obtain ⟨asked', hle, hfits, hok, hsame⟩ := Client.next_ok Failed hT hlength hsent hframes h.fits
  refine ⟨asked', { h with fits := hfits, client := hok, hears := ?_, shows := ?_, closed := ?_ }⟩
  · exact h.hears.trans (bytesOf_mono hle)
  · exact hsame ▸ h.shows
  · intro hstage hf
    exact (h.not_closed (fun code he => by rw [hp] at he; cases he) hstage hf).elim

theorem clientWrite (h : k.Ok Failed T stage heard asked)
    (hp : k.client.process = .running (.write l)) (n : ℕ) :
    Link.Ok Failed T { k with
      client := k.client.resume (.ofWriteAll (l.wrote n))
      sent := k.sent ++ l.rest.take n } stage heard asked := by
  obtain ⟨hT, hcount, ⟨-, hsent⟩, hgot⟩ : T = _ ∧ _ := by
    have hclient := h.client
    rwa [Client.Ok, hp] at hclient
  have hall : k.sent ++ l.rest.take n ++ (l.wrote n).rest = frames (bytesOf asked) := by
    rw [rest_wrote, List.append_assoc, List.take_append_drop, hsent]
  have hclosed : stage = .closed → ¬ Failed → False :=
    h.not_closed fun code he => by rw [hp] at he; cases he
  refine { h with
    client := ?_
    receives := h.receives.trans (List.prefix_append ..)
    shows := ?_
    closed := fun hstage hf => (hclosed hstage hf).elim }
  · unfold Query.ofWriteAll
    split
    · rename_i hlt
      exact ⟨hT, hcount, ⟨rest_ne_nil_iff.mpr hlt, hall⟩, hgot⟩
    · rename_i hge
      have hnil : (l.wrote n).rest = [] := by
        by_contra hne
        exact hge (rest_ne_nil_iff.mp hne)
      rw [hnil, List.append_nil] at hall
      have hwaits : Waits (.start lenFieldSize maxMsgFieldSize) :=
        Reader.start_waiting lenFieldSize_pos
      rw [(ofReader_of_waits hwaits).1]
      refine ⟨hT, hcount, hall, hwaits, ?_⟩
      rw [Reader.start_consumed lenFieldSize_pos, List.append_nil]
      exact hgot
  · unfold Query.ofWriteAll
    split
    · exact h.shows
    · exact h.shows

theorem clientRead (h : k.Ok Failed T stage heard asked)
    (hp : k.client.process = .running (.read r)) (hne : b ≠ [])
    (hlen : b.length ≤ r.missing lenFieldSize) (hb : k.got ++ b <+: k.written) :
    ∃ asked', Link.Ok Failed T { k with
      client := { k.client with shown := k.client.shown ++ showsAfter (fed r b) }.resume
        (.ofReader (fed r b))
      got := k.got ++ b } stage heard asked' := by
  obtain ⟨hT, hcount, hsent, hwaits, hgot⟩ : T = _ ∧ _ := by
    have hclient := h.client
    rwa [Client.Ok, hp] at hclient
  have hclosed : stage = .closed → ¬ Failed → False :=
    h.not_closed fun code he => by rw [hp] at he; cases he
  have hstream := hb.trans h.server.written_part
  rw [hgot, List.append_assoc] at hstream
  obtain ⟨p, hreads, hnext⟩ := hwaits.next maxMsgFieldSize_lt
    (fun msg hmsg => length_le_of_mem_replies hmsg) h.shows hne hlen hstream
  rcases hreads with ⟨hwaits', hconsumed⟩ | ⟨hdone, hrecord⟩
  · obtain ⟨hquery, -, hshows, -⟩ := ofReader_of_waits hwaits'
    refine ⟨asked, { h with
      client := ?_, gets := hb, shows := ?_, closed := fun hstage hf => (hclosed hstage hf).elim }⟩
    · have hgot' : k.got ++ b = frames k.client.shown ++ (fed r b).consumed lenFieldSize := by
        rw [hconsumed, ← List.append_assoc, ← hgot]
      rw [hquery, hshows, List.append_nil]
      exact ⟨hT, hcount, hsent, hwaits', hgot'⟩
    · rw [hquery, hshows, List.append_nil]
      exact h.shows
  · obtain rfl : p = reply :=
      List.eq_of_mem_replicate (hnext.subset (List.mem_append_right _ (List.mem_singleton_self p)))
    have hfed : fed r b = .done reply := hdone
    -- the reply is complete, and `main` goes on
    rw [hfed, showsAfter_done]
    have hcount' : (k.client.shown ++ [reply]).length = asked.length := by
      rw [List.length_append, hcount]
      rfl
    have hgot' : k.got ++ b = frames (k.client.shown ++ [reply]) := by
      rw [hgot, List.append_assoc, hrecord, frames_append, frames_cons, frames_nil, List.append_nil]
    obtain ⟨asked', hle, hfits, hok, hsame⟩ := Client.next_ok Failed
      (c := { k.client with shown := k.client.shown ++ [reply] }) hT hcount' hsent hgot' h.fits
    refine ⟨asked', { h with
      fits := hfits, client := hok, hears := h.hears.trans (bytesOf_mono hle), gets := hb,
      shows := ?_, closed := fun hstage hf => (hclosed hstage hf).elim }⟩
    exact hsame.symm ▸ hnext

/-- A call of the client fails. -/
theorem clientFails (h : k.Ok True T stage heard asked) {q : Query}
    (hp : k.client.process = .running q) :
    Link.Ok True T { k with client := k.client.resume (.returned (-1)) } stage heard asked := by
  have hclosed : stage = .closed → ¬ True → False :=
    h.not_closed fun code he => by rw [hp] at he; cases he
  have hshown := h.shows.length_le
  have hheard := h.hears.length_le
  rw [replies, List.length_replicate] at hshown
  rw [bytesOf, List.length_map] at hheard
  refine { h with
    client := ⟨h.client.called, h.client.sent_part, ⟨hshown.trans hheard, h.client.length_asked_le⟩,
      nofun, fun hf => (hf trivial).elim⟩
    closed := fun hstage hf => (hclosed hstage hf).elim }

theorem accept (h : k.Ok Failed T .fresh heard asked) :
    k.Ok Failed T (.serving .start) heard asked := by
  obtain ⟨rfl, hreceived, hwritten⟩ := h.server
  exact { h with server := Stage.ok_start hreceived hwritten, closed := nofun }

theorem serverRead (h : k.Ok Failed T (.serving (.read r)) heard asked) (hne : b ≠ [])
    (hlen : b.length ≤ r.missing lenFieldSize) (hb : k.received ++ b <+: k.sent) :
    Link.Ok Failed T { k with received := k.received ++ b } (.of (.ofReader (fed r b)))
      (heard ++ saysAfter (fed r b)) asked := by
  obtain ⟨hwaits, hreceived, hwritten⟩ := h.server
  have hstream := hb.trans h.client.sent_part
  rw [hreceived, List.append_assoc] at hstream
  obtain ⟨p, hreads, hnext⟩ :=
    hwaits.next maxMsgFieldSize_lt h.fits.length_le h.hears hne hlen hstream
  rcases hreads with ⟨hwaits', hconsumed⟩ | ⟨hdone, hrecord⟩
  · obtain ⟨-, hrequest, -, hsays⟩ := ofReader_of_waits hwaits'
    rw [hrequest, hsays, List.append_nil]
    refine { h with server := ⟨hwaits', ?_, hwritten⟩, receives := hb, closed := nofun }
    rw [hconsumed, ← List.append_assoc, ← hreceived]
  · obtain ⟨text, htext, rfl⟩ : ∃ text ∈ asked, text.bytes = p := List.mem_map.mp
      (hnext.subset (List.mem_append_right _ (List.mem_singleton_self p)))
    have hfed : fed r b = .done text.bytes := hdone
    have hsays := saysAfter_done (h.fits text htext)
    rw [hfed, hsays]
    refine { h with server := ⟨⟨?_, ?_⟩, ?_⟩, hears := hnext, receives := hb, shows := ?_,
                    closed := nofun }
    · exact List.cons_ne_nil _ _
    · rw [List.length_append, hwritten]
      exact frames_append_replyBuf rfl _
    · rw [hreceived, List.append_assoc, hrecord, frames_append, frames_cons, frames_nil,
        List.append_nil]
    · refine h.shows.trans ?_
      rw [List.length_append, replies, replies, List.replicate_add]
      exact List.prefix_append ..

theorem serverWrite (h : k.Ok Failed T (.serving (.write l)) heard asked) (n : ℕ) :
    Link.Ok Failed T { k with written := k.written ++ l.rest.take n }
      (.of (.ofWriteAll (l.wrote n))) heard asked := by
  obtain ⟨⟨-, hwritten⟩, hreceived⟩ := h.server
  have hall : k.written ++ l.rest.take n ++ (l.wrote n).rest =
      frames (replies heard.length) := by
    rw [rest_wrote, List.append_assoc, List.take_append_drop, hwritten]
  have hgets : k.got <+: k.written ++ l.rest.take n := h.gets.trans (List.prefix_append ..)
  unfold OneRequest.ofWriteAll
  split
  · rename_i hlt
    exact { h with
      server := ⟨⟨rest_ne_nil_iff.mpr hlt, hall⟩, hreceived⟩, gets := hgets, closed := nofun }
  · rename_i hge
    have hnil : (l.wrote n).rest = [] := by
      by_contra hne
      exact hge (rest_ne_nil_iff.mp hne)
    rw [hnil, List.append_nil] at hall
    exact { h with server := Stage.ok_start hreceived hall, gets := hgets, closed := nofun }

/-- The server closes the connection: a call has failed, or it has read all that was sent by a
client that has exited. -/
theorem serverStops {o : OneRequest} (h : k.Ok Failed T (.serving o) heard asked)
    (hstop : ¬ Failed → ∃ r code, o = .read r ∧ k.client.process = .exited code ∧
      k.received = k.sent) : k.Ok Failed T .closed heard asked := by
  refine { h with server := h.server.written_part, closed := fun _ hf => ?_ }
  obtain ⟨r, code, rfl, hexit, hall⟩ := hstop hf
  refine ⟨⟨code, hexit⟩, ?_⟩
  obtain ⟨hwaits, hreceived, -⟩ := h.server
  have hclient := h.client
  rw [Client.Ok, hexit] at hclient
  rw [hall, (Client.Exited.clean hclient hf).1] at hreceived
  exact (hwaits.all maxMsgFieldSize_lt h.fits.length_le h.hears hreceived.symm).1

end Link.Ok

end Byor.ProtocolParsing
