import Mathlib.Data.List.GetD
import Byor.Optimized.Network
import Byor.Optimized.Receive

/-!
# The command line client

A call of the command line client sends one command to the optimized server, calls `recv` once and
shows what `deserialize` makes of it. Any number of calls run beside the server, each over a
connection of its own; what `recv` returns is a first piece of what the server has written to it.
The commands keep to the limits of the server (`Sendable`).

* `cli_of_run`: the calls see a linearizable key-value map, though each sees only a piece of its
  reply. A call that begins after another has received its first byte comes later.
* `script_of_run`: calls that are made one after another get what the map gives in this order.
* `shown_of_run`: what a call shows. Its command was carried out exactly once, and the text is the
  right one exactly if the response has no data, and its status is zero or has been received.
-/

namespace Byor.Optimized

open Wire
open KeyValue (Reply reply)

/-- `CLIHandler::process_args`: the strings that are sent. The first three arguments are the name of
the program, the address and the port. -/
def processArgs (argv : List Bytes) : Option (List Bytes) :=
  if argv.length < 4 then none else some (argv.drop 3)

/-- The server and the calls of the client, by the numbers of their sockets. -/
structure CliNetwork where
  world : World
  /-- The bytes a call has sent. -/
  outbox : ℕ → Bytes
  /-- The commands that were sent and the bytes `recv` returned, in order. -/
  seen : List (Action ℕ (List Bytes) Bytes)

/-- The server is about to wait for the first time. -/
def CliNetwork.init (serverFd : Fd) : CliNetwork := ⟨World.init serverFd, fun _ => [], []⟩

/-- The server serves an event. -/
def CliNetwork.serve (n : CliNetwork) (event : Event) (r : SysResults) : CliNetwork :=
  { n with world := afterEvent event r n.world }

/-- A call sends its command. -/
def CliNetwork.send (n : CliNetwork) (s : ℕ) (cmds : List Bytes) (frame : Bytes) : CliNetwork :=
  { n with
    outbox := Function.update n.outbox s (n.outbox s ++ frame)
    seen := n.seen ++ [.call s cmds] }

/-- Its `recv` returns. -/
def CliNetwork.recv (n : CliNetwork) (s : ℕ) (b : Bytes) : CliNetwork :=
  { n with seen := n.seen ++ [.ret s b] }

/-- The runs of the server and the calls of the client, with the events that are still to be served.
A call whose `recv` finds the connection closed or lost sees nothing of the server, there is no step
for it. -/
inductive CliRun (Wait : World → List Event → Prop) (serverFd : Fd) :
    CliNetwork → List Event → Prop
  | start : CliRun Wait serverFd (CliNetwork.init serverFd) []
  | wait {n batch} (h : CliRun Wait serverFd n []) (hb : Wait n.world batch) :
      CliRun Wait serverFd n batch
  /-- What is read has been sent. -/
  | serve {n event events r} (h : CliRun Wait serverFd n (event :: events))
      (ha : r.Allowed n.world)
      (hr : ∀ s, (n.serve event r).world.kernel.received s <+: n.outbox s) :
      CliRun Wait serverFd (n.serve event r) events
  /-- Each call has a connection of its own. -/
  | send {n events argv cmds frame} (h : CliRun Wait serverFd n events) (s : ℕ)
      (hs : callsBy s n.seen = []) (hargs : processArgs argv = some cmds) (hcmds : Sendable cmds)
      (hframe : serialize cmds = some frame) : CliRun Wait serverFd (n.send s cmds frame) events
  /-- The single `recv` of a call returns when something has come back. -/
  | recv {n events b} (h : CliRun Wait serverFd n events) (s : ℕ)
      (hcall : callsBy s n.seen ≠ []) (hret : retsTo s n.seen = [])
      (hb : (RecvResult.bytes b).Allowed) (hw : b <+: n.world.kernel.written s) :
      CliRun Wait serverFd (n.recv s b) events

/-- The bytes begin the frame of the reply. -/
def Begins (b : Bytes) (o : Reply) : Prop :=
  b ≠ [] ∧ ∃ resp : Response, reply resp = o ∧ b <+: resp.frame

variable {Wait : World → List Event → Prop} {serverFd : Fd} {n : CliNetwork}
  {events : List Event} {w : World} {s : ℕ} {b : Bytes} {resp : Response}

/-! ## The calls as clients -/

/-- The calls are clients that never take a reply off. -/
theorem networkRun_of_cli (h : CliRun Wait serverFd n events) :
    ∃ m, NetworkRun Wait serverFd m events ∧ m.world = n.world ∧ m.outbox = n.outbox ∧
      ∀ s, callsBy s m.seen = callsBy s n.seen := by
  induction h with
  | start => exact ⟨_, .start, rfl, rfl, fun _ => rfl⟩
  | wait _ hb ih =>
    obtain ⟨m, hm, hworld, houtbox, hcalls⟩ := ih
    exact ⟨m, .wait hm (hworld ▸ hb), hworld, houtbox, hcalls⟩
  | @serve n event events r _ ha hr ih =>
    obtain ⟨m, hm, hworld, houtbox, hcalls⟩ := ih
    have hserve : (m.serve event r).world = (n.serve event r).world := by
      rw [Network.serve, CliNetwork.serve, hworld]
    exact ⟨m.serve event r, .serve hm (hworld ▸ ha) (by rwa [hserve, houtbox]), hserve, houtbox,
      hcalls⟩
  | @send n events argv cmds frame _ s _ _ hcmds hframe ih =>
    obtain ⟨m, hm, hworld, houtbox, hcalls⟩ := ih
    refine ⟨m.sendMessage s cmds frame, .sendMessage hm s hcmds hframe, hworld, ?_, fun s' => ?_⟩
    · rw [Network.sendMessage, CliNetwork.send, houtbox]
    · rw [Network.sendMessage, CliNetwork.send, callsBy_append, callsBy_append, hcalls,
        callsBy_call, callsBy_call]
  | recv _ s _ _ _ _ ih =>
    obtain ⟨m, hm, hworld, houtbox, hcalls⟩ := ih
    refine ⟨m, hm, hworld, houtbox, fun s' => ?_⟩
    rw [CliNetwork.recv, callsBy_append, callsBy_ret, List.append_nil, hcalls]

theorem consistent_of_cli (h : CliRun Wait serverFd n events) : Consistent n.world := by
  obtain ⟨m, hm, hworld, -⟩ := networkRun_of_cli h
  exact hworld ▸ (networked_of_run hm).consistent

theorem commands_of_cli (h : CliRun Wait serverFd n events) (s : ℕ) :
    ofPeer s (commandsOf n.world.executed) <+: callsBy s n.seen := by
  obtain ⟨m, hm, hworld, -, hcalls⟩ := networkRun_of_cli h
  rw [← hworld, ← hcalls]
  exact (networked_of_run hm).linearizes.calls s

/-- Only the call an event reads from has to have sent what is read. -/
theorem CliRun.served {event : Event} {r : SysResults}
    (h : CliRun EpollReports serverFd n (event :: events)) (ha : r.Allowed n.world)
    (hb : ∀ s, ReadsFrom n.world s event →
      n.world.kernel.received s ++ r.read.taken <+: n.outbox s) :
    CliRun EpollReports serverFd (n.serve event r) events := by
  obtain ⟨m, hm, hworld, houtbox, -⟩ := networkRun_of_cli h
  have hreach : Reachable EpollReports anyResults serverFd n.world (event :: events) :=
    hworld ▸ reachable_of_network hm
  have hreceived : ∀ s, n.world.kernel.received s <+: n.outbox s :=
    hworld ▸ houtbox ▸ (networked_of_run hm).received
  exact .serve h ha (received_afterEvent_sent hreach ha hreceived hb)

/-! ## One command, one piece -/

theorem length_calls_le (h : CliRun Wait serverFd n events) (s : ℕ) :
    (callsBy s n.seen).length ≤ 1 := by
  induction h with
  | start => exact Nat.zero_le _
  | wait _ _ ih => exact ih
  | serve _ _ _ ih => exact ih
  | send _ s' hs _ _ _ ih =>
    rw [CliNetwork.send, callsBy_append, callsBy_call]
    split
    · rename_i he
      rw [← he, hs]
      exact Nat.le_refl 1
    · rwa [List.append_nil]
  | recv _ _ _ _ _ _ ih => rwa [CliNetwork.recv, callsBy_append, callsBy_ret, List.append_nil]

/-- What `recv` has returned to a call begins what the server has written to it. -/
theorem pieces_of_cli (h : CliRun Wait serverFd n events) (s : ℕ) :
    ∀ b ∈ retsTo s n.seen, (RecvResult.bytes b).Allowed ∧ b <+: n.world.kernel.written s := by
  induction h with
  | start => exact fun _ hb => absurd hb List.not_mem_nil
  | wait _ _ ih => exact ih
  | @serve n event events r h ha _ ih =>
    obtain ⟨-, hwritten⟩ : Extends n.world (n.serve event r).world :=
      extends_afterEvent (consistent_of_cli h).toTableOk ha
    exact fun b hb => ⟨(ih b hb).1, (ih b hb).2.trans (hwritten s)⟩
  | send _ s' _ _ _ _ ih =>
    rw [CliNetwork.send, retsTo_append, retsTo_call, List.append_nil]
    exact ih
  | recv _ s' _ _ hb hw ih =>
    rw [CliNetwork.recv, retsTo_append, retsTo_ret]
    intro b' hmem
    rcases List.mem_append.mp hmem with hold | hnew
    · exact ih b' hold
    · split at hnew
      · rename_i he
        subst he
        rw [List.mem_singleton.mp hnew]
        exact ⟨hb, hw⟩
      · cases hnew

/-- **Nothing comes back before the command was carried out.** If something has been written to a
call, its only command was carried out once, and what was written begins the response. -/
theorem executed_of_cli (h : CliRun Wait serverFd n events) (hb : b ≠ [])
    (hw : b <+: n.world.kernel.written s) : ∃ e, callsOf s n.world.executed = [e] ∧
      callsBy s n.seen = [e.cmd] ∧ b <+: e.resp.frame := by
  have hprefix : b <+: answersTo s n.world.executed :=
    hw.trans ((consistent_of_cli h).prefix_written s)
  have hcalls := commands_of_cli h s
  have hlen := hcalls.length_le
  have hone := length_calls_le h s
  rw [ofPeer_commandsOf] at hcalls hlen
  rw [List.length_map] at hlen
  match hlog : callsOf s n.world.executed with
  | [] =>
    rw [answersTo, hlog] at hprefix
    exact absurd (List.prefix_nil.mp hprefix) hb
  | [e] =>
    rw [hlog] at hcalls hlen
    rw [answersTo, hlog] at hprefix
    refine ⟨e, rfl, (hcalls.eq_of_length_le ?_).symm, ?_⟩
    · exact hone
    · rwa [List.map_singleton, responseBytes_cons, responseBytes, List.map_nil, List.flatten_nil,
        List.append_nil] at hprefix
  | e :: e' :: log =>
    rw [hlog, List.length_cons, List.length_cons] at hlen
    omega

/-! ## What the calls see -/

theorem linearizesAs_of_cli (h : CliRun Wait serverFd n events) :
    LinearizesAs keyValueObject Begins (commandsOf n.world.executed) n.seen := by
  induction h with
  | start => exact .nil
  | wait _ _ ih => exact ih
  | @serve n event events r h ha hr ih =>
    obtain ⟨hexecuted, -⟩ : Extends n.world (n.serve event r).world :=
      extends_afterEvent (consistent_of_cli h).toTableOk ha
    exact ih.grow (hexecuted.map _) (commands_of_cli (h.serve ha hr))
  | send _ s _ _ _ _ ih => exact ih.called s _
  | @recv n events b h s _ hret hb hw ih =>
    obtain ⟨e, hlog, -, hframe⟩ := executed_of_cli h (hb b rfl).1 hw
    refine ih.returned (o := reply e.resp) ⟨(hb b rfl).1, e.resp, rfl, hframe⟩ ?_
    rw [(consistent_of_cli h).ofPeer_results, hlog, hret]
    rfl

/-- **The calls of the client see a linearizable key-value map**, though each sees only the piece of
its reply that its `recv` returned. One sequence of the commands explains all pieces, each of them
begins the reply to its command in this sequence, and the command of a call that began after another
had received something comes later. The sequence is the one in which `do_request` was called; it has
no command twice, and every one whose call has received something. -/
theorem cli_of_run (h : CliRun Wait serverFd n events) :
    LinearizesAs keyValueObject Begins (commandsOf n.world.executed) n.seen ∧
      ∀ s, (callsOf s n.world.executed).length ≤ 1 ∧
        (retsTo s n.seen ≠ [] → (callsOf s n.world.executed).length = 1) := by
  refine ⟨linearizesAs_of_cli h, fun s => ⟨?_, fun hret => ?_⟩⟩
  · have hcalls := (commands_of_cli h s).length_le
    rw [ofPeer_commandsOf, List.length_map] at hcalls
    exact hcalls.trans (length_calls_le h s)
  · obtain ⟨b, hb⟩ := List.exists_mem_of_ne_nil _ hret
    obtain ⟨hallowed, hw⟩ := pieces_of_cli h s b hb
    obtain ⟨e, hlog, -⟩ := executed_of_cli h (hallowed b rfl).1 hw
    rw [hlog]
    rfl

theorem reply_injective : Function.Injective reply := by
  intro resp resp' h
  obtain ⟨hstatus, hdata⟩ := Prod.mk.inj h
  exact Response.eq_of_toByte hstatus hdata

/-- **A script of calls.** If the calls were made one after another, each after `recv` had brought
something in the one before, and the last has received something too, then the commands were carried
out in this order and nothing else was, and what each call received begins the response a map gives
that starts empty and runs the commands. -/
theorem script_of_run (h : CliRun Wait serverFd n events) {script : List (ℕ × List Bytes × Bytes)}
    (hscript : n.seen = inTurn script) :
    n.world.executed.map (fun e => (e.socket, e.cmd)) = script.map (fun p => (p.1, p.2.1)) ∧
      List.Forall₂ (fun p resp => p.2.2 ≠ [] ∧ p.2.2 <+: resp.frame) script
        (runCommands Store.empty (script.map fun p => p.2.1)).2 := by
  have hlin := linearizesAs_of_cli h
  have hconsistent := consistent_of_cli h
  have hnodup : (script.map Prod.fst).Nodup := by
    refine nodup_iff_length_ofPeer_le.mpr fun s => ?_
    have hlen := length_calls_le h s
    rwa [hscript, callsBy_inTurn, List.length_map] at hlen
  rw [hscript] at hlin
  obtain ⟨hlog, hpieces⟩ := hlin.eq_of_inTurn hnodup
  have hcmds : n.world.executed.map Execution.cmd = script.map fun p => p.2.1 := by
    have hsnd := congrArg (List.map Prod.snd) hlog
    rwa [commandsOf, List.map_map, List.map_map] at hsnd
  refine ⟨hlog, ?_⟩
  rw [← hcmds, ← hconsistent.sequential, List.forall₂_map_right_iff]
  have hresults := results_commandsOf Store.empty n.world.executed hconsistent.sequential
  change List.Forall₂ _ script (keyValueObject.results Store.empty _) at hpieces
  rw [hresults, List.forall₂_map_right_iff] at hpieces
  refine hpieces.imp ?_
  rintro p e ⟨hne, resp, hresp, hframe⟩
  obtain rfl := reply_injective hresp
  exact ⟨hne, hframe⟩

/-- `./client 127.0.0.1 1234 set j v` -/
def setArgs : List Bytes :=
  [ascii "./client", ascii "127.0.0.1", ascii "1234", ascii "set", ascii "j", ascii "v"]

/-- `./client 127.0.0.1 1234 get j` -/
def askArgs : List Bytes :=
  [ascii "./client", ascii "127.0.0.1", ascii "1234", ascii "get", ascii "j"]

/-- The first call has sent its command, and is accepted. -/
def cliSetAccepted : CliNetwork :=
  ((CliNetwork.init 3).send 0 setMessage (toRequest setMessage).frame).serve ⟨3, EPOLLIN⟩
    { SysResults.again with accept := 7 }

/-- The command is read. -/
def cliSetRead : CliNetwork := cliSetAccepted.serve ⟨7, EPOLLIN⟩
  { SysResults.again with read := .bytes (toRequest setMessage).frame }

/-- The response is written, and `recv` returns two bytes of it. -/
def cliSetDone : CliNetwork :=
  (cliSetRead.serve ⟨7, EPOLLOUT⟩ { SysResults.again with write := .wrote 15 }).recv 0 [11, 0]

/-- Then the second call sends its command, and is accepted. -/
def cliAskAccepted : CliNetwork :=
  (cliSetDone.send 1 askMessage (toRequest askMessage).frame).serve ⟨3, EPOLLIN⟩
    { SysResults.again with accept := 8 }

/-- The command is read. -/
def cliAskRead : CliNetwork := cliAskAccepted.serve ⟨8, EPOLLIN⟩
  { SysResults.again with read := .bytes (toRequest askMessage).frame }

/-- The response is written, and `recv` returns all of it. -/
def cliAskDone : CliNetwork :=
  (cliAskRead.serve ⟨8, EPOLLOUT⟩ { SysResults.again with write := .wrote 6 }).recv 1
    (Response.frame ⟨.RES_OK, ascii "v"⟩)

theorem allowed_bytes (hne : b ≠ []) (hlen : b.length ≤ recvBufferSize) :
    (RecvResult.bytes b).Allowed := by
  rintro b' ⟨⟩
  exact ⟨hne, hlen⟩

theorem cliRun_cliSetDone : CliRun EpollReports 3 cliSetDone [] := by
  have hsize := recvBufferSize_eq
  have hargs : processArgs setArgs = some setMessage := rfl
  have haccepted : CliRun EpollReports 3 cliSetAccepted [] :=
    .serve (.wait (.send .start 0 rfl hargs sendable_setMessage sendable_setMessage.serialize_eq)
      (.single (m := EPOLLIN) rfl id id)) (.of_accept (by decide)) fun _ => List.nil_prefix
  have hwait : CliRun EpollReports 3 cliSetAccepted [⟨7, EPOLLIN⟩] :=
    .wait haccepted (.single (m := EPOLLIN) (by decide +kernel) id id)
  have hread : CliRun EpollReports 3 cliSetRead [] := by
    refine hwait.served (.of_read _ (by decide) (by decide)) ?_
    rintro s ⟨-, -, rfl⟩
    decide +kernel
  have hready : CliRun EpollReports 3 cliSetRead [⟨7, EPOLLOUT⟩] :=
    .wait hread (.single (m := EPOLLOUT) (by decide +kernel) id id)
  have hpiece : ([11, 0] : Bytes).length = 2 := rfl
  exact .recv (hready.served (.of_write _ _) fun _ hs => by cases hs.2.1) 0 (by decide) rfl
    (allowed_bytes (by decide) (by omega)) (by decide +kernel)

theorem cliRun_cliAskDone : CliRun EpollReports 3 cliAskDone [] := by
  have hsize := recvBufferSize_eq
  have hargs : processArgs askArgs = some askMessage := rfl
  have hsent := CliRun.send cliRun_cliSetDone 1 rfl hargs sendable_askMessage
    sendable_askMessage.serialize_eq
  have haccepted : CliRun EpollReports 3 cliAskAccepted [] :=
    (CliRun.wait hsent (.single (m := EPOLLIN) (by decide +kernel) id id)).served
      (.of_accept (by decide +kernel)) fun _ hs => absurd (by decide +kernel) hs.1
  have hwait : CliRun EpollReports 3 cliAskAccepted [⟨8, EPOLLIN⟩] :=
    .wait haccepted (.single (m := EPOLLIN) (by decide +kernel) id id)
  have hread : CliRun EpollReports 3 cliAskRead [] := by
    refine hwait.served (.of_read _ (by decide) (by decide)) ?_
    rintro s ⟨-, -, rfl⟩
    decide +kernel
  have hready : CliRun EpollReports 3 cliAskRead [⟨8, EPOLLOUT⟩] :=
    .wait hread (.single (m := EPOLLOUT) (by decide +kernel) id id)
  have hpiece : (Response.frame ⟨.RES_OK, ascii "v"⟩).length = 6 := rfl
  exact .recv (hready.served (.of_write _ _) fun _ hs => by cases hs.2.1) 1 (by decide) rfl
    (allowed_bytes (by decide) (by omega)) (by decide +kernel)

theorem cli_of_ask_run :
    LinearizesAs keyValueObject Begins [(0, setMessage), (1, askMessage)] cliAskDone.seen := by
  have hlog : commandsOf cliAskDone.world.executed = [(0, setMessage), (1, askMessage)] := by
    decide +kernel
  exact hlog ▸ (cli_of_run cliRun_cliAskDone).1

/-- The `get` comes after the `set`. -/
theorem script_of_ask_run :
    cliAskDone.world.executed.map (fun e => (e.socket, e.cmd)) =
        [(0, setMessage), (1, askMessage)] ∧
      List.Forall₂ (fun p resp => p.2.2 ≠ [] ∧ p.2.2 <+: resp.frame)
        [((0 : ℕ), setMessage, ([11, 0] : Bytes)),
          (1, askMessage, Response.frame ⟨.RES_OK, ascii "v"⟩)]
        (runCommands Store.empty [setMessage, askMessage]).2 :=
  script_of_run cliRun_cliAskDone (show cliAskDone.seen = inTurn [(0, setMessage, [11, 0]),
    (1, askMessage, Response.frame ⟨.RES_OK, ascii "v"⟩)] from rfl)

/-! ## What a call shows -/

theorem Response.frame_eq (hlen : 1 + resp.data.length < 2 ^ 32) :
    resp.frame = leBytes 4 (1 + resp.data.length) ++ (resp.status.toByte :: resp.data) := by
  rw [Response.frame, makeResponse, Nat.mod_eq_of_lt hlen, List.nil_append, List.append_assoc]
  rfl

theorem Response.length_frame (hlen : 1 + resp.data.length < 2 ^ 32) :
    resp.frame.length = 5 + resp.data.length := by
  rw [Response.frame_eq hlen, List.length_append, length_leBytes, List.length_cons]
  omega

/-- The header in a piece of a frame: the bytes that are missing count as zeros. -/
theorem dataLen_of_piece (hb : b <+: resp.frame) (hlen : 1 + resp.data.length < 2 ^ 32) :
    dataLen b = (1 + resp.data.length) % 256 ^ min 4 b.length := by
  have hword : b.take 4 = leBytes (min 4 b.length) (1 + resp.data.length) := by
    have hmin : min 4 b.length ≤ (leBytes 4 (1 + resp.data.length)).length := by
      rw [length_leBytes]
      exact Nat.min_le_left ..
    rw [List.prefix_iff_eq_take.mp hb, List.take_take, Response.frame_eq hlen,
      List.length_take_of_le, List.take_append_of_le_length hmin, take_leBytes (Nat.min_le_left ..)]
    exact Response.frame_eq hlen ▸ hb.length_le
  rw [dataLen, lenFieldSize, hword, leVal_leBytes]

/-- Leaving the status out, no piece of a frame announces as much data as there is, unless there is
none. -/
theorem data_eq_nil_of_laidOut (hb : b <+: resp.frame) (hlen : 1 + resp.data.length < 2 ^ 32)
    (h : LaidOut b resp) : resp.data = [] := by
  obtain ⟨-, ⟨hd, -⟩ | ⟨-, -, hd, -⟩⟩ := h
  · exact hd
  rw [dataLen_of_piece hb hlen] at hd
  have hpow : 0 < 256 ^ min 4 b.length := Nat.pow_pos (by omega)
  have hlt : resp.data.length < 256 ^ min 4 b.length := hd ▸ Nat.mod_lt _ hpow
  rcases Nat.lt_or_ge (1 + resp.data.length) (256 ^ min 4 b.length) with hsmall | hlarge
  · rw [Nat.mod_eq_of_lt hsmall] at hd
    omega
  · rw [Nat.le_antisymm (by omega) hlarge, Nat.mod_self] at hd
    exact List.length_eq_zero_iff.mp hd

/-- **After which first piece of its frame a response is shown.** -/
theorem shown_iff_of_piece (hne : b ≠ []) (hb : b <+: resp.frame)
    (hlen : 5 + resp.data.length ≤ recvBufferSize) : receiveMessage (.bytes b) = some resp.text ↔
      resp.data = [] ∧ (resp.status = .RES_OK ∨ b = resp.frame) := by
  have hsize := recvBufferSize_eq
  have hfits : 1 + resp.data.length < 2 ^ 32 := by omega
  have hframe := Response.length_frame hfits
  have hle := hb.length_le
  rw [receiveMessage_text_iff (r := .bytes b) (by change b.length ≤ _; omega)]
  change LaidOut b resp ↔ _
  constructor
  · intro h
    have hnil := data_eq_nil_of_laidOut hb hfits h
    refine ⟨hnil, ?_⟩
    by_cases h5 : b.length = resp.frame.length
    · exact .inr (hb.eq_of_length h5)
    · -- the status is missing, and zero is shown in its place
      have hshort : b.length ≤ 4 := by
        rw [hnil, List.length_nil] at hframe
        omega
      have hstatus := h.1
      rw [List.getD_eq_default _ _ hshort] at hstatus
      exact .inl (ResponseStatus.toByte_injective hstatus.symm)
  · rintro ⟨hnil, hor⟩
    have hone : dataLen b ≤ 1 := by
      rw [dataLen_of_piece hb hfits, hnil]
      exact Nat.mod_le ..
    refine ⟨?_, .inl ⟨hnil, .inl hone⟩⟩
    rcases hor with hok | rfl
    · obtain ⟨t, ht⟩ := hb
      rcases Nat.lt_or_ge 4 b.length with h4 | h4
      · have hget := List.getD_append b t 0 4 h4
        rw [← hget, ht, Response.frame_eq hfits]
        rfl
      · rw [List.getD_eq_default _ _ h4, hok]
        rfl
    · rfl

/-- The whole frame shows the byte behind the data too. -/
theorem shown_frame (hlen : 5 + resp.data.length < recvBufferSize) :
    receiveMessage (.bytes resp.frame) =
      some (resp.text ++ if resp.data = [] then [] else [0]) := by
  have hsize := recvBufferSize_eq
  have hmax := maxMsgFieldSize_eq
  have hframe : resp.frame.length = 5 + resp.data.length := Response.length_frame (by omega)
  obtain ⟨k, hk⟩ : ∃ k, recvBufferSize - resp.frame.length = k + 1 :=
    Nat.exists_eq_succ_of_ne_zero (by omega)
  have hreceive : receive (.bytes resp.frame) = resp.frame ++ List.replicate (k + 1) 0 := by
    rw [receive_eq, ← hk]
    rfl
  rw [receiveMessage, hreceive, deserialize_frame resp (by omega), Response.text]
  by_cases hd : resp.data = []
  · rw [if_neg (fun h => h.1 hd), if_pos hd, hd, List.append_nil, List.append_nil]
  · rw [if_pos ⟨hd, by simp⟩, if_neg hd, List.append_assoc]
    rfl

/-- **What a call shows.** Once something has come back to it, its command was carried out exactly
once, and what came back begins the response. The text that is shown is the one for this response
exactly if the response has no data, and its status is zero or its whole frame came back. When the
whole frame came back, the data is shown with a byte 0 behind it. -/
theorem shown_of_run (h : CliRun Wait serverFd n events) (hret : b ∈ retsTo s n.seen) :
    ∃ e, callsOf s n.world.executed = [e] ∧ callsBy s n.seen = [e.cmd] ∧ b <+: e.resp.frame ∧
      (receiveMessage (.bytes b) = some e.resp.text ↔
        e.resp.data = [] ∧ (e.resp.status = .RES_OK ∨ b = e.resp.frame)) ∧
      (b = e.resp.frame → receiveMessage (.bytes b) =
        some (e.resp.text ++ if e.resp.data = [] then [] else [0])) := by
  obtain ⟨hallowed, hw⟩ := pieces_of_cli h s b hret
  have hne := (hallowed b rfl).1
  obtain ⟨e, hlog, hcall, hframe⟩ := executed_of_cli h hne hw
  have hmem : e ∈ callsOf s n.world.executed := hlog ▸ List.mem_singleton_self e
  have hlen := length_resp_of_consistent (consistent_of_cli h) e (List.mem_of_mem_filter hmem)
  have hsize := recvBufferSize_eq
  have hmax := maxMsgFieldSize_eq
  refine ⟨e, hlog, hcall, hframe, shown_iff_of_piece hne hframe (by omega), ?_⟩
  rintro rfl
  exact shown_frame (by omega)

/-- The second call has its whole response, and shows a byte more. -/
theorem shown_of_ask_run :
    receiveMessage (.bytes (Response.frame ⟨.RES_OK, ascii "v"⟩)) =
      some (Response.text ⟨.RES_OK, ascii "v"⟩ ++ [0]) := by
  obtain ⟨e, hlog, -, -, -, hwhole⟩ := shown_of_run (s := 1)
    (b := Response.frame ⟨.RES_OK, ascii "v"⟩) cliRun_cliAskDone (by decide)
  have hresp : e.resp = ⟨.RES_OK, ascii "v"⟩ := by
    have hresps : (callsOf 1 cliAskDone.world.executed).map Execution.resp =
        [⟨.RES_OK, ascii "v"⟩] := by decide +kernel
    exact (List.cons.inj ((congrArg (List.map Execution.resp) hlog).symm.trans hresps)).1
  rw [hresp] at hwhole
  exact hwhole rfl

end Byor.Optimized
