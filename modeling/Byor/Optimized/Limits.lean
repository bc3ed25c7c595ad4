import Byor.Optimized.TryRequest

/-!
# The size limits are closed under serving

A request is accepted only within `MAX_MSG_FIELD_SIZE`, and what is stored came in with a request.
The answer to a `set` is longer than its key and its value, by less than the framing of the request
takes; so every answer stays within the limit of the client and its buffer.

* `StoreFits`: what holds of every pair in the map. Commands of accepted requests keep it
  (`StoreFits.doRequest`), and it bounds every answer (`StoreFits.length_resp_le`).
* `storeFits_of_reachable`: it holds in every run of the server.
* `limits_of_reachableStore`: the limits for every map that `try_request` can build up.
-/

namespace Byor.Optimized

open Wire

variable {w w' : World} {conn : Fd} {c : Connection} {gData : Store} {cmd : List Bytes}

/-! ## Requests within the limit -/

/-- An accepted request is at least as long as the encoding of its command. -/
theorem Request.Accepted.length_encodePayload_le {f : Request} (h : f.Accepted) :
    (encodePayload f.value).length ≤ maxMsgFieldSize := by
  obtain ⟨hmax, hp⟩ := h
  obtain ⟨-, -, rest, hrest⟩ := parseReq_eq_true hp
  rw [hrest, List.length_append] at hmax
  omega

/-- The framing of a `set` takes 19 bytes. -/
theorem length_encodePayload_set (key val : Bytes) :
    (encodePayload [ascii "set", key, val]).length = 19 + key.length + val.length := by
  have hset : (ascii "set").length = 3 := by decide
  simp only [length_encodePayload, lenFieldSize, List.map_cons, List.map_nil, List.sum_cons,
    List.sum_nil, hset]
  omega

/-! ## The map -/

/-- Every pair of the map fits a request. -/
def StoreFits (gData : Store) : Prop :=
  ∀ key val, gData key = some val → key.length + val.length ≤ maxMsgFieldSize - 19

theorem storeFits_empty : StoreFits Store.empty := fun _ _ h => nomatch h

theorem StoreFits.doRequest (h : StoreFits gData)
    (hcmd : (encodePayload cmd).length ≤ maxMsgFieldSize) (resp : Response) :
    StoreFits (doRequest gData cmd resp).1 := by
  intro key val hval
  by_cases hsame : (Optimized.doRequest gData cmd resp).1 key = gData key
  · exact h key val (hsame ▸ hval)
  rcases isSet_or_isDel_of_ne hsame with ⟨val', rfl⟩ | rfl
  · have hset : (Optimized.doRequest gData [ascii "set", key, val'] resp).1 key = some val' := by
      simp [Optimized.doRequest]
    obtain rfl := Option.some.inj (hset.symm.trans hval)
    rw [length_encodePayload_set] at hcmd
    omega
  · have hdel : (Optimized.doRequest gData [ascii "del", key] resp).1 key = none := by
      have hne : ascii "del" ≠ ascii "get" := by decide
      simp [Optimized.doRequest, hne]
    rw [hdel] at hval
    cases hval

/-- **The answer fits.** The margin is six bytes more than the header of the answer takes. -/
theorem StoreFits.length_resp_le (h : StoreFits gData)
    (hcmd : (encodePayload cmd).length ≤ maxMsgFieldSize) :
    1 + (Optimized.doRequest gData cmd .init).2.data.length ≤ maxMsgFieldSize - 10 := by
  have hmax := maxMsgFieldSize_eq
  have hsetTo : (ascii " set to ").length = 8 := by decide
  match cmd with
  | [] | [_] | _ :: _ :: _ :: _ :: _ =>
    simp only [Optimized.doRequest, Response.init, List.length_nil]
    omega
  | [c, key] =>
    simp only [Optimized.doRequest, Response.init]
    split
    · cases hval : gData key with
      | none =>
        simp only [List.length_nil]
        omega
      | some val =>
        have hfits := h key val hval
        simp only
        omega
    · split <;> simp only [List.length_nil] <;> omega
  | [c, key, val] =>
    simp only [Optimized.doRequest, Response.init]
    split
    · rename_i hc
      rw [hc, length_encodePayload_set] at hcmd
      simp only [List.length_append, hsetTo]
      omega
    · simp only [List.length_nil]
      omega

theorem StoreFits.runCommands (h : StoreFits gData) {fs : List Request}
    (hfs : ∀ f ∈ fs, f.Accepted) : StoreFits (runCommands gData (fs.map Record.value)).1 := by
  induction fs generalizing gData with
  | nil => exact h
  | cons f fs ih =>
    obtain ⟨hf, hfs⟩ := List.forall_mem_cons.mp hfs
    rw [List.map_cons, runCommands_cons]
    exact ih (h.doRequest hf.length_encodePayload_le _) hfs

/-- In every run of the server every stored pair fits a request. -/
theorem storeFits_of_reachable {Wait : World → List Event → Prop}
    {Serve : World → Event → SysResults → Prop} {serverFd : Fd} {events : List Event}
    (h : Reachable Wait Serve serverFd w events) : StoreFits w.gData := by
  have hc := consistent_of_reachable h
  have hcmds : w.executed.map Execution.cmd =
      (w.executed.map Execution.request).map Record.value := by
    rw [List.map_map]
    rfl
  rw [hc.store, hcmds]
  apply storeFits_empty.runCommands
  intro f hf
  obtain ⟨e, he, rfl⟩ := List.mem_map.mp hf
  exact hc.accepted e he

/-- In a history every response is within the limit of a message. -/
theorem length_resp_of_consistent (h : Consistent w) :
    ∀ e ∈ w.executed, 1 + e.resp.data.length ≤ maxMsgFieldSize - 10 := by
  intro e he
  obtain ⟨before, after, hsplit⟩ := List.append_of_mem he
  have hresp := Sequential.resp_eq (hsplit ▸ h.sequential)
  have hcmds : before.map Execution.cmd = (before.map Execution.request).map Record.value := by
    rw [List.map_map]
    rfl
  have hfits : StoreFits (runCommands Store.empty (before.map Execution.cmd)).1 := by
    rw [hcmds]
    refine storeFits_empty.runCommands fun f hf => ?_
    obtain ⟨e', he', rfl⟩ := List.mem_map.mp hf
    exact h.accepted e' (hsplit ▸ List.mem_append_left _ he')
  rw [hresp]
  exact hfits.length_resp_le (h.accepted e he).length_encodePayload_le

/-! ## Every map that can be built up -/

/-- The maps that calls of `try_request` build up from the empty one, whatever connections and
buffers they are made on. -/
inductive ReachableStore : Store → Prop
  | empty : ReachableStore Store.empty
  | serve {w w' : World} {conn : Fd} {c : Connection} (h : ReachableStore w.gData)
      (hc : w.connections conn = some c) (hrun : (tryRequest conn).run w = .ok true w') :
      ReachableStore w'.gData

/-- What `try_request` did when it returned true. -/
theorem tryRequest_eq_true (hc : w.connections conn = some c)
    (hrun : (tryRequest conn).run w = .ok true w') :
    ∃ f rest, f.Accepted ∧ f.payload = headPayload c.incoming ∧
      w' = w.served conn c [f] rest := by
  rcases run_tryRequest_cases hc with ⟨-, w₁, -, h⟩ | ⟨-, -, h⟩ | ⟨f, rest, hn, h⟩
  · simp [h] at hrun
  · simp [h] at hrun
  · obtain ⟨-, rfl⟩ := EStateM.Result.ok.inj (h.symm.trans hrun)
    obtain ⟨-, -, hf, -⟩ := request_of_next hn
    exact ⟨f, rest, (next_eq_some_iff.mp hn).1, congrArg Record.payload hf, rfl⟩

theorem ReachableStore.storeFits (h : ReachableStore gData) : StoreFits gData := by
  induction h with
  | empty => exact storeFits_empty
  | serve _ hc hrun ih =>
    obtain ⟨f, rest, hacc, -, rfl⟩ := tryRequest_eq_true hc hrun
    exact ih.doRequest hacc.length_encodePayload_le .init

/-- The client reads every answer within the limit as a response. -/
theorem deserialize_frame_ne_tooMany {resp : Response}
    (h : 1 + resp.data.length ≤ maxMsgFieldSize) (t : Bytes) :
    deserialize (resp.frame ++ t) ≠ some (ascii "Received too many bytes!") := by
  rw [deserialize_frame resp h t, Ne, Option.some_inj, eq_comm]
  intro htext
  have hhead := congrArg List.head? htext
  rw [show (statusText resp.status.toByte ++ _).head? = some 83 from rfl] at hhead
  exact absurd hhead (by decide)

/-- **The limits are closed under serving.** In every map that can be built up, every pair leaves
the 19 bytes that the framing of a `set` takes; and the size of the answer to every request accepted
then does not wrap around, is within the limit of the client, and the frame fits its buffer. -/
theorem limits_of_reachableStore (h : ReachableStore gData) :
    (∀ key val, gData key = some val → key.length + val.length ≤ maxMsgFieldSize - 19) ∧
      ∀ (w w' : World) (conn : Fd) (c : Connection), w.gData = gData →
        w.connections conn = some c → (tryRequest conn).run w = .ok true w' →
          ∃ cmd c' resp, parseReq (headPayload c.incoming) [] = (true, cmd) ∧
            resp = (doRequest gData cmd .init).2 ∧ w'.connections conn = some c' ∧
            c'.outgoing = makeResponse resp c.outgoing ∧
            (1 + resp.data.length) % 2 ^ 32 = 1 + resp.data.length ∧
            1 + resp.data.length ≤ maxMsgFieldSize ∧
            resp.frame.length = 4 + (1 + resp.data.length) ∧ resp.frame.length ≤ recvBufferSize ∧
            ∀ t, deserialize (resp.frame ++ t) ≠ some (ascii "Received too many bytes!") := by
  refine ⟨h.storeFits, ?_⟩
  rintro w w' conn c rfl hc hrun
  obtain ⟨f, rest, hacc, hpayload, rfl⟩ := tryRequest_eq_true hc hrun
  have hresp := h.storeFits.length_resp_le hacc.length_encodePayload_le
  have hmax := maxMsgFieldSize_eq
  have hbuffer := recvBufferSize_eq
  have hlen : (doRequest w.gData f.value .init).2.frame.length =
      4 + (1 + (doRequest w.gData f.value .init).2.data.length) := by
    rw [Response.frame_eq_record _ (by omega), length_record, List.length_cons]
    omega
  refine ⟨f.value, _, _, hpayload ▸ hacc.2, rfl, served_connections _ _, ?_,
    Nat.mod_eq_of_lt (by omega), by omega, hlen, by omega,
    deserialize_frame_ne_tooMany (by omega)⟩
  rw [makeResponse_eq]
  exact congrArg (c.outgoing ++ ·) (List.append_nil _)

/-- The server when the frame of a `set` has arrived. -/
def setWorld : World :=
  (World.init 3).setConn 7
    ⟨7, record lenFieldSize (encodePayload [ascii "set", ascii "k", ascii "v"]), []⟩

/-- The server when the `set` was served and the frame of a `get` has arrived. -/
def getWorld : World :=
  (worldOf ((tryRequest 7).run setWorld)).setConn 7
    ⟨7, record lenFieldSize (encodePayload [ascii "get", ascii "k"]), []⟩

theorem limits_of_reachableStore_set :
    (∀ key val, getWorld.gData key = some val →
        key.length + val.length ≤ maxMsgFieldSize - 19) ∧
      ∃ cmd c' resp,
        parseReq (headPayload (record lenFieldSize (encodePayload [ascii "get", ascii "k"]))) [] =
          (true, cmd) ∧
        resp = (doRequest getWorld.gData cmd .init).2 ∧
        (worldOf ((tryRequest 7).run getWorld)).connections 7 = some c' ∧
        c'.outgoing = makeResponse resp [] ∧
        (1 + resp.data.length) % 2 ^ 32 = 1 + resp.data.length ∧
        1 + resp.data.length ≤ maxMsgFieldSize ∧
        resp.frame.length = 4 + (1 + resp.data.length) ∧ resp.frame.length ≤ recvBufferSize ∧
        ∀ t, deserialize (resp.frame ++ t) ≠ some (ascii "Received too many bytes!") := by
  have hset : ReachableStore getWorld.gData :=
    @ReachableStore.serve setWorld (worldOf ((tryRequest 7).run setWorld)) 7 _ .empty rfl rfl
  obtain ⟨hfits, hresp⟩ := limits_of_reachableStore hset
  exact ⟨hfits, hresp getWorld _ 7 _ rfl rfl rfl⟩

end Byor.Optimized
