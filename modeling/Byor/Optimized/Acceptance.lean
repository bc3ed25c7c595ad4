import Byor.Optimized.RoundTrip

/-!
# What the parser accepts

The parser of the optimized server, read backwards: what a payload must look like to be accepted.

* `parseReq_eq_true`: an accepted payload starts with the encoding of the command.
* `parseReq_accepts_iff`: it is accepted exactly then, and as one command only.
* `removed_eq_serialize_iff`: `parse_req` does not ask whether anything follows the last string. The
  frame `try_request` removes is the one a client serializes exactly if the sizes announced in the
  payload add up to its length.
-/

namespace Byor.Optimized

open Wire

variable {w w' : World} {conn : Fd} {c : Connection}

/-! ## The cursor -/

theorem readCmdLength_eq_some_iff {data rest : Bytes} {n : ℕ} :
    readCmdLength data = some (n, rest) ↔
      data = leBytes lenFieldSize n ++ rest ∧ n < 256 ^ lenFieldSize := by
  constructor
  · intro h
    unfold readCmdLength at h
    split at h
    · cases h
    rename_i hlen
    have hword : (data.take lenFieldSize).length = lenFieldSize := by
      rw [List.length_take]
      omega
    obtain ⟨rfl, rfl⟩ := Prod.mk.inj (Option.some.inj h)
    have hcopy := leBytes_leVal (data.take lenFieldSize)
    have hlt := leVal_lt (data.take lenFieldSize)
    rw [hword] at hcopy hlt
    rw [hcopy, List.take_append_drop]
    exact ⟨rfl, hlt⟩
  · rintro ⟨rfl, hn⟩
    exact readCmdLength_leBytes_append hn rest

theorem readCmdData_eq_some_iff {data out rest : Bytes} {n : ℕ} :
    readCmdData data n = some (out, rest) ↔ data = out ++ rest ∧ out.length = n := by
  constructor
  · intro h
    unfold readCmdData at h
    split at h
    · cases h
    rename_i hlen
    obtain ⟨rfl, rfl⟩ := Prod.mk.inj (Option.some.inj h)
    rw [List.take_append_drop, List.length_take]
    exact ⟨rfl, Nat.min_eq_left (Nat.le_of_not_lt hlen)⟩
  · rintro ⟨rfl, rfl⟩
    exact readCmdData_append out rest

/-- The strings the loop has read stand, each behind its length, at the front of the data. -/
theorem parseArgs_eq_true {n : ℕ} {data : Bytes} {parsedCmds cs : List Bytes}
    (h : parseArgs n data parsedCmds = (true, cs)) :
    ∃ msg rest, cs = parsedCmds ++ msg ∧ msg.length = n ∧
      (∀ s ∈ msg, s.length < 256 ^ lenFieldSize) ∧ data = encodeArgs msg ++ rest := by
  induction n generalizing data parsedCmds with
  | zero =>
    obtain ⟨-, rfl⟩ := Prod.mk.inj h
    exact ⟨[], data, by simp⟩
  | succ n ih =>
    rw [parseArgs] at h
    cases hlen : readCmdLength data with
    | none => simp [hlen] at h
    | some p =>
      obtain ⟨cmdLen, data₁⟩ := p
      obtain ⟨rfl, hlt⟩ := readCmdLength_eq_some_iff.mp hlen
      simp only [hlen] at h
      cases hdata : readCmdData data₁ cmdLen with
      | none => simp [hdata] at h
      | some q =>
        obtain ⟨out, data₂⟩ := q
        obtain ⟨rfl, rfl⟩ := readCmdData_eq_some_iff.mp hdata
        simp only [hdata] at h
        obtain ⟨msg, rest, rfl, rfl, hmsg, rfl⟩ := ih h
        refine ⟨out :: msg, rest, ?_, rfl, List.forall_mem_cons.mpr ⟨hlt, hmsg⟩, ?_⟩
        · simp
        · simp [encodeArgs_cons, record]

/-! ## The payload -/

/-- **An accepted payload** starts with the encoding of the command. -/
theorem parseReq_eq_true {data : Bytes} {cs : List Bytes} (h : parseReq data [] = (true, cs)) :
    cs.length ≤ maxCmdArgs ∧ (∀ s ∈ cs, s.length < 256 ^ lenFieldSize) ∧
      ∃ rest, data = encodePayload cs ++ rest := by
  unfold parseReq at h
  cases hlen : readCmdLength data with
  | none => simp [hlen] at h
  | some p =>
    obtain ⟨nstr, data₁⟩ := p
    obtain ⟨rfl, -⟩ := readCmdLength_eq_some_iff.mp hlen
    simp only [hlen] at h
    split at h
    · simp at h
    rename_i hmax
    obtain ⟨msg, rest, rfl, rfl, hmsg, rfl⟩ := parseArgs_eq_true h
    exact ⟨Nat.le_of_not_lt hmax, hmsg, rest, by rw [encodePayload, List.append_assoc]⟩

/-- The strings of an encoded list are no longer than the encoding. -/
theorem length_le_of_mem_encodePayload {msg : List Bytes} {s : Bytes} (h : s ∈ msg) :
    s.length ≤ (encodePayload msg).length := by
  have hle := List.single_le_sum (fun _ _ => Nat.zero_le _) _
    (List.mem_map_of_mem (f := fun s : Bytes => lenFieldSize + s.length) h)
  rw [length_encodePayload]
  omega

theorem parseReq_of_prefix {data : Bytes} {cs : List Bytes} (hdata : data.length ≤ maxMsgFieldSize)
    (hn : cs.length ≤ maxCmdArgs) (hpre : encodePayload cs <+: data) :
    parseReq data [] = (true, cs) := by
  obtain ⟨rest, rfl⟩ := hpre
  apply parseReq_encodePayload cs hn
  intro s hs
  apply lt_of_le_maxMsgFieldSize
  have hle := length_le_of_mem_encodePayload hs
  rw [List.length_append] at hdata
  omega

/-- **What `parse_req` accepts**: exactly the payloads that start with the encoding of a list of
strings that is not too long, which is then the command, and of one such list only. -/
theorem parseReq_accepts_iff (data : Bytes) (h : data.length ≤ maxMsgFieldSize) :
    (∀ cs, parseReq data [] = (true, cs) ↔ cs.length ≤ maxCmdArgs ∧ encodePayload cs <+: data) ∧
      (∀ cs cs', cs.length ≤ maxCmdArgs ∧ encodePayload cs <+: data →
        cs'.length ≤ maxCmdArgs ∧ encodePayload cs' <+: data → cs = cs') ∧
      ((¬ ∃ cs, cs.length ≤ maxCmdArgs ∧ encodePayload cs <+: data) →
        (parseReq data []).1 = false) := by
  have hiff : ∀ cs, parseReq data [] = (true, cs) ↔
      cs.length ≤ maxCmdArgs ∧ encodePayload cs <+: data := by
    intro cs
    constructor
    · intro hp
      obtain ⟨hn, -, rest, rfl⟩ := parseReq_eq_true hp
      exact ⟨hn, List.prefix_append ..⟩
    · rintro ⟨hn, hpre⟩
      exact parseReq_of_prefix h hn hpre
  refine ⟨hiff, ?_, ?_⟩
  · intro cs cs' hcs hcs'
    have heq := ((hiff cs).mpr hcs).symm.trans ((hiff cs').mpr hcs')
    exact (Prod.mk.inj heq).2
  · intro hnone
    cases hp : parseReq data [] with
    | mk ok cs =>
      cases ok with
      | false => rfl
      | true => exact absurd ⟨cs, (hiff cs).mp hp⟩ hnone

/-- A payload of two strings, the second of which is empty. -/
theorem parseReq_accepts_get_iff :
    (∀ cs, parseReq (encodePayload [ascii "get", []]) [] = (true, cs) ↔
        cs.length ≤ maxCmdArgs ∧ encodePayload cs <+: encodePayload [ascii "get", []]) ∧
      (∀ cs cs', cs.length ≤ maxCmdArgs ∧ encodePayload cs <+: encodePayload [ascii "get", []] →
        cs'.length ≤ maxCmdArgs ∧ encodePayload cs' <+: encodePayload [ascii "get", []] →
          cs = cs') ∧
      ((¬ ∃ cs, cs.length ≤ maxCmdArgs ∧ encodePayload cs <+: encodePayload [ascii "get", []]) →
        (parseReq (encodePayload [ascii "get", []]) []).1 = false) :=
  parseReq_accepts_iff (encodePayload [ascii "get", []]) (by decide)

/-! ## The frame that is removed -/

/-- The bytes that `n` strings take, by the lengths announced for them. -/
def announcedArgs : ℕ → Bytes → ℕ
  | 0, _ => 0
  | n + 1, data =>
    lenFieldSize + leVal (data.take lenFieldSize) +
      announcedArgs n (data.drop (lenFieldSize + leVal (data.take lenFieldSize)))

/-- The bytes a payload takes, by the sizes announced in it: the number of strings, and the length
of each. -/
def announcedSize (payload : Bytes) : ℕ :=
  lenFieldSize + announcedArgs (leVal (payload.take lenFieldSize)) (payload.drop lenFieldSize)

theorem announcedArgs_encodeArgs (msg : List Bytes)
    (hmsg : ∀ s ∈ msg, s.length < 256 ^ lenFieldSize) (rest : Bytes) :
    announcedArgs msg.length (encodeArgs msg ++ rest) = (encodeArgs msg).length := by
  induction msg with
  | nil => rfl
  | cons s msg ih =>
    obtain ⟨hs, hmsg⟩ := List.forall_mem_cons.mp hmsg
    have hlen : leVal ((encodeArgs (s :: msg) ++ rest).take lenFieldSize) = s.length := by
      rw [encodeArgs_cons, record, List.append_assoc, List.append_assoc,
        leVal_take_leBytes_append hs]
    have hdrop : (encodeArgs (s :: msg) ++ rest).drop (lenFieldSize + s.length) =
        encodeArgs msg ++ rest := by
      rw [encodeArgs_cons, List.append_assoc]
      exact List.drop_left' (length_record lenFieldSize s)
    rw [List.length_cons, announcedArgs, hlen, hdrop, ih hmsg]
    simp [encodeArgs_cons]

theorem announcedSize_encodePayload {msg : List Bytes} (hn : msg.length ≤ maxCmdArgs)
    (hmsg : ∀ s ∈ msg, s.length < 256 ^ lenFieldSize) (rest : Bytes) :
    announcedSize (encodePayload msg ++ rest) = (encodePayload msg).length := by
  have hlt : msg.length < 256 ^ lenFieldSize := by
    simp only [maxCmdArgs, lenFieldSize] at hn ⊢
    omega
  have hlen : leVal ((encodePayload msg ++ rest).take lenFieldSize) = msg.length := by
    rw [encodePayload, List.append_assoc, leVal_take_leBytes_append hlt]
  have hdrop : (encodePayload msg ++ rest).drop lenFieldSize = encodeArgs msg ++ rest := by
    rw [encodePayload, List.append_assoc, List.drop_left' (length_leBytes ..)]
  rw [announcedSize, hlen, hdrop, announcedArgs_encodeArgs msg hmsg]
  simp [encodePayload]

/-- A payload is the encoding of the command in it exactly if the announced sizes fill it. -/
theorem eq_encodePayload_iff {payload : Bytes} {cmd : List Bytes}
    (h : parseReq payload [] = (true, cmd)) :
    payload = encodePayload cmd ↔ announcedSize payload = payload.length := by
  obtain ⟨hn, hmsg, rest, rfl⟩ := parseReq_eq_true h
  rw [announcedSize_encodePayload hn hmsg, List.length_append]
  constructor
  · intro he
    have hlen := congrArg List.length he
    rw [List.length_append] at hlen
    omega
  · intro he
    have hrest : rest = [] := List.length_eq_zero_iff.mp (by omega)
    rw [hrest, List.append_nil]

/-- A command that was accepted can be serialized again. -/
theorem serialize_of_accepted {payload : Bytes} {cmd : List Bytes}
    (hmax : payload.length ≤ maxMsgFieldSize) (h : parseReq payload [] = (true, cmd)) :
    serialize cmd = some (record lenFieldSize (encodePayload cmd)) := by
  obtain ⟨-, -, rest, rfl⟩ := parseReq_eq_true h
  apply serialize_eq
  rw [List.length_append, maxMsgFieldSize_eq] at hmax
  have h4 : lenFieldSize = 4 := rfl
  omega

/-- **When the removed frame is the serialized command**: exactly if the sizes announced in the
payload add up to its length. -/
theorem removed_eq_serialize_iff (hc : w.connections conn = some c)
    (hrun : (tryRequest conn).run w = .ok true w') :
    ∃ cmd frame c', parseReq (headPayload c.incoming) [] = (true, cmd) ∧
      serialize cmd = some frame ∧ w'.connections conn = some c' ∧
      c.incoming = c.incoming.take (lenFieldSize + dataLen c.incoming) ++ c'.incoming ∧
      (c.incoming.take (lenFieldSize + dataLen c.incoming) = frame ↔
        announcedSize (headPayload c.incoming) = dataLen c.incoming) := by
  have hs : StartsComplete c.incoming := by
    rcases run_tryRequest_cases hc with ⟨-, w₁, -, h⟩ | ⟨-, -, h⟩ | ⟨f, rest, hn, -⟩
    · simp [h] at hrun
    · simp [h] at hrun
    · exact (request_of_next hn).1
  have hlen := hs.length_headPayload
  rw [run_tryRequest_complete hc hs] at hrun
  split at hrun
  · rename_i hp
    obtain ⟨-, rfl⟩ := EStateM.Result.ok.inj hrun
    have hparse : parseReq (headPayload c.incoming) [] =
        (true, (parseReq (headPayload c.incoming) []).2) := Prod.ext hp rfl
    refine ⟨_, _, _, hparse, serialize_of_accepted (hlen ▸ hs.2.1) hparse,
      served_connections _ _, (List.take_append_drop ..).symm, ?_⟩
    rw [hs.take_eq, ← hlen, ← eq_encodePayload_iff hparse]
    constructor
    · intro he
      have hsize := congrArg List.length he
      rw [length_record, length_record] at hsize
      rw [record, record] at he
      exact (List.append_inj he (by simp)).2
    · intro he
      rw [← he]
  · simp at hrun

/-- A `get` with a byte behind its key. -/
def paddedGet : Bytes := record lenFieldSize (encodePayload [ascii "get", ascii "k"] ++ [7])

/-- The server when the padded frame has arrived. -/
def paddedWorld : World := (World.init 3).setConn 7 ⟨7, paddedGet, []⟩

theorem removed_eq_serialize_iff_paddedGet :
    ∃ cmd frame c', parseReq (headPayload paddedGet) [] = (true, cmd) ∧
      serialize cmd = some frame ∧
      (worldOf ((tryRequest 7).run paddedWorld)).connections 7 = some c' ∧
      paddedGet = paddedGet.take (lenFieldSize + dataLen paddedGet) ++ c'.incoming ∧
      (paddedGet.take (lenFieldSize + dataLen paddedGet) = frame ↔
        announcedSize (headPayload paddedGet) = dataLen paddedGet) :=
  removed_eq_serialize_iff (w := paddedWorld) (c := ⟨7, paddedGet, []⟩) rfl rfl

/-- The byte behind the key is removed with the frame, and no client serializes it. -/
theorem padded_frame_accepted :
    ¬ ∀ (w w' : World) (conn : Fd) (c : Connection) (cmd : List Bytes),
      w.connections conn = some c → (tryRequest conn).run w = .ok true w' →
        parseReq (headPayload c.incoming) [] = (true, cmd) →
          serialize cmd = some (c.incoming.take (lenFieldSize + dataLen c.incoming)) := by
  intro h
  exact absurd (h paddedWorld (worldOf ((tryRequest 7).run paddedWorld)) 7 ⟨7, paddedGet, []⟩
    [ascii "get", ascii "k"] rfl rfl (by decide)) (by decide)

end Byor.Optimized
