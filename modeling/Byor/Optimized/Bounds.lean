import Byor.Foundations.Access
import Byor.Optimized.TryRequest

/-!
# The request parser over addresses

`try_request`, `parse_req`, `read_cmd_length` and `read_cmd_data` of the optimized server once more,
now with the pointers, the 32-bit words and the `int` counter of the source, over a memory in which
the incoming buffer occupies `size` bytes from the address `base` on.

* `tryRequest_in_bounds`: no sum wraps around, every read and every position of the cursor lies
  inside the first frame, and so does what is erased.
* `run_tryRequest_eq_finish`: what the parser makes of the memory is what `try_request` makes of the
  bytes in it.
-/

namespace Byor.Optimized

open Wire Traced

namespace Address

/-! ## The parser -/

/-- `read_cmd_length`, with the pointers `data` and `end`: `out` and the advanced `data`. -/
def readCmdLength (mem : Memory) (data last : ℕ) : Traced (Option (ℕ × ℕ)) := do
  let stop ← add 64 data lenFieldSize
  if last < stop then pure none
  else do
    let out ← load mem data lenFieldSize
    let data ← advance 64 data lenFieldSize
    pure (some (leVal out, data))

/-- `read_cmd_data`. The string is assigned the range from `data` to `data + bytes_to_read`. -/
def readCmdData (mem : Memory) (data last bytesToRead : ℕ) : Traced (Option (Bytes × ℕ)) := do
  let stop ← add 64 data bytesToRead
  if last < stop then pure none
  else do
    let stop ← add 64 data bytesToRead
    let out ← load mem data (stop - data)
    let data ← advance 64 data bytesToRead
    pure (some (out, data))

/-- The loop of `parse_req` from the counter `i` on, at most `n` times round. The counter is an
`int`, which holds what is below `2 ^ 31`. -/
def parseArgs (mem : Memory) (last nstr : ℕ) : ℕ → ℕ → ℕ → List Bytes → Traced (Bool × List Bytes)
  | 0, _, _, parsedCmds => pure (true, parsedCmds)
  | n + 1, i, data, parsedCmds =>
    if i < nstr then do
      match ← readCmdLength mem data last with
      | none => pure (false, parsedCmds)
      | some (cmdLen, data) => do
        match ← readCmdData mem data last cmdLen with
        | none => pure (false, parsedCmds ++ [[]])
        | some (out, data) => do
          let i ← add 31 i 1
          parseArgs mem last nstr n i data (parsedCmds ++ [out])
    else pure (true, parsedCmds)

/-- `parse_req`. The loop ends after `nstr` turns (`yields_parseArgs`). -/
def parseReq (mem : Memory) (data size : ℕ) : Traced (Bool × List Bytes) := do
  let last ← add 64 data size
  match ← readCmdLength mem data last with
  | none => pure (false, [])
  | some (nstr, data) =>
    if maxCmdArgs < nstr then pure (false, [])
    else parseArgs mem last nstr (nstr + 1) 0 data []

/-- What `try_request` comes to. -/
inductive Outcome
  /-- It returns false. -/
  | refused
  /-- It closes the connection and returns false. -/
  | closed
  /-- It has parsed a command, and executes it. -/
  | parsed (cmd : List Bytes)
  deriving DecidableEq, Repr

/-- `try_request`, up to the call of `do_request` and with the erasure that follows it. -/
def tryRequest (mem : Memory) (base size : ℕ) : Traced Outcome :=
  if size < lenFieldSize then pure .refused
  else do
    let len := leVal (← load mem base lenFieldSize)
    if maxMsgFieldSize < len then pure .closed
    else do
      let frameSize ← add 32 lenFieldSize len
      if size < frameSize then pure .refused
      else do
        let request ← add 64 base lenFieldSize
        if request = 0 then pure .refused
        else do
          let (ok, cmd) ← parseReq mem request len
          if !ok then pure .refused
          else do
            let last ← add 64 base lenFieldSize
            let last ← add 64 last len
            erase base last
            pure (.parsed cmd)

/-! ## In bounds -/

/-- The access is in bounds for a buffer of `size` bytes at `base` that starts with a frame of
`frame` bytes: a sum does not wrap around, what is read or erased and the cursor stay inside the
frame, and what is read or erased lies inside the buffer. -/
def InFrame (base size frame : ℕ) : Access → Prop
  | .sum bits a b => a + b < 2 ^ bits
  | .load addr n => base ≤ addr ∧ addr + n ≤ base + frame ∧ addr + n ≤ base + size
  | .cursor addr => base ≤ addr ∧ addr ≤ base + frame
  | .erase first last =>
    base ≤ first ∧ first ≤ last ∧ last ≤ base + frame ∧ last ≤ base + size

section

variable {mem : Memory} {base size frame data n i m nstr : ℕ} {parsedCmds : List Bytes}

theorem yields_sum {bits a b : ℕ} (h : a + b < 2 ^ bits) :
    Yields (InFrame base size frame) (add bits a b) (a + b) := yields_add h h

theorem yields_readCmdLength (hframe : frame ≤ size) (hlow : base + size ≤ 2 ^ 47)
    (hdata : base ≤ data) (hlast : data ≤ base + frame) :
    Yields (InFrame base size frame) (readCmdLength mem data (base + frame))
      (if base + frame < data + lenFieldSize then none
        else some (leVal (bytesAt mem data lenFieldSize), data + lenFieldSize)) := by
  have h4 : lenFieldSize = 4 := rfl
  have hlt : data + lenFieldSize < 2 ^ 64 := by omega
  refine .bind (yields_sum hlt) ?_
  split
  · exact yields_pure _ _
  rename_i hstop
  refine .bind (yields_load ⟨hdata, by omega, by omega⟩) ?_
  exact .bind (yields_advance hlt hlt ⟨by omega, by omega⟩) (yields_pure _ _)

theorem yields_readCmdData (hframe : frame ≤ size) (hlow : base + size ≤ 2 ^ 47)
    (hdata : base ≤ data) (hlast : data ≤ base + frame) (hn : n < 2 ^ 32) :
    Yields (InFrame base size frame) (readCmdData mem data (base + frame) n)
      (if base + frame < data + n then none else some (bytesAt mem data n, data + n)) := by
  have hlt : data + n < 2 ^ 64 := by omega
  refine .bind (yields_sum hlt) ?_
  split
  · exact yields_pure _ _
  rename_i hstop
  refine .bind (yields_sum hlt) ?_
  rw [Nat.add_sub_cancel_left]
  refine .bind (yields_load ⟨hdata, by omega, by omega⟩) ?_
  exact .bind (yields_advance hlt hlt ⟨by omega, by omega⟩) (yields_pure _ _)

/-! ### The bytes between the cursor and the end -/

theorem readCmdLength_bytesAt (k : ℕ) :
    Optimized.readCmdLength (bytesAt mem data k) = if k < lenFieldSize then none
      else some (leVal (bytesAt mem data lenFieldSize),
        bytesAt mem (data + lenFieldSize) (k - lenFieldSize)) := by
  rw [Optimized.readCmdLength, length_bytesAt]
  split
  · rfl
  · rename_i h
    rw [take_bytesAt (Nat.le_of_not_lt h), drop_bytesAt (Nat.le_of_not_lt h)]

theorem readCmdData_bytesAt (k : ℕ) :
    Optimized.readCmdData (bytesAt mem data k) n = if k < n then none
      else some (bytesAt mem data n, bytesAt mem (data + n) (k - n)) := by
  rw [Optimized.readCmdData, length_bytesAt]
  split
  · rfl
  · rename_i h
    rw [take_bytesAt (Nat.le_of_not_lt h), drop_bytesAt (Nat.le_of_not_lt h)]

theorem leVal_bytesAt_lt (mem : Memory) (data : ℕ) :
    leVal (bytesAt mem data lenFieldSize) < 2 ^ 32 := by
  have hlt := leVal_lt (bytesAt mem data lenFieldSize)
  rwa [length_bytesAt, show 256 ^ lenFieldSize = 2 ^ 32 by decide] at hlt

/-- The loop stays in bounds, ends after `nstr` turns, and reads the bytes up to the end. -/
theorem yields_parseArgs (hframe : frame ≤ size) (hlow : base + size ≤ 2 ^ 47)
    (hnstr : nstr ≤ maxCmdArgs) (hi : i + m = nstr) (hn : m < n) (hdata : base ≤ data)
    (hlast : data ≤ base + frame) :
    Yields (InFrame base size frame) (parseArgs mem (base + frame) nstr n i data parsedCmds)
      (Optimized.parseArgs m (bytesAt mem data (base + frame - data)) parsedCmds) := by
  induction m generalizing n i data parsedCmds with
  | zero =>
    obtain ⟨n, rfl⟩ := Nat.exists_eq_succ_of_ne_zero (Nat.ne_zero_of_lt hn)
    rw [parseArgs, if_neg (by omega)]
    exact yields_pure _ _
  | succ m ih =>
    obtain ⟨n, rfl⟩ := Nat.exists_eq_succ_of_ne_zero (Nat.ne_zero_of_lt hn)
    rw [parseArgs, if_pos (by omega), Optimized.parseArgs, readCmdLength_bytesAt]
    refine .bind (yields_readCmdLength hframe hlow hdata hlast) ?_
    by_cases hlen : base + frame < data + lenFieldSize
    · rw [if_pos hlen, if_pos (by omega)]
      exact yields_pure _ _
    rw [if_neg hlen, if_neg (by omega)]
    have hcmd := leVal_bytesAt_lt mem data
    generalize leVal (bytesAt mem data lenFieldSize) = cmdLen at hcmd
    simp only [readCmdData_bytesAt]
    refine .bind (yields_readCmdData hframe hlow (by omega) (by omega) hcmd) ?_
    by_cases hstr : base + frame < data + lenFieldSize + cmdLen
    · rw [if_pos hstr, if_pos (by omega)]
      exact yields_pure _ _
    rw [if_neg hstr, if_neg (by omega)]
    have hint : i + 1 < 2 ^ 31 := by
      have hargs : maxCmdArgs = 200000 := rfl
      omega
    refine .bind (yields_sum hint) ?_
    have hrest : base + frame - data - lenFieldSize - cmdLen =
        base + frame - (data + lenFieldSize + cmdLen) := by omega
    rw [hrest]
    exact ih (by omega) (Nat.lt_of_succ_lt_succ hn) (by omega) (by omega)

theorem yields_parseReq (hframe : frame ≤ size) (hlow : base + size ≤ 2 ^ 47)
    (hdata : base ≤ data) (hlast : data + n = base + frame) :
    Yields (InFrame base size frame) (parseReq mem data n)
      (Optimized.parseReq (bytesAt mem data n) []) := by
  have hn : base + frame - data = n := by omega
  refine .bind (yields_sum (by omega)) ?_
  rw [hlast, Optimized.parseReq, readCmdLength_bytesAt]
  refine .bind (yields_readCmdLength hframe hlow hdata (by omega)) ?_
  by_cases hlen : base + frame < data + lenFieldSize
  · rw [if_pos hlen, if_pos (by omega)]
    exact yields_pure _ _
  rw [if_neg hlen, if_neg (by omega)]
  generalize leVal (bytesAt mem data lenFieldSize) = nstr
  by_cases hmax : maxCmdArgs < nstr
  · simp only [if_pos hmax]
    exact yields_pure _ _
  simp only [if_neg hmax]
  have hrest : n - lenFieldSize = base + frame - (data + lenFieldSize) := by omega
  rw [hrest]
  exact yields_parseArgs hframe hlow (by omega) (Nat.zero_add nstr) (Nat.lt_succ_self nstr)
    (by omega) (by omega)

end

/-! ## `try_request` -/

/-- What `try_request` comes to, by the bytes in the buffer. -/
def outcome (incoming : Bytes) : Outcome :=
  if incoming.length < lenFieldSize then .refused
  else if maxMsgFieldSize < dataLen incoming then .closed
  else if incoming.length < lenFieldSize + dataLen incoming then .refused
  else
    match Optimized.parseReq (headPayload incoming) [] with
    | (true, cmd) => .parsed cmd
    | (false, _) => .refused

variable {mem : Memory} {base size : ℕ}

/-- **`try_request` over addresses**: its accesses are in bounds, and what it comes to is determined
by the bytes in the buffer. -/
theorem yields_tryRequest (hlow : base + size ≤ 2 ^ 47) :
    Yields (InFrame base size (lenFieldSize + dataLen (bytesAt mem base size)))
      (tryRequest mem base size) (outcome (bytesAt mem base size)) := by
  have h4 : lenFieldSize = 4 := rfl
  have hmsg := maxMsgFieldSize_eq
  rw [outcome, length_bytesAt, tryRequest]
  by_cases hsize : size < lenFieldSize
  · rw [if_pos hsize, if_pos hsize]
    exact yields_pure _ _
  rw [if_neg hsize, if_neg hsize]
  have hlen : leVal (bytesAt mem base lenFieldSize) = dataLen (bytesAt mem base size) := by
    rw [dataLen, take_bytesAt (Nat.le_of_not_lt hsize)]
  refine .bind (yields_load ⟨Nat.le_refl _, by omega, by omega⟩) ?_
  rw [hlen]
  by_cases hmax : maxMsgFieldSize < dataLen (bytesAt mem base size)
  · rw [if_pos hmax, if_pos hmax]
    exact yields_pure _ _
  rw [if_neg hmax, if_neg hmax]
  refine .bind (yields_sum (by omega)) ?_
  by_cases hfull : size < lenFieldSize + dataLen (bytesAt mem base size)
  · rw [if_pos hfull, if_pos hfull]
    exact yields_pure _ _
  rw [if_neg hfull, if_neg hfull]
  refine .bind (yields_sum (by omega)) ?_
  -- the buffer starts at an address, so the pointer behind its header is not null
  rw [if_neg (by omega)]
  have hpayload : headPayload (bytesAt mem base size) =
      bytesAt mem (base + lenFieldSize) (dataLen (bytesAt mem base size)) := by
    rw [headPayload, drop_bytesAt (Nat.le_of_not_lt hsize), take_bytesAt (by omega)]
  rw [hpayload]
  refine .bind (yields_parseReq (by omega) hlow (by omega) (by omega)) ?_
  generalize Optimized.parseReq _ [] = parsed
  obtain ⟨ok, cmd⟩ := parsed
  cases ok with
  | false => exact yields_pure _ _
  | true =>
    refine .bind (yields_sum (by omega)) (.bind (yields_sum (by omega)) ?_)
    exact .bind (yields_erase ⟨Nat.le_refl _, by omega, by omega, by omega⟩) (yields_pure _ _)

/-- `try_request` behind the parser. -/
def finish (conn : Fd) (c : Connection) : Outcome → Handler Bool
  | .refused => return false
  | .closed => do
    handleCloseEvent conn
    return false
  | .parsed cmd => do
    let w ← get
    let (gData, resp) := doRequest w.gData cmd .init
    let call : Execution := ⟨w.kernel.socketOf c.fd, ⟨headPayload c.incoming, cmd⟩, resp⟩
    set { w with gData := gData, executed := w.executed ++ [call] }
    assign conn { c with
      incoming := c.incoming.drop (lenFieldSize + dataLen c.incoming)
      outgoing := makeResponse resp c.outgoing }
    return true

theorem run_tryRequest_eq_outcome {w : World} {conn : Fd} {c : Connection}
    (h : w.connections conn = some c) :
    (Optimized.tryRequest conn).run w = (finish conn c (outcome c.incoming)).run w := by
  have hlen : leVal (c.incoming.take lenFieldSize) = dataLen c.incoming := rfl
  have hpayload : (c.incoming.drop lenFieldSize).take (dataLen c.incoming) =
      headPayload c.incoming := rfl
  simp only [Optimized.tryRequest, EStateM.run_bind, run_deref h, hlen, hpayload, outcome]
  by_cases h4 : c.incoming.length < lenFieldSize
  · rw [if_pos h4, if_pos h4]
    rfl
  rw [if_neg h4, if_neg h4]
  by_cases hmax : maxMsgFieldSize < dataLen c.incoming
  · rw [if_pos hmax, if_pos hmax]
    rfl
  rw [if_neg hmax, if_neg hmax, add_mod_of_le_maxMsgFieldSize (Nat.le_of_not_lt hmax)]
  by_cases hfull : c.incoming.length < lenFieldSize + dataLen c.incoming
  · rw [if_pos hfull, if_pos hfull]
    rfl
  rw [if_neg hfull, if_neg hfull]
  generalize Optimized.parseReq (headPayload c.incoming) [] = parsed
  obtain ⟨ok, cmd⟩ := parsed
  cases ok with
  | false => rfl
  | true => rfl

/-- **The parser over addresses is the parser of the server**: for a connection whose incoming
buffer lies in the memory, `try_request` goes on with what it comes to there. -/
theorem run_tryRequest_eq_finish {w : World} {conn : Fd} {c : Connection}
    (h : w.connections conn = some c) (hc : c.incoming = bytesAt mem base size)
    (hlow : base + size ≤ 2 ^ 47) : (Optimized.tryRequest conn).run w =
      (finish conn c (tryRequest mem base size).value).run w := by
  rw [run_tryRequest_eq_outcome h, hc, (yields_tryRequest hlow).value]

/-- **Parsing stays in bounds.** For every content of an incoming buffer below `2 ^ 47`, no sum of
`try_request` and the functions it calls wraps around, every byte they read lies inside the first
frame and the buffer, the cursor does not pass the end of the frame, and the range that is erased
lies inside both. -/
theorem tryRequest_in_bounds (mem : Memory) (base size : ℕ) (hlow : base + size ≤ 2 ^ 47) :
    ∀ access ∈ (tryRequest mem base size).accesses,
      InFrame base size (lenFieldSize + dataLen (bytesAt mem base size)) access :=
  (yields_tryRequest hlow).accesses

/-- A request that announces a string of four gigabytes, at the address `4096`. -/
def longString : Memory :=
  memoryOf 4096 [8, 0, 0, 0, 1, 0, 0, 0, 255, 255, 255, 255]

theorem tryRequest_in_bounds_of_long_string :
    List.Forall (InFrame 4096 12 (lenFieldSize + dataLen (bytesAt longString 4096 12)))
      (tryRequest longString 4096 12).accesses :=
  List.forall_iff_forall_mem.mpr (tryRequest_in_bounds longString 4096 12 (by decide))

end Address

end Byor.Optimized
