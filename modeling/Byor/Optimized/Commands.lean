import Byor.Foundations.WriteLog
import Byor.Optimized.Parse

/-!
# Commands and responses

`do_request` and `make_response` of the optimized server (`include/server.tpp`), and what a
sequence of commands does to the store.

* `runCommands` runs commands one after another and collects the responses.
* A command writes at most one key (`writeOf`); the store after a sequence is the log of its
  writes, run on the store before (`runCommands_store`).
-/

namespace Byor.Optimized

open Wire

/-- The bytes of a character string of the source. -/
def ascii (s : String) : Bytes := s.toList.map fun c => UInt8.ofNat c.toNat

/-- `enum class ResponseStatus : uint8_t` -/
inductive ResponseStatus
  | RES_OK
  | RES_ERR
  | RES_NX
  deriving DecidableEq, Repr

/-- The value of the enumerator, `static_cast<uint8_t>(status)`. -/
def ResponseStatus.toByte : ResponseStatus → UInt8
  | .RES_OK => 0
  | .RES_ERR => 1
  | .RES_NX => 2

theorem ResponseStatus.toByte_injective : Function.Injective toByte := by
  intro a b h
  cases a <;> cases b <;> first | rfl | exact absurd h (by decide)

/-- `struct Response` -/
structure Response where
  status : ResponseStatus
  data : Bytes
  deriving DecidableEq, Repr

theorem Response.eq_of_toByte {resp resp' : Response}
    (hstatus : resp.status.toByte = resp'.status.toByte) (hdata : resp.data = resp'.data) :
    resp = resp' := by
  cases resp
  cases resp'
  rw [Response.mk.injEq]
  exact ⟨ResponseStatus.toByte_injective hstatus, hdata⟩

/-- `Response resp{}` -/
def Response.init : Response := ⟨.RES_OK, []⟩

/-- `std::map<std::string, std::string> g_data` -/
abbrev Store := Bytes → Option Bytes

/-- The map a server starts with. -/
def Store.empty : Store := fun _ => none

/-- `do_request`: the map and the response after a command. -/
def doRequest (gData : Store) (cmd : List Bytes) (resp : Response) : Store × Response :=
  match cmd with
  | [c, key] =>
    if c = ascii "get" then
      match gData key with
      | none => (gData, { resp with status := .RES_NX })
      | some val => (gData, { resp with data := val, status := .RES_OK })
    else if c = ascii "del" then
      (Function.update gData key none, { resp with status := .RES_OK })
    else (gData, { resp with status := .RES_ERR })
  | [c, key, val] =>
    if c = ascii "set" then
      (Function.update gData key (some val),
        { resp with data := key ++ ascii " set to " ++ val, status := .RES_OK })
    else (gData, { resp with status := .RES_ERR })
  | _ => (gData, { resp with status := .RES_ERR })

/-- `make_response`: the outgoing buffer with the response behind it. The size is a `uint32_t`. -/
def makeResponse (resp : Response) (out : Bytes) : Bytes :=
  let respSize := (1 + resp.data.length) % 2 ^ 32
  ((out ++ leBytes 4 respSize) ++ [resp.status.toByte]) ++ resp.data

/-- The bytes `make_response` appends. -/
def Response.frame (resp : Response) : Bytes := makeResponse resp []

theorem makeResponse_eq (resp : Response) (out : Bytes) :
    makeResponse resp out = out ++ resp.frame := by
  simp only [Response.frame, makeResponse, List.nil_append, List.append_assoc]

/-- Below 4 GiB the frame of a response is a record whose payload is the status and the data. -/
theorem Response.frame_eq_record (resp : Response) (h : 1 + resp.data.length < 2 ^ 32) :
    resp.frame = record 4 (resp.status.toByte :: resp.data) := by
  have hlen : (resp.status.toByte :: resp.data).length = 1 + resp.data.length := by
    rw [List.length_cons, Nat.add_comm]
  rw [Response.frame, makeResponse, record, Nat.mod_eq_of_lt h, hlen]
  simp only [List.nil_append, List.append_assoc, List.singleton_append]

/-! ## Sequences of commands -/

/-- Run commands in order: the store after them and the response to each. -/
def runCommands (gData : Store) : List (List Bytes) → Store × List Response
  | [] => (gData, [])
  | cmd :: cmds =>
    let (gData', resp) := doRequest gData cmd .init
    let (gData'', resps) := runCommands gData' cmds
    (gData'', resp :: resps)

@[simp] theorem runCommands_nil (gData : Store) : runCommands gData [] = (gData, []) := rfl

theorem runCommands_cons (gData : Store) (cmd : List Bytes) (cmds : List (List Bytes)) :
    runCommands gData (cmd :: cmds) =
      ((runCommands (doRequest gData cmd .init).1 cmds).1,
        (doRequest gData cmd .init).2 :: (runCommands (doRequest gData cmd .init).1 cmds).2) := rfl

theorem runCommands_append (gData : Store) (cmds cmds' : List (List Bytes)) :
    runCommands gData (cmds ++ cmds') =
      ((runCommands (runCommands gData cmds).1 cmds').1,
        (runCommands gData cmds).2 ++ (runCommands (runCommands gData cmds).1 cmds').2) := by
  induction cmds generalizing gData with
  | nil => rfl
  | cons cmd cmds ih => rw [List.cons_append, runCommands_cons, ih, runCommands_cons]; rfl

@[simp] theorem length_runCommands (gData : Store) (cmds : List (List Bytes)) :
    (runCommands gData cmds).2.length = cmds.length := by
  induction cmds generalizing gData with
  | nil => rfl
  | cons cmd cmds ih => rw [runCommands_cons, List.length_cons, List.length_cons, ih]

/-- The store after a sequence is the fold of the commands over the store before. -/
theorem runCommands_fst (gData : Store) (cmds : List (List Bytes)) :
    (runCommands gData cmds).1 =
      cmds.foldl (fun gData cmd => (doRequest gData cmd .init).1) gData := by
  induction cmds generalizing gData with
  | nil => rfl
  | cons cmd cmds ih => rw [runCommands_cons, ih, List.foldl_cons]

/-! ## The log of writes -/

/-- The command names the key and asks for its value. -/
def IsGet (cmd : List Bytes) (key : Bytes) : Prop := cmd = [ascii "get", key]

/-- The command stores the value at the key. -/
def IsSet (cmd : List Bytes) (key val : Bytes) : Prop := cmd = [ascii "set", key, val]

/-- The command removes the key. -/
def IsDel (cmd : List Bytes) (key : Bytes) : Prop := cmd = [ascii "del", key]

/-- What a command writes: a key and what it leaves there. -/
def writeOf : List Bytes → Option (Bytes × Option Bytes)
  | [c, key] => if c = ascii "del" then some (key, none) else none
  | [c, key, val] => if c = ascii "set" then some (key, some val) else none
  | _ => none

theorem doRequest_store (gData : Store) (cmd : List Bytes) (resp : Response) :
    (doRequest gData cmd resp).1 = applyWrites gData (writeOf cmd).toList := by
  have hne : ascii "get" ≠ ascii "del" := by decide
  match cmd with
  | [] | [_] | _ :: _ :: _ :: _ :: _ => rfl
  | [c, key] =>
    simp only [doRequest, writeOf]
    by_cases hg : c = ascii "get"
    · subst hg
      rw [if_pos rfl, if_neg hne]
      split <;> rfl
    · rw [if_neg hg]
      split <;> rfl
  | [c, key, val] =>
    simp only [doRequest, writeOf]
    split <;> rfl

/-- **The store after a sequence of commands** is the log of its writes, run on the store before. -/
theorem runCommands_store (gData : Store) (cmds : List (List Bytes)) :
    (runCommands gData cmds).1 = applyWrites gData (cmds.filterMap writeOf) := by
  induction cmds generalizing gData with
  | nil => rfl
  | cons cmd cmds ih =>
    rw [runCommands_cons, ih, doRequest_store, ← applyWrites_append]
    cases h : writeOf cmd with
    | none => rw [List.filterMap_cons_none h]; rfl
    | some e => rw [List.filterMap_cons_some h]; rfl

theorem writeOf_eq_some_iff {cmd : List Bytes} {key : Bytes} {v : Option Bytes} :
    writeOf cmd = some (key, v) ↔
      (∃ val, IsSet cmd key val ∧ v = some val) ∨ (IsDel cmd key ∧ v = none) := by
  match cmd with
  | [] | [_] | _ :: _ :: _ :: _ :: _ => simp [writeOf, IsSet, IsDel]
  | [c, k] => simp only [writeOf, IsSet, IsDel]; grind
  | [c, k, w] => simp only [writeOf, IsSet, IsDel]; grind

/-- The response to a `get`, by what stands at the key. -/
def getResponse : Option Bytes → Response
  | none => ⟨.RES_NX, []⟩
  | some val => ⟨.RES_OK, val⟩

theorem doRequest_get (gData : Store) {cmd : List Bytes} {key : Bytes} (h : IsGet cmd key) :
    (doRequest gData cmd .init).2 = getResponse (gData key) := by
  subst h
  simp only [doRequest, if_pos]
  cases gData key <;> rfl

end Byor.Optimized
