import Byor.Foundations.Reorder
import Byor.Optimized.Commands

/-!
# Only the order on each key matters

`do_request` reads and writes the map at the key of its command only (`local_doRequest`). So
commands on different keys, and commands that are not valid, may be reordered freely: every command
gets the same response, and the map ends up the same (`runCommands_reorder`).
-/

namespace Byor.Optimized

open Wire

/-- The key of a valid command: a `get` or a `del` of one argument, a `set` of two. -/
def keyOf : List Bytes → Option Bytes
  | [c, key] => if c = ascii "get" ∨ c = ascii "del" then some key else none
  | [c, key, _] => if c = ascii "set" then some key else none
  | _ => none

theorem keyOf_of_writeOf {cmd : List Bytes} {key : Bytes} {v : Option Bytes}
    (h : writeOf cmd = some (key, v)) : keyOf cmd = some key := by
  rcases writeOf_eq_some_iff.mp h with ⟨val, rfl, -⟩ | ⟨rfl, -⟩
  · simp [keyOf]
  · simp [keyOf]

/-- What a command leaves at a key, by what it writes. -/
theorem doRequest_fst_apply (gData : Store) (cmd : List Bytes) (resp : Response) (key : Bytes) :
    (doRequest gData cmd resp).1 key =
      match writeOf cmd with
      | some (k, v) => if key = k then v else gData key
      | none => gData key := by
  rw [doRequest_store]
  cases writeOf cmd with
  | none => rfl
  | some e => simp [applyWrites, Function.update_apply]

/-- The response to a command depends on the value at its key only. -/
theorem doRequest_snd_congr {gData gData' : Store} {cmd : List Bytes}
    (h : ∀ key, keyOf cmd = some key → gData key = gData' key) (resp : Response) :
    (doRequest gData cmd resp).2 = (doRequest gData' cmd resp).2 := by
  match cmd with
  | [] | [_] | _ :: _ :: _ :: _ :: _ => rfl
  | [c, key] =>
    simp only [doRequest]
    by_cases hget : c = ascii "get"
    · rw [if_pos hget, if_pos hget, h key (by simp [keyOf, hget])]
      cases gData' key <;> rfl
    · rw [if_neg hget, if_neg hget]
      split <;> rfl
  | [c, key, val] =>
    simp only [doRequest]
    split <;> rfl

/-- **A command is a step on its own key.** -/
theorem local_doRequest : Local (fun gData cmd => doRequest gData cmd .init) keyOf where
  frame gData cmd key hkey := by
    rw [doRequest_fst_apply]
    cases hw : writeOf cmd with
    | none => rfl
    | some e =>
      have hne : key ≠ e.1 := by
        rintro rfl
        exact hkey (keyOf_of_writeOf hw)
      simp [hne]
  own gData gData' cmd key _ hsame := by
    rw [doRequest_fst_apply, doRequest_fst_apply, hsame]
  result gData gData' cmd key hkey hsame := by
    apply doRequest_snd_congr
    intro k hk
    rw [hkey] at hk
    rwa [← Option.some.inj hk]
  result_none gData gData' cmd hnone := by
    apply doRequest_snd_congr
    intro k hk
    rw [hnone] at hk
    cases hk

theorem runCommands_eq_runAll (gData : Store) (cmds : List (List Bytes)) :
    runCommands gData cmds = runAll (fun gData cmd => doRequest gData cmd .init) gData cmds := by
  induction cmds generalizing gData with
  | nil => rfl
  | cons cmd cmds ih => rw [runCommands_cons, runAll, ih]

/-- **Only the order on each key matters.** If one sequence of commands is a rearrangement of the
other that keeps the order of the valid commands on each key, every command gets the same response
in both, and the map ends up the same. -/
theorem runCommands_reorder {cmds cmds' : List (List Bytes)}
    {σ : Fin cmds.length ≃ Fin cmds'.length} (h : Reorders keyOf cmds cmds' σ) (gData : Store) :
    (runCommands gData cmds).1 = (runCommands gData cmds').1 ∧
      ∀ i : Fin cmds.length, ∃ resp, (runCommands gData cmds).2[(i : ℕ)]? = some resp ∧
        (runCommands gData cmds').2[(σ i : ℕ)]? = some resp := by
  obtain ⟨hstore, hresp⟩ := local_doRequest.runAll_reorder h gData
  rw [← runCommands_eq_runAll, ← runCommands_eq_runAll] at hstore hresp
  refine ⟨hstore, fun i => ?_⟩
  have hi : (i : ℕ) < (runCommands gData cmds).2.length := by
    rw [length_runCommands]
    exact i.isLt
  exact ⟨_, List.getElem?_eq_getElem hi, (hresp i).symm.trans (List.getElem?_eq_getElem hi)⟩

/-- A `set` and a `get` of different keys, one after the other. -/
def setThenGet : List (List Bytes) :=
  [[ascii "set", ascii "k", ascii "v"], [ascii "get", ascii "x"]]

/-- The same two commands the other way round. -/
def getThenSet : List (List Bytes) :=
  [[ascii "get", ascii "x"], [ascii "set", ascii "k", ascii "v"]]

theorem runCommands_reorder_setThenGet :
    (runCommands Store.empty setThenGet).1 = (runCommands Store.empty getThenSet).1 ∧
      ∀ i : Fin setThenGet.length, ∃ resp,
        (runCommands Store.empty setThenGet).2[(i : ℕ)]? = some resp ∧
          (runCommands Store.empty getThenSet).2[(Fin.rev i : ℕ)]? = some resp := by
  have hkeys : ∀ i j : Fin setThenGet.length, i < j →
      keyOf setThenGet[i] ≠ keyOf setThenGet[j] := by decide
  have hreorders : Reorders keyOf setThenGet getThenSet (Fin.revPerm (n := 2)) :=
    { same := by decide
      mono := fun i j k hij hi hj => absurd (hi.trans hj.symm) (hkeys i j hij) }
  exact runCommands_reorder hreorders Store.empty

end Byor.Optimized
