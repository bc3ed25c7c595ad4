import Byor.Foundations.Isolation
import Byor.Optimized.KeyOrder
import Byor.Optimized.Network

/-!
# Clients that use different keys

A client whose keys no other client uses does not notice the others. Whatever they send within the
limits, however their requests are interleaved with its own, it reads the replies it would read if
its commands were carried out alone on an empty map.
-/

namespace Byor.Optimized

open Wire
open KeyValue (reply)

/-- A command is an operation on its own key. -/
theorem local_keyValueObject : Local keyValueObject.apply keyOf where
  frame := local_doRequest.frame
  own := local_doRequest.own
  result gData gData' cmd key hkey hsame :=
    congrArg reply (local_doRequest.result gData gData' cmd key hkey hsame)
  result_none gData gData' cmd hnone :=
    congrArg reply (local_doRequest.result_none gData gData' cmd hnone)

theorem runAll_keyValueObject (gData : Store) (cmds : List (List Bytes)) :
    (runAll keyValueObject.apply gData cmds).2 = (runCommands gData cmds).2.map reply := by
  induction cmds generalizing gData with
  | nil => rfl
  | cons cmd cmds ih =>
    rw [runAll, ih, runCommands_cons]
    rfl

theorem runCommands_mono {cmds cmds' : List (List Bytes)} (h : cmds <+: cmds') (gData : Store) :
    (runCommands gData cmds).2 <+: (runCommands gData cmds').2 := by
  obtain ⟨later, rfl⟩ := h
  rw [runCommands_append]
  exact List.prefix_append ..

variable {Wait : World → List Event → Prop} {serverFd : Fd} {n : Network} {events : List Event}
  {s : ℕ}

/-- **Clients with different keys do not notice each other.** In every run with clients that keep to
the limits, if no other client has sent a command on a key of one's own, the replies the client has
read are the first of those it would get if its commands were carried out alone. -/
theorem isolated_of_network (h : NetworkRun Wait serverFd n events) {own : Bytes → Prop}
    (hown : ∀ msg ∈ callsBy s n.seen, ∀ key, keyOf msg = some key → own key)
    (hothers : ∀ s', s' ≠ s → ∀ msg ∈ callsBy s' n.seen, ∀ key, keyOf msg = some key →
      ¬ own key) :
    retsTo s n.seen <+: (runCommands Store.empty (callsBy s n.seen)).2.map reply := by
  have hlin := (networked_of_run h).linearizes
  have hcalls : ∀ e ∈ commandsOf n.world.executed, e.2 ∈ callsBy e.1 n.seen := by
    intro e he
    exact (hlin.calls e.1).subset
      (List.mem_map_of_mem (List.mem_filter.mpr ⟨he, decide_eq_true rfl⟩))
  have hsame : AgreeOn own keyValueObject.start Store.empty := fun _ _ => rfl
  have halone : ofPeer s (keyValueObject.results keyValueObject.start
      (commandsOf n.world.executed)) =
        (runAll keyValueObject.apply Store.empty (ofPeer s (commandsOf n.world.executed))).2 := by
    refine local_keyValueObject.ofPeer_results ?_ ?_ hsame
    · rintro e he rfl
      exact hown e.2 (hcalls e he)
    · intro e he hne
      exact hothers e.1 hne e.2 (hcalls e he)
  have hrets := hlin.rets s
  rw [halone, runAll_keyValueObject] at hrets
  exact hrets.trans ((runCommands_mono (hlin.calls s) Store.empty).map reply)

/-- The second client uses its key alone: the first has asked for another one. -/
theorem isolated_of_both_network :
    callsBy 0 bothAnswered.seen = [getMessage] ∧
      retsTo 1 bothAnswered.seen <+:
        (runCommands Store.empty [setMessage, askMessage]).2.map reply := by
  have hfirst : callsBy 0 bothAnswered.seen = [getMessage] := by decide
  have hsecond : callsBy 1 bothAnswered.seen = [setMessage, askMessage] := by decide
  have hown : ∀ msg ∈ callsBy 1 bothAnswered.seen, ∀ key, keyOf msg = some key →
      key = ascii "j" := by
    rw [hsecond]
    intro msg hmsg key hkey
    rcases List.mem_pair.mp hmsg with rfl | rfl <;> exact (Option.some.inj hkey).symm
  have hothers : ∀ s', s' ≠ 1 → ∀ msg ∈ callsBy s' bothAnswered.seen, ∀ key,
      keyOf msg = some key → ¬ key = ascii "j" := by
    rintro (_ | _ | s') hne msg hmsg key hkey
    · rw [hfirst] at hmsg
      obtain rfl := List.mem_singleton.mp hmsg
      obtain rfl := Option.some.inj hkey
      decide
    · exact absurd rfl hne
    · have hnone : callsBy (s' + 2) bothAnswered.seen = [] := rfl
      rw [hnone] at hmsg
      cases hmsg
  refine ⟨hfirst, ?_⟩
  rw [← hsecond]
  exact isolated_of_network networkRun_bothAnswered hown hothers

end Byor.Optimized
