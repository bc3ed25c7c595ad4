import Byor.Optimized.Handlers

/-!
# Teardown of the epoll wrapper

The destructor of `EpollWrapper` (`include/epollwrapper.h`) calls `remove_conn` for each entry of
`connections_` in a loop over that map. An iterator of `std::unordered_map` is invalid once the
entry it stands on is erased, and the loop advances from that entry.

* `run_destructor_cons`: with an entry in the table, the loop removes the first one and then
  advances from it.
* `tornDown_iff`: the destructor tears down an empty table only.
-/

namespace Byor.Optimized

namespace Teardown

/-- How the destructor can leave the ground the source stands on. -/
inductive Fault
  /-- The loop advances from an entry that was erased. -/
  | erasedEntry
  deriving DecidableEq, Repr

/-- The state of the destructor: the wrapper and the kernel, the entries its loop has stood on, and
whether `epoll_fd_` was closed. -/
structure State where
  world : World
  visited : List Fd
  epollClosed : Bool

/-- A program over the wrapper that is torn down. -/
abbrev Destructor := EStateM Fault State

/-- The iterator stands on the entry of `fd`, which is bound to the loop's variable. -/
def visit (fd : Fd) : Destructor Unit := modify fun s => { s with visited := s.visited ++ [fd] }

/-- `remove_conn` -/
def removeConn (fd : Fd) : Destructor Unit :=
  modify fun s => { s with world := worldOf ((Optimized.removeConn fd).run s.world) }

/-- The iterator is advanced from the entry of `fd`. -/
def advance (fd : Fd) : Destructor Unit := do
  if ((← get).world.connections fd).isNone then throw .erasedEntry

/-- `for (auto& [fd, _] : connections_) remove_conn(fd);` with the entries the iterator still has
before it. -/
def removeAll : List Fd → Destructor Unit
  | [] => pure ()
  | fd :: later => do
    visit fd
    removeConn fd
    advance fd
    removeAll later

/-- `close(epoll_fd_)` -/
def closeEpoll : Destructor Unit := modify fun s => { s with epollClosed := true }

/-- `~EpollWrapper` -/
def destructor (entries : List Fd) : Destructor Unit := do
  removeAll entries
  closeEpoll

end Teardown

open Teardown

/-- An order in which `connections_` may be iterated over. -/
structure IterationOrder (w : World) where
  entries : List Fd
  nodup : entries.Nodup
  mem_iff : ∀ fd, fd ∈ entries ↔ (w.connections fd).isSome

/-- **The wrapper is torn down**: the loop ends and has stood on every entry once, no entry and no
registration is left, and `epoll_fd_` is closed. -/
def TornDown (w : World) (o : IterationOrder w) : Prop :=
  ∃ s, (destructor o.entries).run ⟨w, [], false⟩ = .ok () s ∧ s.visited = o.entries ∧
    (∀ fd, s.world.connections fd = none) ∧
    (∀ fd ∈ o.entries, s.world.kernel.interest fd = none) ∧ s.epollClosed = true

variable {w : World} {fd : Fd} {c : Connection} {later : List Fd}

/-- **The first turn of the loop** removes the entry it stands on, and then advances from it. -/
theorem run_destructor_cons (h : w.connections fd = some c) :
    (destructor (fd :: later)).run ⟨w, [], false⟩ = .error .erasedEntry
      ⟨{ w with
        connections := Function.update w.connections fd none
        kernel := w.kernel.epollDel fd }, [fd], false⟩ := by
  have herased : (Function.update w.connections fd none fd).isNone = true := by
    rw [Function.update_self]
    rfl
  simp only [destructor, removeAll, visit, Teardown.removeConn, advance, EStateM.run_bind,
    EStateM.run_modify, run_removeConn h, worldOf, EStateM.run_get, herased, if_true]
  rfl

/-- **When the wrapper is torn down**: exactly if no connection is in the table, whatever the order
of iteration. -/
theorem tornDown_iff (w : World) (o : IterationOrder w) :
    TornDown w o ↔ ∀ fd, w.connections fd = none := by
  obtain ⟨entries, hnodup, hmem⟩ := o
  cases entries with
  | nil =>
    have hempty : ∀ fd, w.connections fd = none := by
      intro fd
      by_contra hne
      exact absurd ((hmem fd).mpr (Option.isSome_iff_ne_none.mpr hne)) List.not_mem_nil
    exact iff_of_true ⟨_, rfl, rfl, hempty, nofun, rfl⟩ hempty
  | cons fd later =>
    obtain ⟨c, hc⟩ := Option.isSome_iff_exists.mp ((hmem fd).mp List.mem_cons_self)
    constructor
    · rintro ⟨s, hrun, -⟩
      rw [run_destructor_cons hc] at hrun
      cases hrun
    · intro hempty
      rw [hempty fd] at hc
      cases hc

theorem mem_serverOnly_iff (fd : Fd) : fd ∈ [3] ↔ ((World.init 3).connections fd).isSome := by
  by_cases he : fd = 3
  · subst he
    exact iff_of_true List.mem_cons_self rfl
  · have hnone : (World.init 3).connections fd = none := Function.update_of_ne he ..
    rw [hnone, List.mem_singleton]
    exact iff_of_false he nofun

/-- The table with the listening socket alone. -/
def serverOnly : IterationOrder (World.init 3) :=
  ⟨[3], List.pairwise_singleton _ 3, mem_serverOnly_iff⟩

/-- A server without clients is not torn down. -/
theorem serverOnly_not_tornDown : ¬ TornDown (World.init 3) serverOnly := by
  rintro ⟨s, hrun, -⟩
  rw [serverOnly, run_destructor_cons (c := ⟨3, [], []⟩) rfl] at hrun
  cases hrun

end Byor.Optimized
