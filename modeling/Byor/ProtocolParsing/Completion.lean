import Mathlib.Algebra.BigOperators.Group.Finset.Basic
import Mathlib.Algebra.Order.BigOperators.Group.Finset
import Mathlib.Data.Fintype.Card
import Mathlib.Data.List.TakeWhile
import Byor.ProtocolParsing.LockStep

/-!
# Every request is answered

If no call fails, the clients and the server cannot keep each other waiting: every run is finite,
whatever the order of the calls, and it can only end when every client has exited, with all its
texts answered up to the first that is too long.

* `System.progress`: what has been done. Every call adds to it.
* `completes_of_run`: how long a run is at most, and where it ends.
-/

namespace Byor.ProtocolParsing

open Wire
open Optimized (Bytes ascii lenFieldSize)
open EventLoop (WriteAll frames frames_append)

variable {ι : Type}

/-- The runs in which no call fails, with the number of calls. -/
inductive Run [DecidableEq ι] (texts : ι → List CString) : ℕ → System ι → Prop
  | start : Run texts 0 (System.init texts)
  | step {k s s'} (h : Run texts k s) (hs : Step s s') : Run texts (k + 1) s'

/-- The texts before the first that is too long. -/
def conforming (texts : List CString) : List CString :=
  texts.takeWhile fun text => text.bytes.length ≤ maxMsgFieldSize

/-- With what a client of these texts exits. -/
def exitCode (texts : List CString) : ℕ :=
  if ∀ text ∈ texts, text.bytes.length ≤ maxMsgFieldSize then 0 else 1

variable {texts : ι → List CString} {s s' : System ι} {i : ι} {k : ℕ}

theorem inv_of_steps [DecidableEq ι] (h : Run texts k s) : Inv False texts s := by
  induction h with
  | start => exact inv_init texts
  | step _ hs ih => exact ih.step hs

/-! ## What has been done -/

/-- The bytes that have passed over a connection. -/
def Link.moved (l : Link) : ℕ :=
  l.sent.length + l.received.length + l.written.length + l.got.length

/-- How far the connections have got: `connect`, `accept` and `close`. -/
def System.turns (s : System ι) : ℕ :=
  3 * s.closed.length + 2 * s.conn.toList.length + s.backlog.length

/-- What has been done. -/
def System.progress [Fintype ι] (s : System ι) : ℕ := ∑ i, (s.link i).moved + s.turns

theorem turns_of_conn {o : OneRequest} (h : s.conn = some (i, o)) :
    s.turns = 3 * s.closed.length + 2 + s.backlog.length := by
  rw [System.turns, h]
  rfl

/-- The server keeps the connection, or it closes it. -/
theorem le_turns_serve (s : System ι) (i : ι) (o : OneRequest) :
    3 * s.closed.length + 2 + s.backlog.length ≤ (s.serve i o).turns := by
  unfold System.serve
  split
  · split
    · exact Nat.le_refl _
    · simp only [System.turns, List.length_append, List.length_singleton, Option.toList_none,
        List.length_nil]
      omega
  · exact Nat.le_refl _

/-- One connection has got further. -/
theorem progress_lt_of_turns [Fintype ι] (hlink : ∀ j, (s'.link j).moved = (s.link j).moved)
    (hturns : s.turns < s'.turns) : s.progress < s'.progress :=
  Nat.add_lt_add_of_le_of_lt (Finset.sum_le_sum fun j _ => (hlink j).ge) hturns

section Progress

variable [DecidableEq ι]

theorem connect_moved (s : System ι) (i j : ι) :
    ((s.connect i).link j).moved = (s.link j).moved := by
  change (Function.update s.link i _ j).moved = _
  rw [Function.update_apply]
  split
  · rename_i hj
    rw [hj]
    rfl
  · rfl

variable [Fintype ι]

/-- More has passed over one connection. -/
theorem progress_lt_of_moved {l : Link} (hlink : s'.link = Function.update s.link i l)
    (hmoved : (s.link i).moved < l.moved) (hturns : s.turns ≤ s'.turns) :
    s.progress < s'.progress := by
  refine Nat.add_lt_add_of_lt_of_le (Finset.sum_lt_sum (fun j _ => ?_) ?_) hturns
  · rw [hlink, Function.update_apply]
    split
    · rename_i hj
      rw [hj]
      exact Nat.le_of_lt hmoved
    · exact Nat.le_refl _
  · refine ⟨i, Finset.mem_univ i, ?_⟩
    rwa [hlink, Function.update_self]

/-- **Every call does something**, if the server closes no connection of a client that runs. -/
theorem Step.progress_lt (h : Inv False texts s) (hs : Step s s') : s.progress < s'.progress := by
  cases hs with
  | connect i hp =>
    refine progress_lt_of_turns (connect_moved s i) ?_
    simp only [System.turns, System.connect, System.setLink, List.length_append,
      List.length_singleton]
    omega
  | clientWrite i hp hn hle =>
    refine progress_lt_of_moved rfl ?_ (Nat.le_refl _)
    simp only [Link.moved, List.length_append, List.length_take]
    omega
  | clientRead i hp hne hlen hb =>
    have hpos := List.length_pos_iff.mpr hne
    refine progress_lt_of_moved rfl ?_ (Nat.le_refl _)
    simp only [Link.moved, List.length_append]
    omega
  | clientEof i hp hclosed hall =>
    -- the client would have exited
    obtain ⟨asked, hok⟩ := h.link i
    have hnone : s.conn.map Prod.fst ≠ some i := by
      intro he
      have hnodup := (List.nodup_append.mp h.nodup).1
      rw [System.served, he] at hnodup
      exact (List.nodup_append.mp hnodup).2.2 i hclosed i (List.mem_singleton_self i) rfl
    have hstage : s.stage i = .closed := by
      unfold System.stage
      split
      · rename_i j o hconn
        have hj : j ≠ i := by
          rintro rfl
          exact hnone (by rw [hconn]; rfl)
        rw [if_neg hj, if_pos hclosed]
      · exact if_pos hclosed
    refine (hok.not_closed (fun code he => ?_) hstage id).elim
    rw [hp] at he
    cases he
  | @accept i rest hconn hbacklog =>
    refine progress_lt_of_turns (fun j => rfl) ?_
    simp only [System.turns, System.accept, hconn, hbacklog, List.length_cons, Option.toList_none,
      Option.toList_some, List.length_nil]
    omega
  | @serverRead i r b hconn hne hlen hb =>
    have hpos := List.length_pos_iff.mpr hne
    refine progress_lt_of_moved (System.serve_same _ i _).1 ?_
      (le_of_eq_of_le ?_ (le_turns_serve _ i _))
    · simp only [Link.moved, List.length_append]
      omega
    · exact turns_of_conn hconn
  | @serverEof i r code hconn hexit hall =>
    refine progress_lt_of_turns (fun j => by rw [System.serverStops, (s.serve_same i _).1]) ?_
    rw [turns_of_conn hconn]
    change _ < 3 * (s.closed ++ [i]).length + 0 + s.backlog.length
    rw [List.length_append, List.length_singleton]
    omega
  | @serverWrite i l n hconn hn hle =>
    refine progress_lt_of_moved (System.serve_same _ i _).1 ?_
      (le_of_eq_of_le ?_ (le_turns_serve _ i _))
    · simp only [Link.moved, List.length_append, List.length_take]
      omega
    · exact turns_of_conn hconn

theorem le_progress_of_run (h : Run texts k s) : k ≤ s.progress := by
  induction h with
  | start => exact Nat.zero_le _
  | step h hs ih => exact Nat.lt_of_le_of_lt ih (hs.progress_lt (inv_of_steps h))

end Progress

/-! ## How much there is to do -/

theorem frames_mono {msgs msgs' : List Bytes} (h : msgs <+: msgs') :
    (frames msgs).length ≤ (frames msgs').length := by
  obtain ⟨later, rfl⟩ := h
  rw [frames_append, List.length_append]
  exact Nat.le_add_right _ _

/-- At most, all texts of a client are sent, and all are answered. -/
def allMoved (texts : List CString) : ℕ :=
  2 * (frames (bytesOf texts)).length + 2 * (frames (replies texts.length)).length

/-- The most that can be done. -/
def bound [Fintype ι] (texts : ι → List CString) : ℕ :=
  ∑ i, allMoved (texts i) + 3 * Fintype.card ι

section Bound

variable [DecidableEq ι]

theorem moved_le (h : Inv False texts s) (i : ι) : (s.link i).moved ≤ allMoved (texts i) := by
  obtain ⟨asked, hok⟩ := h.link i
  have hcalled := hok.client.called
  have hsent := hok.client.sent_part.length_le
  have hall := frames_mono (Link.Ok.bytesOf_mono hcalled)
  have hreceived := hok.receives.length_le
  have hwritten := hok.server.written_part.length_le
  have hgot := hok.gets.length_le
  have hheard : (s.heard i).length ≤ (texts i).length := by
    have hle := (hok.hears.trans (Link.Ok.bytesOf_mono hcalled)).length_le
    rwa [bytesOf, List.length_map] at hle
  have hreplies : (frames (replies (s.heard i).length)).length ≤
      (frames (replies (texts i).length)).length := by
    refine frames_mono ⟨replies ((texts i).length - (s.heard i).length), ?_⟩
    rw [replies, replies, replies, ← List.replicate_add, Nat.add_sub_cancel' hheard]
  unfold Link.moved allMoved
  omega

theorem turns_le [Fintype ι] (h : Inv False texts s) : s.turns ≤ 3 * Fintype.card ι := by
  have hcard := h.nodup.length_le_card
  have hconn : (s.conn.map Prod.fst).toList.length = s.conn.toList.length := by
    cases s.conn <;> rfl
  rw [System.connected, System.served, List.length_append, List.length_append, hconn] at hcard
  unfold System.turns
  omega

theorem progress_le [Fintype ι] (h : Inv False texts s) : s.progress ≤ bound texts :=
  Nat.add_le_add (Finset.sum_le_sum fun i _ => moved_le h i) (turns_le h)

/-! ## Where a run can end -/

/-- Bytes that are under way can be read. -/
theorem exists_next {xs ys : Bytes} (h : xs <+: ys) (hne : xs ≠ ys) : ∃ b, xs ++ [b] <+: ys := by
  obtain ⟨zs, rfl⟩ := h
  cases zs with
  | nil => exact absurd (List.append_nil xs).symm hne
  | cons b zs =>
    refine ⟨b, zs, ?_⟩
    rw [List.append_assoc]
    rfl

/-- A client that runs and has no call to make waits for a reply, and has read all that was
written. -/
theorem waits_of_stuck (h : Inv False texts s) (hstuck : ∀ s', ¬ Step s s') {q : Query}
    (hp : (s.link i).client.process = .running q) :
    ∃ r, q = .read r ∧ (s.link i).got = (s.link i).written := by
  obtain ⟨asked, hok⟩ := h.link i
  have hclient := hok.client
  rw [Client.Ok, hp] at hclient
  cases q with
  | write l =>
    obtain ⟨-, -, ⟨hrest, -⟩, -⟩ := hclient
    exact (hstuck _ (.clientWrite i hp (List.length_pos_iff.mpr hrest) (Nat.le_refl _))).elim
  | read r =>
    obtain ⟨-, -, -, hwaits, -⟩ := hclient
    refine ⟨r, rfl, ?_⟩
    by_contra hne
    obtain ⟨b, hb⟩ := exists_next hok.gets hne
    exact hstuck _ (.clientRead i hp (List.cons_ne_nil b []) hwaits.missing_pos hb)
  | returned err => exact hclient.elim

/-- **The server and its client do not wait for each other.** -/
theorem conn_of_stuck (h : Inv False texts s) (hstuck : ∀ s', ¬ Step s s') : s.conn = none := by
  cases hconn : s.conn with
  | none => rfl
  | some p =>
    obtain ⟨i, o⟩ := p
    obtain ⟨asked, hok⟩ := h.link i
    rw [System.stage_of_conn hconn] at hok
    have hserver := hok.server
    cases o with
    | write l =>
      obtain ⟨⟨hrest, -⟩, -⟩ := hserver
      exact (hstuck _ (.serverWrite hconn (List.length_pos_iff.mpr hrest) (Nat.le_refl _))).elim
    | returned err => exact hserver.elim
    | read r =>
      obtain ⟨hwaits, hreceived, hwritten⟩ := hserver
      have hall : (s.link i).received = (s.link i).sent := by
        by_contra hne
        obtain ⟨b, hb⟩ := exists_next hok.receives hne
        exact hstuck _ (.serverRead hconn (List.cons_ne_nil b []) hwaits.missing_pos hb)
      have hclient := hok.client
      cases hp : (s.link i).client.process with
      | waiting => exact (hstuck _ (.connect i hp)).elim
      | exited code => exact (hstuck _ (.serverEof hconn hp hall)).elim
      | running q =>
        obtain ⟨r', rfl, hgot⟩ := waits_of_stuck h hstuck hp
        rw [Client.Ok, hp] at hclient
        obtain ⟨-, hcount, hsent, hwaits', hshown⟩ := hclient
        -- all queries were heard and all replies were shown, so there is no query to wait for
        rw [hall, hsent] at hreceived
        rw [hgot, hwritten] at hshown
        have hheard := (hwaits.all maxMsgFieldSize_lt hok.fits.length_le hok.hears
          hreceived.symm).1
        have hreplies := (hwaits'.all maxMsgFieldSize_lt
          (fun msg hmsg => length_le_of_mem_replies hmsg) hok.shows hshown.symm).1
        have hlen := congrArg List.length hheard
        have hlen' := congrArg List.length hreplies
        rw [bytesOf, List.length_map] at hlen
        rw [replies, List.length_replicate] at hlen'
        omega

theorem closed_of_stuck (h : Inv False texts s) (hstuck : ∀ s', ¬ Step s s') (i : ι) :
    i ∈ s.closed := by
  have hconn := conn_of_stuck h hstuck
  have hbacklog : s.backlog = [] := by
    cases hb : s.backlog with
    | nil => rfl
    | cons j rest => exact (hstuck _ (.accept hconn hb)).elim
  by_contra hnot
  refine hstuck _ (.connect i ((h.waiting i).mpr ?_))
  rw [System.connected, System.served, hconn, hbacklog]
  simpa using hnot

end Bound

/-- The texts of a client that has exited without a failure. -/
theorem conforming_of_exited {T asked : List CString} {c : Client} {code : ℕ} {sent got : Bytes}
    (h : c.Exited False T code asked sent got) (hfits : Fits asked) :
    conforming T = asked ∧ exitCode T = code := by
  obtain ⟨-, -, -, hcode⟩ := h.clean id
  have hall : ∀ text ∈ asked, decide (text.bytes.length ≤ maxMsgFieldSize) = true :=
    fun text htext => decide_eq_true (hfits text htext)
  rcases hcode with rfl | ⟨rfl, text, later, rfl, hlong⟩
  · obtain ⟨rfl, -⟩ := h.success rfl
    refine ⟨?_, if_pos hfits⟩
    rw [conforming, List.takeWhile_eq_self_iff]
    exact hall
  · constructor
    · rw [conforming, List.takeWhile_append_of_pos hall,
        List.takeWhile_cons_of_neg (by simpa using hlong), List.append_nil]
    · refine if_neg fun hshort => ?_
      have hle := hshort text (by simp)
      omega

/-- **Every request is answered.** In every run in which no call fails, whatever the order of the
calls and however they cut the streams, no more calls are made than `bound`. If none can be made,
every client has exited, the texts before the first that is too long were printed and answered, in
order, and its connection is closed. -/
theorem completes_of_run [DecidableEq ι] [Fintype ι] (h : Run texts k s) :
    k ≤ bound texts ∧ ((∀ s', ¬ Step s s') → ∀ i, i ∈ s.closed ∧
      s.heard i = bytesOf (conforming (texts i)) ∧
      (s.link i).client.shown = replies (conforming (texts i)).length ∧
      (s.link i).client.process = .exited (exitCode (texts i))) := by
  have hinv := inv_of_steps h
  refine ⟨(le_progress_of_run h).trans (progress_le hinv), fun hstuck i => ?_⟩
  have hclosed := closed_of_stuck hinv hstuck i
  have hstage : s.stage i = .closed := by
    rw [System.stage, conn_of_stuck hinv hstuck]
    exact if_pos hclosed
  obtain ⟨asked, hok⟩ := hinv.link i
  obtain ⟨⟨code, hexit⟩, hheard⟩ := hok.closed hstage id
  have hclient := hok.client
  rw [Client.Ok, hexit] at hclient
  obtain ⟨hconforming, hcode⟩ := conforming_of_exited hclient hok.fits
  obtain ⟨-, hcount, -⟩ := Client.Exited.clean hclient id
  refine ⟨hclosed, hconforming ▸ hheard, ?_, hcode ▸ hexit⟩
  rw [hconforming, ← hcount]
  exact List.eq_replicate_of_mem fun b hb => List.eq_of_mem_replicate (hok.shows.subset hb)

theorem run_of_steps [DecidableEq ι] {t : System ι} (h : Run texts k s)
    (ht : Relation.ReflTransGen Step s t) : ∃ k', Run texts k' t := by
  induction ht with
  | refl => exact ⟨k, h⟩
  | tail _ hs ih =>
    obtain ⟨k', h'⟩ := ih
    exact ⟨k' + 1, .step h' hs⟩

/-- The second client has its reply, and has written its second query. -/
def hoAsked : System Bool :=
  (((hoHeard.serverWrite true ⟨replyBuf, 0⟩ 10).clientRead true (.header [])
    [6, 0, 0, 0]).clientRead true (.payload 6 []) reply).clientWrite true ⟨wbuf hi, 0⟩ 6

/-- That one is answered too, and the connection closed. -/
def hoClosed : System Bool :=
  (((((hoAsked.serverRead true (.header []) [2, 0, 0, 0]).serverRead true (.payload 2 [])
    (ascii "hi")).serverWrite true ⟨replyBuf, 0⟩ 10).clientRead true (.header [])
      [6, 0, 0, 0]).clientRead true (.payload 6 []) reply).serverStops true

theorem step_hoAsked : Relation.ReflTransGen Step hoHeard hoAsked :=
  (((Relation.ReflTransGen.single (.serverWrite rfl (by decide) (by decide))).tail
    (.clientRead true rfl (by decide) (by decide) (by decide))).tail
      (.clientRead true rfl (by decide) (by decide) (by decide))).tail
        (.clientWrite true rfl (by decide) (by decide))

theorem step_hoClosed : Relation.ReflTransGen Step hoAsked hoClosed :=
  (((((Relation.ReflTransGen.single (.serverRead rfl (by decide) (by decide) (by decide))).tail
    (.serverRead rfl (by decide) (by decide) (by decide))).tail
      (.serverWrite rfl (by decide) (by decide))).tail
        (.clientRead true rfl (by decide) (by decide) (by decide))).tail
          (.clientRead true rfl (by decide) (by decide) (by decide))).tail (.serverEof rfl rfl rfl)

theorem exited_hoClosed : ∀ i, (hoClosed.link i).client.process = .exited 0
  | false => rfl
  | true => rfl

theorem stuck_hoClosed (s' : System Bool) : ¬ Step hoClosed s' := by
  intro hs
  have hconn : hoClosed.conn = none := rfl
  cases hs with
  | connect i hp => cases (exited_hoClosed i).symm.trans hp
  | clientWrite i hp => cases (exited_hoClosed i).symm.trans hp
  | clientRead i hp => cases (exited_hoClosed i).symm.trans hp
  | clientEof i hp => cases (exited_hoClosed i).symm.trans hp
  | accept _ hbacklog => cases hbacklog
  | serverRead h => cases hconn.symm.trans h
  | serverEof h => cases hconn.symm.trans h
  | serverWrite h => cases hconn.symm.trans h

theorem completes_of_ho_run : ∃ k ≤ bound hiTexts, Run hiTexts k hoClosed ∧
    hoClosed.heard false = bytesOf [hi] ∧ hoClosed.heard true = bytesOf [ho, hi] ∧
      (hoClosed.link true).client.shown = replies 2 ∧
        (hoClosed.link true).client.process = .exited 0 := by
  obtain ⟨k, hrun⟩ := run_of_steps .start (run_hoHeard.trans (step_hoAsked.trans step_hoClosed))
  obtain ⟨hle, hend⟩ := completes_of_run hrun
  obtain ⟨-, hfirst, -, -⟩ := hend stuck_hoClosed false
  obtain ⟨-, hheard, hshown, hexit⟩ := hend stuck_hoClosed true
  exact ⟨k, hle, hrun, hfirst, hheard, hshown, hexit⟩

end Byor.ProtocolParsing
