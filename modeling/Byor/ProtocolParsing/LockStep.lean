import Byor.ProtocolParsing.Link

/-!
# One request at a time

Whatever order the calls of the clients and the server come in, however they cut the streams and
whichever of them fail: the server answers one connection after another, and every client is at most
one request ahead of what has been answered.

* `Inv`: what holds of all connections at every moment.
* `lockstep_of_run`: what the server has printed, and what the clients have.
-/

namespace Byor.ProtocolParsing

open Wire
open Optimized (Bytes ascii lenFieldSize)
open EventLoop (WriteAll frames)

variable {ι : Type}

/-! ## The connections of the server -/

namespace System

/-- The connections the server has accepted, in order. -/
def served (s : System ι) : List ι := s.closed ++ (s.conn.map Prod.fst).toList

/-- The clients that have connected, in order. -/
def connected (s : System ι) : List ι := s.served ++ s.backlog

variable {s t : System ι} {i j : ι} {o o' : OneRequest}

theorem serve_same (s : System ι) (i : ι) (o : OneRequest) : (s.serve i o).link = s.link ∧
    (s.serve i o).said = s.said ∧ (s.serve i o).backlog = s.backlog := by
  unfold serve
  split
  · split <;> exact ⟨rfl, rfl, rfl⟩
  · exact ⟨rfl, rfl, rfl⟩

theorem served_serve (h : s.conn = some (i, o)) (o' : OneRequest) :
    (s.serve i o').served = s.served := by
  have hs : s.served = s.closed ++ [i] := by
    rw [served, h]
    rfl
  rw [hs]
  unfold serve
  split
  · split
    · rfl
    · exact List.append_nil _
  · rfl

variable [DecidableEq ι]

/-- Where the server is with the connection of a client. -/
def stage (s : System ι) (i : ι) : Stage :=
  match s.conn with
  | some (j, o) => if j = i then .serving o else if i ∈ s.closed then .closed else .fresh
  | none => if i ∈ s.closed then .closed else .fresh

/-- The messages of a client that the server has printed. -/
def heard (s : System ι) (i : ι) : List Bytes := ofPeer i s.said

theorem stage_of_conn (h : s.conn = some (i, o)) : s.stage i = .serving o := by
  rw [stage, h]
  exact if_pos rfl

theorem stage_serve_self (s : System ι) (i : ι) (o : OneRequest) :
    (s.serve i o).stage i = .of o := by
  cases o with
  | read r => exact if_pos rfl
  | write l => exact if_pos rfl
  | returned err =>
    unfold serve Stage.of
    dsimp only
    split
    · exact if_pos rfl
    · exact if_pos (List.mem_append_right _ (List.mem_singleton_self i))

theorem stage_serve_ne (h : s.conn = some (i, o)) (hj : j ≠ i) (o' : OneRequest) :
    (s.serve i o').stage j = s.stage j := by
  have hs : s.stage j = if j ∈ s.closed then .closed else .fresh := by
    rw [stage, h]
    exact if_neg (Ne.symm hj)
  rw [hs]
  cases o' with
  | read r => exact if_neg (Ne.symm hj)
  | write l => exact if_neg (Ne.symm hj)
  | returned err =>
    unfold serve
    dsimp only
    split
    · exact if_neg (Ne.symm hj)
    · simp [stage, hj]

end System

/-- **What holds of all connections at every moment.** -/
structure Inv [DecidableEq ι] (Failed : Prop) (texts : ι → List CString) (s : System ι) : Prop where
  link : ∀ i, ∃ asked, (s.link i).Ok Failed (texts i) (s.stage i) (s.heard i) asked
  nodup : s.connected.Nodup
  waiting : ∀ i, (s.link i).client.process = .waiting ↔ i ∉ s.connected
  oneByOne : OneByOne s.served s.said

variable [DecidableEq ι] {Failed : Prop} {texts : ι → List CString} {s s' t : System ι} {i : ι}

theorem inv_init (texts : ι → List CString) : Inv Failed texts (System.init texts) where
  link i := ⟨[], .init (texts i)⟩
  nodup := List.nodup_nil
  waiting _ := iff_of_true rfl List.not_mem_nil
  oneByOne := .nil

theorem next_process (c : Client) : c.next.process ≠ .waiting := by
  unfold Client.next
  split
  · nofun
  · split <;> nofun

theorem resume_process (c : Client) (q : Query) : (c.resume q).process ≠ .waiting := by
  unfold Client.resume
  split
  · split
    · exact next_process c
    · nofun
  · nofun

theorem Inv.connect (h : Inv Failed texts s) (hp : (s.link i).client.process = .waiting) :
    Inv Failed texts (s.connect i) := by
  have hnew := (h.waiting i).mp hp
  have hconnected : (s.connect i).connected = s.connected ++ [i] :=
    (List.append_assoc s.served s.backlog [i]).symm
  have hself : (s.connect i).link i = { s.link i with client := (s.link i).client.next } :=
    Function.update_self ..
  have hne : ∀ j, j ≠ i → (s.connect i).link j = s.link j :=
    fun j hj => Function.update_of_ne hj ..
  refine ⟨fun j => ?_, ?_, fun j => ?_, h.oneByOne⟩
  · change ∃ asked, ((s.connect i).link j).Ok Failed (texts j) (s.stage j) (s.heard j) asked
    by_cases hj : j = i
    · subst hj
      obtain ⟨asked, hok⟩ := h.link j
      rw [hself]
      exact hok.connect hp
    · rw [hne j hj]
      exact h.link j
  · rw [hconnected]
    exact List.Nodup.append h.nodup (List.nodup_singleton i) (by simpa using hnew)
  · rw [hconnected]
    by_cases hj : j = i
    · subst hj
      rw [hself]
      exact iff_of_false (next_process _) (by simp)
    · rw [hne j hj, h.waiting j]
      simp [hj]

/-- A call of a client. -/
theorem Inv.setLink (h : Inv Failed texts s) {k : Link}
    (hp : (s.link i).client.process ≠ .waiting) (hp' : k.client.process ≠ .waiting)
    (hk : ∃ asked, k.Ok Failed (texts i) (s.stage i) (s.heard i) asked) :
    Inv Failed texts (s.setLink i k) := by
  have hself : (s.setLink i k).link i = k := Function.update_self ..
  have hne : ∀ j, j ≠ i → (s.setLink i k).link j = s.link j :=
    fun j hj => Function.update_of_ne hj ..
  refine ⟨fun j => ?_, h.nodup, fun j => ?_, h.oneByOne⟩
  · change ∃ asked, ((s.setLink i k).link j).Ok Failed (texts j) (s.stage j) (s.heard j) asked
    by_cases hj : j = i
    · subst hj
      rw [hself]
      exact hk
    · rw [hne j hj]
      exact h.link j
  · change ((s.setLink i k).link j).client.process = .waiting ↔ j ∉ s.connected
    by_cases hj : j = i
    · subst hj
      rw [hself]
      exact iff_of_false hp' fun hnot => hp ((h.waiting j).mpr hnot)
    · rw [hne j hj]
      exact h.waiting j

/-- A call of the server, on the connection it has accepted. -/
theorem Inv.serve (h : Inv Failed texts s) {o o' : OneRequest} {k : Link} (xs : List Bytes)
    (hconn : s.conn = some (i, o)) (ht : t = { s.setLink i k with
      said := s.said ++ xs.map (i, ·) }) (hp : k.client = (s.link i).client)
    (hk : ∀ asked, (s.link i).Ok Failed (texts i) (.serving o) (s.heard i) asked →
      k.Ok Failed (texts i) (.of o') (s.heard i ++ xs) asked) :
    Inv Failed texts (t.serve i o') := by
  have htconn : t.conn = some (i, o) := ht ▸ hconn
  have hstage : ∀ j, t.stage j = s.stage j := fun j => ht ▸ rfl
  have hserved : t.served = s.served := ht ▸ rfl
  obtain ⟨hlink, hsaid, hbacklog⟩ := t.serve_same i o'
  have hconnected : (t.serve i o').connected = s.connected := by
    rw [System.connected, System.served_serve htconn, hbacklog, hserved, ht]
    rfl
  have hself : t.link i = k := ht ▸ Function.update_self ..
  have hne : ∀ j, j ≠ i → t.link j = s.link j := fun j hj => ht ▸ Function.update_of_ne hj ..
  refine ⟨fun j => ?_, hconnected ▸ h.nodup, fun j => ?_, ?_⟩
  · rw [System.heard, hlink, hsaid]
    by_cases hj : j = i
    · subst hj
      obtain ⟨asked, hok⟩ := h.link j
      rw [System.stage_of_conn hconn] at hok
      refine ⟨asked, ?_⟩
      have hheard : ofPeer j t.said = s.heard j ++ xs := by
        rw [ht, ofPeer_append, ofPeer_map_self]
        rfl
      rw [System.stage_serve_self, hself, hheard]
      exact hk asked hok
    · have hheard : ofPeer j t.said = s.heard j := by
        rw [ht, ofPeer_append, ofPeer_map_ne (Ne.symm hj), List.append_nil]
        rfl
      rw [System.stage_serve_ne htconn hj, hne j hj, hheard, hstage]
      exact h.link j
  · rw [hconnected, hlink, ← h.waiting j]
    by_cases hj : j = i
    · subst hj
      rw [hself, hp]
    · rw [hne j hj]
  · rw [System.served_serve htconn, hsaid, hserved, ht]
    have hlast : s.served = s.closed ++ [i] := by
      rw [System.served, hconn]
      rfl
    have hnodup := h.nodup
    have hone := h.oneByOne
    rw [System.connected, hlast] at hnodup
    rw [hlast] at hone ⊢
    exact hone.extend (by
      have hclosed := (List.nodup_append.mp (List.nodup_append.mp hnodup).1).2.2
      exact fun hmem => hclosed i hmem i (List.mem_singleton_self i) rfl) xs

theorem Inv.accept (h : Inv Failed texts s) {rest : List ι} (hconn : s.conn = none)
    (hbacklog : s.backlog = i :: rest) : Inv Failed texts (s.accept i rest) := by
  have hserved : s.served = s.closed := by
    rw [System.served, hconn]
    exact List.append_nil _
  have hconnected : (s.accept i rest).connected = s.connected := by
    rw [System.connected, System.connected, hserved, hbacklog]
    exact List.append_assoc s.closed [i] rest
  have hnew : i ∉ s.closed := by
    have hnodup := h.nodup
    rw [System.connected, hserved, hbacklog] at hnodup
    exact fun hmem => (List.nodup_append.mp hnodup).2.2 i hmem i List.mem_cons_self rfl
  have hstage : ∀ j, s.stage j = if j ∈ s.closed then .closed else .fresh := by
    intro j
    rw [System.stage, hconn]
  have hfresh : s.stage i = .fresh := by rw [hstage, if_neg hnew]
  refine ⟨fun j => ?_, hconnected ▸ h.nodup, fun j => ?_, ?_⟩
  · change ∃ asked, (s.link j).Ok Failed (texts j) ((s.accept i rest).stage j) (s.heard j) asked
    obtain ⟨asked, hok⟩ := h.link j
    refine ⟨asked, ?_⟩
    by_cases hj : j = i
    · subst hj
      rw [System.stage_of_conn rfl]
      exact (hfresh ▸ hok).accept
    · have hsame : (s.accept i rest).stage j = s.stage j := by
        rw [hstage]
        exact if_neg (Ne.symm hj)
      rw [hsame]
      exact hok
  · rw [hconnected]
    exact h.waiting j
  · obtain ⟨asked, hok⟩ := h.link i
    rw [hfresh] at hok
    have hone := h.oneByOne
    rw [hserved] at hone
    exact hone.concat hok.server.1

/-- The server closes the connection. -/
theorem Inv.serverStops (h : Inv Failed texts s) {o : OneRequest} (hconn : s.conn = some (i, o))
    (hstop : ¬ Failed → ∃ r code, o = .read r ∧ (s.link i).client.process = .exited code ∧
      (s.link i).received = (s.link i).sent) : Inv Failed texts (s.serverStops i) := by
  refine h.serve (k := s.link i) [] hconn ?_ rfl fun asked hok => ?_
  · rw [List.map_nil, List.append_nil, System.setLink, Function.update_eq_self]
  · rw [List.append_nil]
    exact hok.serverStops hstop

/-- **A call that does not fail.** -/
theorem Inv.step (h : Inv Failed texts s) (hs : Step s s') : Inv Failed texts s' := by
  have hrunning : ∀ {i q}, (s.link i).client.process = .running q →
      (s.link i).client.process ≠ .waiting := by
    intro i q hp he
    rw [hp] at he
    cases he
  cases hs with
  | connect i hp => exact h.connect hp
  | clientWrite i hp hn hle =>
    obtain ⟨asked, hok⟩ := h.link i
    exact h.setLink (hrunning hp) (resume_process _ _) ⟨asked, hok.clientWrite hp _⟩
  | clientRead i hp hne hlen hb =>
    obtain ⟨asked, hok⟩ := h.link i
    exact h.setLink (hrunning hp) (resume_process _ _) (hok.clientRead hp hne hlen hb)
  | clientEof => exact h
  | accept hconn hbacklog => exact h.accept hconn hbacklog
  | serverRead hconn hne hlen hb =>
    exact h.serve _ hconn rfl rfl fun asked hok => hok.serverRead hne hlen hb
  | serverEof hconn hexit hall =>
    exact h.serverStops hconn fun _ => ⟨_, _, rfl, hexit, hall⟩
  | @serverWrite i l n hconn hn hle =>
    refine h.serve (k := { s.link i with
      written := (s.link i).written ++ l.rest.take n }) [] hconn ?_ rfl fun asked hok => ?_
    · rw [List.map_nil, List.append_nil]
      rfl
    · rw [List.append_nil]
      exact hok.serverWrite n

/-- **A call that fails.** -/
theorem Inv.failure (h : Inv True texts s) (hf : Failure s s') : Inv True texts s' := by
  cases hf with
  | client i hp =>
    obtain ⟨asked, hok⟩ := h.link i
    refine h.setLink (fun he => ?_) (resume_process _ _) ⟨asked, hok.clientFails hp⟩
    rw [hp] at he
    cases he
  | server hconn => exact h.serverStops hconn fun hf => (hf trivial).elim

theorem inv_of_run
    (h : Relation.ReflTransGen (fun s s' => Step s s' ∨ Failure s s') (System.init texts) s) :
    Inv True texts s := by
  induction h with
  | refl => exact inv_init texts
  | tail _ hs ih =>
    rcases hs with hs | hf
    · exact ih.step hs
    · exact ih.failure hf

/-- **One request at a time.** In every run, whatever order the calls come in, however they cut the
streams, and whichever of them fail: the server has printed the first texts of each client, in
order, each as it was, and one connection after another. A client has shown nothing but replies, one
for each of its texts that the server has printed, but perhaps the last. If it has exited with `0`,
all its texts were printed and answered. -/
theorem lockstep_of_run
    (h : Relation.ReflTransGen (fun s s' => Step s s' ∨ Failure s s') (System.init texts) s) :
    s.served.Nodup ∧ OneByOne s.served s.said ∧
      ∀ i, s.heard i <+: bytesOf (texts i) ∧ ∃ n, (s.link i).client.shown = replies n ∧
        n ≤ (s.heard i).length ∧ (s.heard i).length ≤ n + 1 ∧
        ((s.link i).client.process = .exited 0 →
          s.heard i = bytesOf (texts i) ∧ n = (texts i).length) := by
  have hinv := inv_of_run h
  refine ⟨(List.nodup_append.mp hinv.nodup).1, hinv.oneByOne, fun i => ?_⟩
  obtain ⟨asked, hok⟩ := hinv.link i
  have hshown := hok.shows.length_le
  have hheard := hok.hears.length_le
  have hasked := hok.client.length_asked_le
  rw [replies, List.length_replicate] at hshown
  rw [bytesOf, List.length_map] at hheard
  refine ⟨hok.hears.trans (Link.Ok.bytesOf_mono hok.client.called),
    (s.link i).client.shown.length, ?_, hshown, hheard.trans hasked, fun hexit => ?_⟩
  · exact List.eq_replicate_of_mem fun b hb => List.eq_of_mem_replicate (hok.shows.subset hb)
  · have hclient := hok.client
    rw [Client.Ok, hexit] at hclient
    obtain ⟨rfl, hcount⟩ := Client.Exited.success hclient rfl
    refine ⟨hok.hears.eq_of_length ?_, hcount⟩
    rw [bytesOf, List.length_map]
    omega

/-- A text. -/
def hi : CString := ⟨ascii "hi", by simp [ascii]⟩

/-- Another one. -/
def ho : CString := ⟨ascii "ho", by simp [ascii]⟩

/-- A client with one text and a client with two. -/
def hiTexts : Bool → List CString
  | false => [hi]
  | true => [ho, hi]

/-- Both have connected, and the second has been faster to write its query. -/
def hiSent : System Bool :=
  ((((System.init hiTexts).connect false).connect true).clientWrite true ⟨wbuf ho, 0⟩ 6).clientWrite
    false ⟨wbuf hi, 0⟩ 6

/-- The server has accepted the first and read its query in two parts. -/
def hiHeard : System Bool :=
  ((hiSent.accept false [true]).serverRead false (.header []) [2, 0, 0, 0]).serverRead false
    (.payload 2 []) (ascii "hi")

/-- The client has read the reply in two parts and exited. -/
def hiAnswered : System Bool :=
  ((hiHeard.serverWrite false ⟨replyBuf, 0⟩ 10).clientRead false (.header [])
    [6, 0, 0, 0]).clientRead false (.payload 6 []) reply

/-- The server has closed its connection, accepted the second client and read its query. -/
def hoHeard : System Bool :=
  (((hiAnswered.serverStops false).accept true []).serverRead true (.header [])
    [2, 0, 0, 0]).serverRead true (.payload 2 []) (ascii "ho")

theorem step_hiSent : Relation.ReflTransGen Step (System.init hiTexts) hiSent :=
  (((Relation.ReflTransGen.single (.connect false rfl)).tail (.connect true rfl)).tail
    (.clientWrite true rfl (by decide) (by decide))).tail
      (.clientWrite false rfl (by decide) (by decide))

theorem step_hiHeard : Relation.ReflTransGen Step hiSent hiHeard :=
  ((Relation.ReflTransGen.single (.accept rfl rfl)).tail
    (.serverRead rfl (by decide) (by decide) (by decide))).tail
      (.serverRead rfl (by decide) (by decide) (by decide))

theorem step_hiAnswered : Relation.ReflTransGen Step hiHeard hiAnswered :=
  ((Relation.ReflTransGen.single (.serverWrite rfl (by decide) (by decide))).tail
    (.clientRead false rfl (by decide) (by decide) (by decide))).tail
      (.clientRead false rfl (by decide) (by decide) (by decide))

theorem step_hoHeard : Relation.ReflTransGen Step hiAnswered hoHeard :=
  (((Relation.ReflTransGen.single (.serverEof rfl rfl rfl)).tail (.accept rfl rfl)).tail
    (.serverRead rfl (by decide) (by decide) (by decide))).tail
      (.serverRead rfl (by decide) (by decide) (by decide))

theorem run_hoHeard : Relation.ReflTransGen Step (System.init hiTexts) hoHeard :=
  ((step_hiSent.trans step_hiHeard).trans step_hiAnswered).trans step_hoHeard

/-- The first client has exited, the second waits for its first reply. -/
theorem lockstep_of_ho_run :
    OneByOne [false, true] [(false, ascii "hi"), (true, ascii "ho")] ∧
      hoHeard.heard false = bytesOf [hi] ∧ (hoHeard.link false).client.shown = replies 1 ∧
      hoHeard.heard true <+: bytesOf [ho, hi] ∧
      (hoHeard.link true).client.shown.length ≤ (hoHeard.heard true).length := by
  obtain ⟨-, hone, hall⟩ :=
    lockstep_of_run (Relation.ReflTransGen.mono (fun _ _ hs => Or.inl hs) _ _ run_hoHeard)
  obtain ⟨-, n, hshown, -, -, hexit⟩ := hall false
  obtain ⟨hheard, rfl⟩ := hexit rfl
  obtain ⟨hbegins, n', hshown', hle, -, -⟩ := hall true
  refine ⟨hone, hheard, hshown, hbegins, ?_⟩
  rwa [hshown', replies, List.length_replicate]

end Byor.ProtocolParsing
