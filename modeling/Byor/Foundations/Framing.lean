import Byor.Foundations.Decoder
import Byor.Foundations.LittleEndian

/-!
# Length-prefixed records

A record is a payload behind its own length, a little-endian word of `w` bytes. `framing` is the
decoder of a stream of records whose payloads are further read by a function `accept`, which may
refuse one; the stream then stops there.

* `next_eq_some_iff`: the decoder takes exactly the records at the front of the buffer.
* `takes_records`: it takes a concatenation of accepted records apart into the records.
* `drain_of_cut`: if the concatenation is cut somewhere, the records before the cut.
-/

namespace Byor.Wire

variable {β : Type*}

/-- A payload behind its length in `w` bytes. -/
def record (w : ℕ) (payload : List UInt8) : List UInt8 := leBytes w payload.length ++ payload

@[simp] theorem length_record (w : ℕ) (p : List UInt8) : (record w p).length = w + p.length := by
  rw [record, List.length_append, length_leBytes]

/-- A payload taken off a stream, with what was read from it. -/
structure Record (β : Type*) where
  payload : List UInt8
  value : β

namespace Framing

/-- The first record of the buffer, if it is there in full and accepted. -/
def next (w : ℕ) (accept : List UInt8 → Option β) (xs : List UInt8) :
    Option (Record β × List UInt8) :=
  if xs.length < w then none
  else if xs.length < w + leVal (xs.take w) then none
  else (accept ((xs.drop w).take (leVal (xs.take w)))).map fun v =>
    (⟨(xs.drop w).take (leVal (xs.take w)), v⟩, xs.drop (w + leVal (xs.take w)))

variable {w : ℕ} {accept : List UInt8 → Option β}

theorem next_record_append {p : List UInt8} {v : β} (hp : p.length < 256 ^ w)
    (hv : accept p = some v) (rest : List UInt8) :
    next w accept (record w p ++ rest) = some (⟨p, v⟩, rest) := by
  have hlen : leVal ((record w p ++ rest).take w) = p.length := by
    rw [record, List.append_assoc, leVal_take_leBytes_append hp]
  have hdrop : (record w p ++ rest).drop w = p ++ rest := by
    rw [record, List.append_assoc, List.drop_left' (length_leBytes w p.length)]
  have hrest : (record w p ++ rest).drop (w + p.length) = rest :=
    List.drop_left' (length_record w p)
  rw [next, hlen, hdrop, hrest, if_neg, if_neg, List.take_left' rfl, hv, Option.map_some]
  · rw [List.length_append, length_record]; omega
  · rw [List.length_append, length_record]; omega

/-- The buffer starts with the record that was taken from it. -/
theorem eq_record_append {xs rest : List UInt8} {r : Record β}
    (h : next w accept xs = some (r, rest)) :
    xs = record w r.payload ++ rest ∧ r.payload.length < 256 ^ w ∧
      accept r.payload = some r.value := by
  unfold next at h
  split at h
  · cases h
  rename_i hw
  split at h
  · cases h
  rename_i hn
  obtain ⟨v, hv, hr⟩ := Option.map_eq_some_iff.mp h
  obtain ⟨rfl, rfl⟩ := Prod.mk.inj hr
  have hword : (xs.take w).length = w := by rw [List.length_take]; omega
  have hlen : ((xs.drop w).take (leVal (xs.take w))).length = leVal (xs.take w) := by
    rw [List.length_take, List.length_drop]; omega
  have hlt := leVal_lt (xs.take w)
  have hcopy := leBytes_leVal (xs.take w)
  rw [hword] at hlt hcopy
  refine ⟨?_, by simpa only [hlen] using hlt, hv⟩
  simp only [record]
  rw [hlen, hcopy, List.append_assoc, ← List.drop_drop, List.take_append_drop,
    List.take_append_drop]

/-- **The decoder takes exactly the accepted records** at the front of the buffer. -/
theorem next_eq_some_iff {xs rest : List UInt8} {r : Record β} :
    next w accept xs = some (r, rest) ↔
      xs = record w r.payload ++ rest ∧ r.payload.length < 256 ^ w ∧
        accept r.payload = some r.value := by
  refine ⟨eq_record_append, ?_⟩
  rintro ⟨rfl, hp, hv⟩
  exact next_record_append hp hv rest

end Framing

/-- The decoder of a stream of records. -/
def framing (w : ℕ) (hw : 0 < w) (accept : List UInt8 → Option β) : Decoder UInt8 (Record β) where
  next := Framing.next w accept
  raw r := record w r.payload
  split h := (Framing.eq_record_append h).1
  raw_ne_nil {_ r _} _ h := by
    have hlen := length_record w r.payload
    rw [h, List.length_nil] at hlen
    omega
  extend ys h := by
    obtain ⟨rfl, hp, hv⟩ := Framing.eq_record_append h
    rw [List.append_assoc]
    exact Framing.next_record_append hp hv _

/-- A stream of pieces, taken apart between two pieces. -/
theorem flatten_map_take_drop {α γ : Type*} (f : α → List γ) (l : List α) (m : ℕ) :
    (l.map f).flatten = ((l.take m).map f).flatten ++ ((l.drop m).map f).flatten := by
  rw [← List.flatten_append, ← List.map_append, List.take_append_drop]

section Streams

variable {w : ℕ} (hw : 0 < w) {accept : List UInt8 → Option β}

theorem framing_next_nil : (framing w hw accept).next [] = none :=
  if_pos hw

/-- **A concatenation of accepted records** is taken apart into the records. -/
theorem takes_records (rs : List (Record β))
    (h : ∀ r ∈ rs, r.payload.length < 256 ^ w ∧ accept r.payload = some r.value)
    (rest : List UInt8) :
    (framing w hw accept).Takes ((rs.map fun r => record w r.payload).flatten ++ rest) rs rest := by
  induction rs with
  | nil => exact .nil rest
  | cons r rs ih =>
    obtain ⟨hp, hv⟩ := h r List.mem_cons_self
    refine .cons ?_ (ih fun r' hr' => h r' (List.mem_cons_of_mem r hr'))
    rw [List.map_cons, List.flatten_cons, List.append_assoc]
    exact Framing.next_record_append hp hv _

theorem drain_records (rs : List (Record β))
    (h : ∀ r ∈ rs, r.payload.length < 256 ^ w ∧ accept r.payload = some r.value) :
    (framing w hw accept).drain (rs.map fun r => record w r.payload).flatten = (rs, []) := by
  refine Decoder.drain_eq_of_takes _ ?_ (framing_next_nil hw)
  simpa only [List.append_nil] using takes_records hw rs h []

/-- A part of a stream that holds a complete record at its front holds the first record. -/
theorem first_of_complete {rs : List (Record β)} (h : ∀ r ∈ rs, r.payload.length < 256 ^ w)
    {part : List UInt8} (hpart : part <+: (rs.map fun r => record w r.payload).flatten)
    (hpos : 0 < w) (hword : w ≤ part.length) (hfull : w + leVal (part.take w) ≤ part.length) :
    ∃ r rs', rs = r :: rs' ∧ (record w r.payload).length ≤ part.length := by
  obtain ⟨later, hlater⟩ := hpart
  cases rs with
  | nil =>
    have hlen := congrArg List.length hlater
    rw [List.length_append, List.map_nil, List.flatten_nil, List.length_nil] at hlen
    omega
  | cons r rs' =>
    rw [List.map_cons, List.flatten_cons] at hlater
    have hval : leVal (part.take w) = r.payload.length := by
      have htake : part.take w = (part ++ later).take w :=
        (List.take_append_of_le_length hword).symm
      rw [htake, hlater, record, List.append_assoc,
        leVal_take_leBytes_append (h r List.mem_cons_self)]
    refine ⟨r, rs', rfl, ?_⟩
    rw [length_record, ← hval]
    exact hfull

/-- Of the records behind the first `m`, a part that holds a complete one holds the next. -/
theorem length_take_succ_le {rs : List (Record β)} (h : ∀ r ∈ rs, r.payload.length < 256 ^ w)
    {m : ℕ} {part : List UInt8}
    (hpart : part <+: ((rs.drop m).map fun r => record w r.payload).flatten)
    (hpos : 0 < w) (hword : w ≤ part.length) (hfull : w + leVal (part.take w) ≤ part.length) :
    m < rs.length ∧ ((rs.take (m + 1)).map fun r => record w r.payload).flatten.length ≤
      ((rs.take m).map fun r => record w r.payload).flatten.length + part.length := by
  obtain ⟨r, rs', hdrop, hle⟩ := first_of_complete
    (fun r hr => h r (List.mem_of_mem_drop hr)) hpart hpos hword hfull
  have hnext : rs.take (m + 1) = rs.take m ++ [r] := by
    rw [List.take_add, hdrop]
    rfl
  constructor
  · have hlen := congrArg List.length hdrop
    rw [List.length_drop, List.length_cons] at hlen
    omega
  · rw [hnext, List.map_append, List.flatten_append, List.length_append, List.map_singleton,
      List.flatten_singleton]
    exact Nat.add_le_add_left hle _

/-- Fewer records are no longer than more of them. -/
theorem length_take_mono (rs : List (Record β)) {m n : ℕ} (hle : n ≤ m) :
    ((rs.take n).map fun r => record w r.payload).flatten.length ≤
      ((rs.take m).map fun r => record w r.payload).flatten.length := by
  have hsplit := flatten_map_take_drop (fun r : Record β => record w r.payload) (rs.take m) n
  rw [List.take_take, Nat.min_eq_left hle] at hsplit
  rw [hsplit, List.length_append]
  exact Nat.le_add_right _ _

/-- The records that lie completely before a cut are taken off it. -/
theorem le_of_length_le {rs : List (Record β)}
    (h : ∀ r ∈ rs, r.payload.length < 256 ^ w ∧ accept r.payload = some r.value) {cut : List UInt8}
    (hcut : cut <+: (rs.map fun r => record w r.payload).flatten) {m n : ℕ} (hn : n ≤ rs.length)
    (hfirst : ((framing w hw accept).drain cut).1 = rs.take m)
    (hle : ((rs.take n).map fun r => record w r.payload).flatten.length ≤ cut.length) : n ≤ m := by
  have hwhole : ((rs.take n).map fun r => record w r.payload).flatten <+:
      (rs.map fun r => record w r.payload).flatten :=
    ⟨_, (flatten_map_take_drop (fun r : Record β => record w r.payload) rs n).symm⟩
  obtain ⟨rest, hrest⟩ := List.prefix_of_prefix_length_le hwhole hcut hle
  have htakes := takes_records hw (rs.take n) (fun r hr => h r (List.mem_of_mem_take hr)) rest
  rw [hrest] at htakes
  obtain ⟨cs, hcs, -⟩ := htakes.of_drain
  have hlen := congrArg List.length (hfirst.symm.trans hcs)
  rw [List.length_append, List.length_take, List.length_take] at hlen
  omega

/-- **A stream of records that is cut somewhere** yields the records that lie completely before the
cut, and a rest in which no record is complete. -/
theorem drain_of_cut (rs : List (Record β))
    (h : ∀ r ∈ rs, r.payload.length < 256 ^ w ∧ accept r.payload = some r.value) {cut : List UInt8}
    (hcut : cut <+: (rs.map fun r => record w r.payload).flatten) :
    ∃ m ≤ rs.length, ∃ tail, (framing w hw accept).drain cut = (rs.take m, tail) ∧
      cut = ((rs.take m).map fun r => record w r.payload).flatten ++ tail ∧
      (∀ n ≤ rs.length,
        ((rs.take n).map fun r => record w r.payload).flatten.length ≤ cut.length ↔ n ≤ m) ∧
      (tail.length < w ∨ tail.length < w + leVal (tail.take w)) := by
  obtain ⟨later, hlater⟩ := id hcut
  -- what is taken off the cut comes first in what is taken off the whole stream
  have hdrain := (framing w hw accept).drain_append cut later
  rw [hlater, drain_records hw rs h] at hdrain
  have hpre : ((framing w hw accept).drain cut).1 <+: rs := ⟨_, (congrArg Prod.fst hdrain).symm⟩
  obtain ⟨m, hm, hfirst⟩ : ∃ m ≤ rs.length, ((framing w hw accept).drain cut).1 = rs.take m :=
    ⟨_, hpre.length_le, List.prefix_iff_eq_take.mp hpre⟩
  obtain ⟨tail, htail⟩ : ∃ tail, ((framing w hw accept).drain cut).2 = tail := ⟨_, rfl⟩
  have hsplit : cut = ((rs.take m).map fun r => record w r.payload).flatten ++ tail := by
    rw [← hfirst, ← htail]
    exact (framing w hw accept).drain_split cut
  have hlen := congrArg List.length hsplit
  rw [List.length_append] at hlen
  have hmax : ∀ n ≤ rs.length,
      ((rs.take n).map fun r => record w r.payload).flatten.length ≤ cut.length → n ≤ m :=
    fun n hn hle => le_of_length_le hw h hcut hn hfirst hle
  refine ⟨m, hm, tail, Prod.ext hfirst htail, hsplit, fun n hn => ⟨hmax n hn, fun hle => ?_⟩, ?_⟩
  · have hmono := length_take_mono (w := w) rs hle
    omega
  · by_contra hcomplete
    push Not at hcomplete
    have hpart : tail <+: ((rs.drop m).map fun r => record w r.payload).flatten := by
      refine ⟨later, (List.append_right_inj
        ((rs.take m).map fun r => record w r.payload).flatten).mp ?_⟩
      rw [← List.append_assoc, ← hsplit, hlater]
      exact flatten_map_take_drop (fun r : Record β => record w r.payload) rs m
    obtain ⟨hlt, hnext⟩ :=
      length_take_succ_le (fun r hr => (h r hr).1) hpart hw hcomplete.1 hcomplete.2
    exact absurd (hmax (m + 1) hlt (by omega)) (Nat.not_succ_le_self m)

end Streams

/-- Two streams of pieces with the same lengths are equal only if the pieces are. -/
theorem flatten_map_eq_iff {α γ : Type*} {f g : α → List γ} {l : List α}
    (h : ∀ a ∈ l, (f a).length = (g a).length) :
    (l.map f).flatten = (l.map g).flatten ↔ ∀ a ∈ l, f a = g a := by
  induction l with
  | nil => simp
  | cons a l ih =>
    obtain ⟨ha, hl⟩ := List.forall_mem_cons.mp h
    rw [List.map_cons, List.map_cons, List.flatten_cons, List.flatten_cons, List.forall_mem_cons,
      ← ih hl]
    constructor
    · exact fun he => List.append_inj he ha
    · rintro ⟨h1, h2⟩
      rw [h1, h2]

end Byor.Wire
