import Byor.Foundations.Access
import Byor.Optimized.Client

/-!
# The reads of the deserializer

`RedisDeserializer::deserialize` of the optimized client once more, with the reads it makes. The
memory is counted from `message.data()` on: the message is its first `size` bytes, and what stands
behind them is not known.

* `deserialize_eq_traced`: the deserializer is the one of `Byor.Optimized.Client`, which is
  undefined where a read is out of bounds.
* `deserialize_inBounds_iff`: the reads are in bounds, and messages that are too short are told
  apart, except where a message ends behind its header.
-/

namespace Byor.Optimized

open Wire Traced

namespace Address

/-- `RedisDeserializer::deserialize` -/
def deserialize (mem : Memory) (size : ℕ) : Traced Bytes :=
  if size < 4 then pure (ascii "Did not receive enough bytes")
  else do
    let dataLen := leVal (← load mem 0 4)
    if maxMsgFieldSize < dataLen then pure (ascii "Received too many bytes!")
    else do
      let status ← load mem 4 1
      let resp := ascii "Status: " ++ decimal (leVal status)
      let resp := resp ++ ascii ", Response: "
      if 1 < dataLen ∧ 4 + 1 + dataLen ≤ size then do
        let data ← load mem (4 + 1) dataLen
        pure (resp ++ data)
      else pure resp

/-- The read lies inside the message. -/
def InMessage (size : ℕ) : Access → Prop
  | .load addr n => addr + n ≤ size
  | _ => True

/-- The message is too short for the fields that are read from it: for the header, or for the status
behind a header within the limit. -/
def TooShort (mem : Memory) (size : ℕ) : Prop :=
  size < 4 ∨ size < 5 ∧ dataLen (bytesAt mem 0 size) ≤ maxMsgFieldSize

/-- The message ends behind a header within the limit. -/
def EndsAtStatus (mem : Memory) (size : ℕ) : Prop :=
  size = 4 ∧ dataLen (bytesAt mem 0 size) ≤ maxMsgFieldSize

/-- The reads lie inside the message, and for a message that is too short this is reported. -/
structure InBounds (mem : Memory) (size : ℕ) : Prop where
  reads : ∀ access ∈ (deserialize mem size).accesses, InMessage size access
  tooShort : TooShort mem size →
    (deserialize mem size).value = ascii "Did not receive enough bytes"

variable {mem : Memory} {size : ℕ}

theorem leVal_bytesAt_one (mem : Memory) (addr : ℕ) :
    leVal (bytesAt mem addr 1) = (mem addr).toNat := by
  change (mem (addr + 0)).toNat + 256 * 0 = _
  rfl

theorem getElem?_bytesAt {i : ℕ} (h : i < size) : (bytesAt mem 0 size)[i]? = some (mem i) := by
  rw [bytesAt, List.getElem?_map, List.getElem?_range h, Option.map_some, Nat.zero_add]

/-- Where the message does not end behind its header, the reads are in bounds. -/
theorem yields_deserialize (h : ¬ EndsAtStatus mem size) : ∃ text,
    Yields (InMessage size) (deserialize mem size) text ∧
      Optimized.deserialize (bytesAt mem 0 size) = some text := by
  by_cases h4 : size < 4
  · refine ⟨_, ?_, if_pos (by rwa [length_bytesAt])⟩
    rw [deserialize, if_pos h4]
    exact yields_pure _ _
  have hfull : 4 ≤ (bytesAt mem 0 size).length := by
    rw [length_bytesAt]
    exact Nat.le_of_not_lt h4
  have hlen : leVal (bytesAt mem 0 4) = dataLen (bytesAt mem 0 size) := by
    rw [dataLen]
    exact congrArg leVal (take_bytesAt (Nat.le_of_not_lt h4)).symm
  rw [deserialize, if_neg h4]
  by_cases hmax : maxMsgFieldSize < dataLen (bytesAt mem 0 size)
  · refine ⟨_, .bind (yields_load (by rw [InMessage]; omega)) ?_,
      deserialize_of_overLimit ⟨hfull, hmax⟩⟩
    rw [hlen, if_pos hmax]
    exact yields_pure _ _
  have hstatus : 4 < size := by
    have hne : size ≠ 4 := fun he => h ⟨he, Nat.le_of_not_lt hmax⟩
    omega
  refine ⟨_, .bind (yields_load (by rw [InMessage]; omega)) ?_,
    deserialize_eq hfull (Nat.le_of_not_lt hmax) (getElem?_bytesAt hstatus)⟩
  rw [hlen, if_neg hmax, length_bytesAt]
  refine .bind (yields_load (by rw [InMessage]; omega)) ?_
  rw [leVal_bytesAt_one]
  by_cases hdata : 1 < dataLen (bytesAt mem 0 size) ∧ 4 + 1 + dataLen (bytesAt mem 0 size) ≤ size
  · have hcopy : ((bytesAt mem 0 size).drop 5).take (dataLen (bytesAt mem 0 size)) =
        bytesAt mem (4 + 1) (dataLen (bytesAt mem 0 size)) := by
      rw [drop_bytesAt (by omega), take_bytesAt (by omega)]
    rw [if_pos hdata, if_pos hdata, hcopy]
    exact .bind (yields_load (by rw [InMessage]; omega)) (yields_pure _ _)
  · rw [if_neg hdata, if_neg hdata, List.append_nil]
    exact yields_pure _ _

/-- A message that ends behind its header is read one byte too far. -/
theorem load_status_of_endsAtStatus (h : EndsAtStatus mem size) :
    Access.load 4 1 ∈ (deserialize mem size).accesses := by
  obtain ⟨rfl, hmax⟩ := h
  have hlen : leVal (bytesAt mem 0 4) = dataLen (bytesAt mem 0 4) :=
    congrArg leVal (take_bytesAt (Nat.le_refl 4)).symm
  rw [deserialize, if_neg (by omega)]
  refine List.mem_append_right _ ?_
  change _ ∈ Traced.accesses (if maxMsgFieldSize < leVal (bytesAt mem 0 4) then _ else _)
  rw [hlen, if_neg (Nat.not_lt.mpr hmax)]
  exact List.mem_append_left _ (List.mem_singleton_self _)

theorem not_reads_of_endsAtStatus (h : EndsAtStatus mem size) :
    ¬ ∀ access ∈ (deserialize mem size).accesses, InMessage size access := by
  intro hreads
  have hload : 4 + 1 ≤ size := hreads _ (load_status_of_endsAtStatus h)
  rw [h.1] at hload
  exact absurd hload (by decide)

/-- **The deserializer with its reads** computes what the deserializer does where all of them are in
bounds, and where one of them is not, the deserializer is undefined. -/
theorem deserialize_eq_traced (mem : Memory) (size : ℕ) (text : Bytes) :
    Optimized.deserialize (bytesAt mem 0 size) = some text ↔
      (∀ access ∈ (deserialize mem size).accesses, InMessage size access) ∧
        (deserialize mem size).value = text := by
  by_cases h : EndsAtStatus mem size
  · obtain ⟨hsize, hmax⟩ := id h
    have hnone : Optimized.deserialize (bytesAt mem 0 size) = none := by
      rw [Optimized.deserialize, length_bytesAt, if_neg (by omega),
        if_neg (Nat.not_lt.mpr hmax), List.getElem?_eq_none (by rw [length_bytesAt]; omega)]
      rfl
    rw [hnone]
    constructor
    · intro he
      cases he
    · intro hreads
      exact absurd hreads.1 (not_reads_of_endsAtStatus h)
  · obtain ⟨text', hyields, hsome⟩ := yields_deserialize h
    rw [hsome, hyields.value, Option.some_inj]
    exact ⟨fun he => ⟨hyields.accesses, he⟩, fun he => he.2⟩

/-- **When the deserializer stays in bounds**: every index it reads is below the size of the
message, and messages too short for the fields it reads are reported as such, exactly if the
message is not one of four bytes that announce a length within the limit. -/
theorem deserialize_inBounds_iff (mem : Memory) (size : ℕ) :
    InBounds mem size ↔ ¬ (size = 4 ∧ dataLen (bytesAt mem 0 size) ≤ maxMsgFieldSize) := by
  constructor
  · exact fun hin hends => not_reads_of_endsAtStatus hends hin.reads
  · intro hends
    obtain ⟨text, hyields, -⟩ := yields_deserialize hends
    refine ⟨hyields.accesses, ?_⟩
    rintro (h4 | ⟨h5, hmax⟩)
    · rw [deserialize, if_pos h4]
      rfl
    · by_cases h4 : size < 4
      · rw [deserialize, if_pos h4]
        rfl
      · exact absurd ⟨by omega, hmax⟩ hends

/-- A message of four zeros is read behind its end. -/
theorem deserialize_out_of_bounds : ¬ ∀ mem size, InBounds mem size := by
  intro h
  have hends : EndsAtStatus (fun _ => 0) 4 := ⟨rfl, by decide⟩
  exact not_reads_of_endsAtStatus hends (h _ 4).reads

end Address

end Byor.Optimized
