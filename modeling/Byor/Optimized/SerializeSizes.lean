import Byor.Optimized.Client

/-!
# The sizes of a serialized request

`RedisSerializer::serialize` of the optimized client adds up the size of its buffer in 32 bits and
then fills it string by string. The number of bytes it allocates and the number of bytes it writes
are two different sums.

* `exists_serialize_iff`: the copies stay inside the buffer exactly if what is written is no more
  than what is allocated.
* `sizesAgree_iff`: both sums agree, and all the fields hold the true counts, exactly if the frame
  is shorter than 4 GiB.
-/

namespace Byor.Optimized

open Wire

/-- `total_len`, as `serialize` adds it up: the size of the buffer it allocates. -/
def allocated (message : List Bytes) : ℕ :=
  message.foldl (fun totalLen s => (totalLen + s.length) % 2 ^ 32)
    ((2 * lenFieldSize + lenFieldSize * message.length) % 2 ^ 32)

/-- The number of bytes the copies of `serialize` write, which is the position of its cursor behind
the strings: each string is written behind its length, as long as its length says. -/
def bytesWritten (message : List Bytes) : ℕ :=
  2 * lenFieldSize + (message.map fun s => lenFieldSize + s.length % 2 ^ 32).sum

/-- **The sizes agree**: no copy goes past the end of the buffer, which has as many bytes as are
written; `nbytes` is its length without the header, and `nstr` and each `len` are the true
counts. -/
def SizesAgree (message : List Bytes) : Prop :=
  ∃ wbuf, serialize message = some wbuf ∧ wbuf.length = bytesWritten message ∧
    leVal (wbuf.take lenFieldSize) = wbuf.length - lenFieldSize ∧
    leVal ((wbuf.drop lenFieldSize).take lenFieldSize) = message.length ∧
    ∀ pre s post, message = pre ++ s :: post →
      leVal ((wbuf.drop (bytesWritten pre)).take lenFieldSize) = s.length

variable {message : List Bytes} {wbuf wbuf' : Bytes} {p : ℕ}

/-! ## What is allocated -/

theorem foldl_mod (message : List Bytes) (n : ℕ) :
    message.foldl (fun totalLen s => (totalLen + s.length) % 2 ^ 32) (n % 2 ^ 32) =
      (n + (message.map List.length).sum) % 2 ^ 32 := by
  induction message generalizing n with
  | nil => rfl
  | cons s message ih =>
    rw [List.foldl_cons, Nat.mod_add_mod, ih, List.map_cons, List.sum_cons, Nat.add_assoc]

/-- Modulo `2 ^ 32` the buffer has the size of the frame. -/
theorem allocated_eq (message : List Bytes) : allocated message =
    (2 * lenFieldSize + (message.map fun s => lenFieldSize + s.length).sum) % 2 ^ 32 := by
  rw [allocated, foldl_mod, sum_map_lenFieldSize_add, Nat.add_assoc]

/-! ## What is written -/

theorem length_take_mod (s : Bytes) : (s.take (s.length % 2 ^ 32)).length = s.length % 2 ^ 32 := by
  rw [List.length_take]
  exact Nat.min_eq_left (Nat.mod_le ..)

/-- The loop writes all the strings inside the buffer, or fails. -/
theorem serializeArgs_fits (h : serializeArgs wbuf p message = some wbuf') (hp : p ≤ wbuf.length) :
    wbuf'.length = wbuf.length ∧
      p + (message.map fun s => lenFieldSize + s.length % 2 ^ 32).sum ≤ wbuf.length := by
  induction message generalizing wbuf p with
  | nil =>
    obtain rfl := Option.some.inj h
    exact ⟨rfl, hp⟩
  | cons s message ih =>
    rw [serializeArgs] at h
    obtain ⟨wbuf₁, hlen, h⟩ := Option.bind_eq_some_iff.mp h
    obtain ⟨wbuf₂, hstr, h⟩ := Option.bind_eq_some_iff.mp h
    obtain ⟨hlen₁, -⟩ := length_of_copyAt hlen
    obtain ⟨hlen₂, hfit₂⟩ := length_of_copyAt hstr
    rw [length_take_mod] at hfit₂
    obtain ⟨hlen', hfit⟩ := ih h (by omega)
    rw [List.map_cons, List.sum_cons]
    omega

/-- The loop does not fail when all the strings fit. -/
theorem exists_serializeArgs
    (h : p + (message.map fun s => lenFieldSize + s.length % 2 ^ 32).sum ≤ wbuf.length) :
    ∃ wbuf', serializeArgs wbuf p message = some wbuf' := by
  induction message generalizing wbuf p with
  | nil => exact ⟨wbuf, rfl⟩
  | cons s message ih =>
    rw [List.map_cons, List.sum_cons] at h
    obtain ⟨wbuf₁, hcopy₁⟩ : ∃ wbuf₁,
        copyAt wbuf p (leBytes lenFieldSize (s.length % 2 ^ 32)) = some wbuf₁ :=
      exists_copyAt (by rw [length_leBytes]; omega)
    obtain ⟨hlen₁, -⟩ := length_of_copyAt hcopy₁
    obtain ⟨wbuf₂, hcopy₂⟩ : ∃ wbuf₂,
        copyAt wbuf₁ (p + lenFieldSize) (s.take (s.length % 2 ^ 32)) = some wbuf₂ :=
      exists_copyAt (by rw [length_take_mod]; omega)
    obtain ⟨hlen₂, -⟩ := length_of_copyAt hcopy₂
    obtain ⟨wbuf', hrest⟩ : ∃ wbuf',
        serializeArgs wbuf₂ (p + lenFieldSize + s.length % 2 ^ 32) message = some wbuf' :=
      ih (by omega)
    refine ⟨wbuf', ?_⟩
    rw [serializeArgs]
    simp only [hcopy₁, hcopy₂, hrest, Option.bind_eq_bind, Option.bind_some]

/-- `serialize` keeps the size it has allocated. -/
theorem serialize_fits (h : serialize message = some wbuf) :
    wbuf.length = allocated message ∧ bytesWritten message ≤ allocated message := by
  unfold serialize at h
  obtain ⟨wbuf₁, hnbytes, h⟩ := Option.bind_eq_some_iff.mp h
  obtain ⟨wbuf₂, hnstr, h⟩ := Option.bind_eq_some_iff.mp h
  obtain ⟨hlen₁, -⟩ := length_of_copyAt hnbytes
  obtain ⟨hlen₂, hfit₂⟩ := length_of_copyAt hnstr
  rw [length_leBytes] at hfit₂
  rw [List.length_replicate] at hlen₁
  obtain ⟨hlen, hfit⟩ := serializeArgs_fits h (by omega)
  exact ⟨hlen.trans (hlen₂.trans hlen₁), by rw [bytesWritten, allocated]; omega⟩

/-- **The copies stay inside the buffer** exactly if no more is written than was allocated. -/
theorem exists_serialize_iff (message : List Bytes) :
    (∃ wbuf, serialize message = some wbuf) ↔ bytesWritten message ≤ allocated message := by
  constructor
  · rintro ⟨wbuf, h⟩
    exact (serialize_fits h).2
  · intro h
    rw [bytesWritten] at h
    have h4 : lenFieldSize = 4 := rfl
    have hsize : (List.replicate (allocated message) (0 : UInt8)).length = allocated message :=
      List.length_replicate
    obtain ⟨wbuf₁, hcopy₁⟩ : ∃ wbuf₁, copyAt (List.replicate (allocated message) 0) 0
        (leBytes lenFieldSize ((allocated message + 2 ^ 32 - lenFieldSize) % 2 ^ 32)) =
          some wbuf₁ :=
      exists_copyAt (by rw [length_leBytes]; omega)
    obtain ⟨hlen₁, -⟩ := length_of_copyAt hcopy₁
    obtain ⟨wbuf₂, hcopy₂⟩ : ∃ wbuf₂,
        copyAt wbuf₁ lenFieldSize (leBytes lenFieldSize (message.length % 2 ^ 32)) = some wbuf₂ :=
      exists_copyAt (by rw [length_leBytes]; omega)
    obtain ⟨hlen₂, -⟩ := length_of_copyAt hcopy₂
    obtain ⟨wbuf, hargs⟩ : ∃ wbuf, serializeArgs wbuf₂ (2 * lenFieldSize) message = some wbuf :=
      exists_serializeArgs (by omega)
    refine ⟨wbuf, ?_⟩
    unfold serialize
    rw [allocated] at hcopy₁
    simp only [hcopy₁, hcopy₂, hargs, Option.bind_eq_bind, Option.bind_some]

/-! ## When the sizes agree -/

theorem encodeArgs_append (pre post : List Bytes) :
    encodeArgs (pre ++ post) = encodeArgs pre ++ encodeArgs post := by
  rw [encodeArgs, List.map_append, List.flatten_append]
  rfl

/-- Strings shorter than 4 GiB are written in full. -/
theorem bytesWritten_eq (h : ∀ s ∈ message, s.length < 2 ^ 32) :
    bytesWritten message = 2 * lenFieldSize + (encodeArgs message).length := by
  rw [bytesWritten, length_encodeArgs]
  refine congrArg (fun l : List ℕ => 2 * lenFieldSize + l.sum) (List.map_congr_left fun s hs => ?_)
  rw [Nat.mod_eq_of_lt (h s hs)]

/-- In the frame each length stands where the cursor was. -/
theorem drop_frame (pre post : List Bytes) (s : Bytes) :
    (record lenFieldSize (encodePayload (pre ++ s :: post))).drop
      (2 * lenFieldSize + (encodeArgs pre).length) =
        record lenFieldSize s ++ encodeArgs post := by
  have hfirst : (record lenFieldSize (encodePayload (pre ++ s :: post))).drop (2 * lenFieldSize) =
      encodeArgs (pre ++ s :: post) := by
    rw [Nat.two_mul, ← List.drop_drop, record, List.drop_left' (length_leBytes ..), encodePayload,
      List.drop_left' (length_leBytes ..)]
  rw [← List.drop_drop, hfirst, encodeArgs_append, List.drop_left' rfl, encodeArgs_cons]

/-- Below 4 GiB the sizes agree. -/
theorem sizesAgree_of_lt
    (h : 2 * lenFieldSize + (message.map fun s => lenFieldSize + s.length).sum < 2 ^ 32) :
    SizesAgree message := by
  have h4 : lenFieldSize = 4 := rfl
  have hpow : 256 ^ lenFieldSize = 2 ^ 32 := by decide
  have hpayload := length_encodePayload message
  have hsum := sum_map_lenFieldSize_add message
  have hcount : lenFieldSize * message.length = 4 * message.length := rfl
  have hs : ∀ s ∈ message, s.length < 2 ^ 32 := by
    intro s hs
    have hle : s.length ≤ (message.map List.length).sum :=
      List.single_le_sum (fun _ _ => Nat.zero_le _) _ (List.mem_map_of_mem hs)
    omega
  have hlen : (record lenFieldSize (encodePayload message)).length =
      2 * lenFieldSize + (encodeArgs message).length := by
    rw [length_record, hpayload, length_encodeArgs]
    omega
  refine ⟨_, serialize_eq message (by omega), ?_, ?_, ?_, ?_⟩
  · rw [hlen, bytesWritten_eq hs]
  · rw [length_record, Nat.add_sub_cancel_left, record, leVal_take_leBytes_append]
    omega
  · rw [record, List.drop_left' (length_leBytes ..), encodePayload, leVal_take_leBytes_append]
    omega
  · rintro pre s post rfl
    have hpre : ∀ t ∈ pre, t.length < 2 ^ 32 := fun t ht => hs t (List.mem_append_left _ ht)
    have hlt := hs s (List.mem_append_right _ List.mem_cons_self)
    rw [bytesWritten_eq hpre, drop_frame, record, List.append_assoc, leVal_take_leBytes_append]
    omega

/-- A length field holds less than `2 ^ 32`. -/
theorem SizesAgree.length_lt (h : SizesAgree message) : ∀ s ∈ message, s.length < 2 ^ 32 := by
  obtain ⟨wbuf, -, -, -, -, hlens⟩ := h
  intro s hs
  obtain ⟨pre, post, he⟩ := List.append_of_mem hs
  rw [← hlens pre s post he]
  have hlt := leVal_lt ((wbuf.drop (bytesWritten pre)).take lenFieldSize)
  have hle : ((wbuf.drop (bytesWritten pre)).take lenFieldSize).length ≤ 4 := List.length_take_le ..
  exact hlt.trans_le (Nat.pow_le_pow_right (by decide) hle)

/-- **When the sizes of `serialize` agree**: the buffer has as many bytes as are written, no copy
goes past its end, and `nbytes`, `nstr` and every `len` are the true counts, exactly if the two
counts in front and the strings, each with its length, come to less than 4 GiB. -/
theorem sizesAgree_iff (message : List Bytes) : SizesAgree message ↔
    2 * lenFieldSize + (message.map fun s => lenFieldSize + s.length).sum < 2 ^ 32 := by
  refine ⟨fun h => ?_, sizesAgree_of_lt⟩
  have hwritten := bytesWritten_eq h.length_lt
  obtain ⟨wbuf, hser, hlen, -⟩ := h
  rw [(serialize_fits hser).1, allocated_eq, hwritten, length_encodeArgs] at hlen
  rw [← hlen]
  exact Nat.mod_lt _ (by decide)

/-- For two strings of two gigabytes each, sixteen bytes are allocated. -/
theorem not_sizesAgree_pair {s : Bytes} (hs : s.length = 2 ^ 31) : ¬ SizesAgree [s, s] := by
  rintro ⟨wbuf, hser, -⟩
  have hfit := (exists_serialize_iff [s, s]).mp ⟨wbuf, hser⟩
  simp only [bytesWritten, allocated_eq, List.map_cons, List.map_nil, List.sum_cons, List.sum_nil,
    hs, lenFieldSize] at hfit
  omega

theorem serialize_overruns :
    ¬ SizesAgree [List.replicate (2 ^ 31) 0, List.replicate (2 ^ 31) 0] :=
  not_sizesAgree_pair List.length_replicate

end Byor.Optimized
