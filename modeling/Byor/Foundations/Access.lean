import Mathlib.Algebra.Group.Nat.Defs
import Mathlib.Data.List.Basic
import Mathlib.Order.Basic

/-!
# Programs that read memory through pointers

A program over a memory of bytes is run together with the accesses it makes: the sums of machine
words, the reads, the positions of a cursor, the ranges removed from a container. What the standard
leaves undefined is then a condition on the accesses, and the value is computed as if they were all
in bounds.

* `Yields P x a`: the program `x` computes `a`, and each of its accesses meets `P`. The rules
  `yields_pure`, `Yields.bind` and one rule for each access take a program apart.
* `bytesAt`: the bytes in a stretch of the memory, and the parts of it.
-/

namespace Byor.Wire

/-- A memory: the byte at each address. -/
abbrev Memory := ℕ → UInt8

/-- What a program over a memory does that has to be in bounds. -/
inductive Access
  /-- The sum of two words of the given number of bits. -/
  | sum (bits a b : ℕ)
  /-- A read of `n` bytes. -/
  | load (addr n : ℕ)
  /-- A pointer is moved to an address. -/
  | cursor (addr : ℕ)
  /-- The elements of a container between two of its positions are removed. -/
  | erase (first last : ℕ)
  deriving DecidableEq, Repr

/-- A value and the accesses that were made to compute it. -/
structure Traced (α : Type) where
  value : α
  accesses : List Access

instance : Monad Traced where
  pure a := ⟨a, []⟩
  bind x f := ⟨(f x.value).value, x.accesses ++ (f x.value).accesses⟩

/-- The `n` bytes at an address. -/
def bytesAt (mem : Memory) (addr n : ℕ) : List UInt8 := (List.range n).map fun i => mem (addr + i)

/-- The sum of two words, which wraps around. -/
def add (bits a b : ℕ) : Traced ℕ := ⟨(a + b) % 2 ^ bits, [.sum bits a b]⟩

/-- A read of `n` bytes. -/
def load (mem : Memory) (addr n : ℕ) : Traced (List UInt8) := ⟨bytesAt mem addr n, [.load addr n]⟩

/-- A pointer is moved `n` bytes on. -/
def advance (bits addr n : ℕ) : Traced ℕ :=
  ⟨(addr + n) % 2 ^ bits, [.sum bits addr n, .cursor ((addr + n) % 2 ^ bits)]⟩

/-- A range of a container is removed. -/
def erase (first last : ℕ) : Traced Unit := ⟨(), [.erase first last]⟩

/-! ## What a program yields -/

/-- The program computes `a`, and its accesses meet `P`. -/
structure Traced.Yields {α : Type} (P : Access → Prop) (x : Traced α) (a : α) : Prop where
  value : x.value = a
  accesses : ∀ access ∈ x.accesses, P access

section

variable {α β : Type} {P : Access → Prop} {mem : Memory} {bits addr n a b : ℕ}

open Traced

theorem yields_pure (P : Access → Prop) (v : α) : Yields P (pure v : Traced α) v := ⟨rfl, nofun⟩

theorem Traced.Yields.bind {x : Traced α} {f : α → Traced β} {u : α} {v : β} (hx : Yields P x u)
    (hf : Yields P (f u) v) : Yields P (x >>= f) v := by
  obtain ⟨rfl, hx⟩ := hx
  refine ⟨hf.value, fun access hmem => ?_⟩
  rcases List.mem_append.mp hmem with h | h
  · exact hx access h
  · exact hf.accesses access h

/-- A sum that does not wrap around. -/
theorem yields_add (hlt : a + b < 2 ^ bits) (h : P (.sum bits a b)) :
    Yields P (add bits a b) (a + b) :=
  ⟨Nat.mod_eq_of_lt hlt, List.forall_mem_singleton.mpr h⟩

theorem yields_load (h : P (.load addr n)) : Yields P (load mem addr n) (bytesAt mem addr n) :=
  ⟨rfl, List.forall_mem_singleton.mpr h⟩

theorem yields_advance (hlt : addr + n < 2 ^ bits) (hsum : P (.sum bits addr n))
    (h : P (.cursor (addr + n))) : Yields P (advance bits addr n) (addr + n) := by
  refine ⟨Nat.mod_eq_of_lt hlt, ?_⟩
  rw [advance, Nat.mod_eq_of_lt hlt]
  exact List.forall_mem_cons.mpr ⟨hsum, List.forall_mem_singleton.mpr h⟩

theorem yields_erase {first last : ℕ} (h : P (.erase first last)) :
    Yields P (erase first last) () :=
  ⟨rfl, List.forall_mem_singleton.mpr h⟩

end

/-! ## Stretches of the memory -/

variable {mem : Memory} {addr n k : ℕ}

@[simp] theorem length_bytesAt (mem : Memory) (addr n : ℕ) : (bytesAt mem addr n).length = n := by
  rw [bytesAt, List.length_map, List.length_range]

theorem bytesAt_add (mem : Memory) (addr n k : ℕ) :
    bytesAt mem addr (n + k) = bytesAt mem addr n ++ bytesAt mem (addr + n) k := by
  simp only [bytesAt, List.range_add, List.map_append, List.map_map, Function.comp_def,
    Nat.add_assoc]

theorem take_bytesAt (h : k ≤ n) : (bytesAt mem addr n).take k = bytesAt mem addr k := by
  obtain ⟨m, rfl⟩ := Nat.exists_eq_add_of_le h
  rw [bytesAt_add, List.take_left' (length_bytesAt ..)]

theorem drop_bytesAt (h : k ≤ n) :
    (bytesAt mem addr n).drop k = bytesAt mem (addr + k) (n - k) := by
  obtain ⟨m, rfl⟩ := Nat.exists_eq_add_of_le h
  rw [bytesAt_add, List.drop_left' (length_bytesAt ..), Nat.add_sub_cancel_left]

/-- A memory that holds a list of bytes at an address. -/
def memoryOf (addr : ℕ) (l : List UInt8) : Memory := fun i => l.getD (i - addr) 0

end Byor.Wire
