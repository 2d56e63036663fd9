import Mathlib.Algebra.Group.Int.Defs
import Mathlib.Algebra.Group.Nat.Defs
import Mathlib.Data.List.Basic
import Mathlib.Data.List.TakeDrop

/-!
# Decoders of fixed byte layouts

A decoder of type `Reader α` reads a value at an offset of a buffer, or finds the buffer too short.

* `window` — the bytes of a buffer from an offset on; `bytes`, `u8le`, `u16le`, `u32le`, `u64le` — the bounded reads;
* `Reads r n` — from `n` bytes after its offset on, `r` reads nothing: it decodes a buffer as it decodes any window
  that covers those bytes, and fails where the buffer ends before them;
* `Fills r n` — it also succeeds on every buffer that has them;
* `Reads.bind`, `Fills.bind`, … — how far a decoder reads, field by field.
-/

set_option autoImplicit false

namespace Layout

/-- The `n` bytes of a buffer from `o` on, or what there is of them. -/
def window (b : List UInt8) (o n : Nat) : List UInt8 := (b.drop o).take n

theorem length_window (b : List UInt8) (o n : Nat) : (window b o n).length = min n (b.length - o) := by
  unfold window
  rw [List.length_take, List.length_drop]

theorem window_window {b : List UInt8} {o k m n : Nat} (h : k + m ≤ n) :
    window (window b o n) k m = window b (o + k) m := by
  unfold window
  rw [List.drop_take, List.take_take, List.drop_drop]
  congr 1
  omega

theorem getElem?_window {b : List UInt8} {o n k : Nat} (h : k < n) : (window b o n)[k]? = b[o + k]? := by
  unfold window
  rw [List.getElem?_take_of_lt h, List.getElem?_drop]

/-- Two buffers that agree on a range have one window there. -/
theorem window_congr {b b' : List UInt8} {o n : Nat} (h : ∀ k, o ≤ k → k < o + n → b[k]? = b'[k]?) :
    window b o n = window b' o n := by
  refine List.ext_getElem? fun k => ?_
  by_cases hk : k < n
  · rw [getElem?_window hk, getElem?_window hk]
    exact h (o + k) (by omega) (by omega)
  · unfold window
    rw [List.getElem?_eq_none (by rw [List.length_take]; omega), List.getElem?_eq_none (by rw [List.length_take]; omega)]

/-- What a table of layouts finds is its first row's, or found below that. -/
theorem of_ite_some {α : Type*} {p : Prop} [Decidable p] {a x : α} {rest : Option α}
    (h : (if p then some a else rest) = some x) : x = a ∨ rest = some x := by
  by_cases hp : p
  · rw [if_pos hp, Option.some.injEq] at h
    exact .inl h.symm
  · rw [if_neg hp] at h
    exact .inr h

/-! ## Reads -/

abbrev Reader (α : Type*) := List UInt8 → Nat → Option α

/-- The `n` bytes at an offset. -/
def bytes (n : Nat) : Reader (List UInt8) := fun b o => if o + n ≤ b.length then some (window b o n) else none

/-- The number that some bytes spell, the least significant first. -/
def fromLe (bytes : List UInt8) : Nat := bytes.foldr (fun x n => x.toNat + 256 * n) 0

def u8le : Reader UInt8 := fun b o => b[o]?

def u16le : Reader Nat := fun b o => (bytes 2 b o).map fromLe

def u32le : Reader Nat := fun b o => (bytes 4 b o).map fromLe

def u64le : Reader Nat := fun b o => (bytes 8 b o).map fromLe

/-- A number of `2 ^ 64` as a signed one. -/
def toI64 (n : Nat) : Int := if n < 2 ^ 63 then n else (n : Int) - 2 ^ 64

def toI8 (x : UInt8) : Int := if x.toNat < 2 ^ 7 then x.toNat else (x.toNat : Int) - 2 ^ 8

def i64le : Reader Int := fun b o => (u64le b o).map toI64

/-! ## How far a decoder reads -/

variable {α β : Type}

structure Reads (r : Reader α) (n : Nat) : Prop where
  inside : ∀ b o m, n ≤ m → o + m ≤ b.length → r b o = r (window b o m) 0
  short : ∀ b o, b.length < o + n → r b o = none

structure Fills (r : Reader α) (n : Nat) : Prop extends Reads r n where
  full : ∀ b o, o + n ≤ b.length → (r b o).isSome = true

theorem Fills.bytes (n : Nat) : Fills (Layout.bytes n) n where
  inside b o m hn hm := by
    unfold Layout.bytes
    rw [if_pos (by omega), if_pos (by rw [length_window]; omega), window_window (by omega), Nat.add_zero]
  short b o h := by
    unfold Layout.bytes
    rw [if_neg (by omega)]
  full b o h := by
    unfold Layout.bytes
    rw [if_pos h]
    rfl

theorem Fills.u8le : Fills u8le 1 where
  inside b o m hn hm := by
    unfold Layout.u8le
    rw [getElem?_window (by omega), Nat.add_zero]
  short b o h := List.getElem?_eq_none (by omega)
  full b o h := by
    unfold Layout.u8le
    rw [List.getElem?_eq_getElem (by omega)]
    rfl

theorem Reads.map {r : Reader α} {n : Nat} (h : Reads r n) (f : α → β) : Reads (fun b o => (r b o).map f) n where
  inside b o m hn hm := congrArg (Option.map f) (h.inside b o m hn hm)
  short b o hs := by rw [h.short b o hs]; rfl

theorem Fills.map {r : Reader α} {n : Nat} (h : Fills r n) (f : α → β) : Fills (fun b o => (r b o).map f) n where
  toReads := h.toReads.map f
  full b o hf := by
    rw [Option.isSome_map]
    exact h.full b o hf

theorem Fills.u16le : Fills u16le 2 := (Fills.bytes 2).map fromLe

theorem Fills.u32le : Fills u32le 4 := (Fills.bytes 4).map fromLe

theorem Fills.u64le : Fills u64le 8 := (Fills.bytes 8).map fromLe

theorem Fills.i64le : Fills i64le 8 := Fills.u64le.map toI64

theorem Reads.shift {r : Reader α} {n : Nat} (h : Reads r n) (k : Nat) : Reads (fun b o => r b (o + k)) (k + n) where
  inside b o m hn hm := by
    rw [h.inside b (o + k) (m - k) (by omega) (by omega), h.inside (window b o m) (0 + k) (m - k) (by omega)
      (by rw [length_window]; omega), window_window (by omega), Nat.zero_add]
  short b o hs := h.short b (o + k) (by omega)

theorem Fills.shift {r : Reader α} {n : Nat} (h : Fills r n) (k : Nat) : Fills (fun b o => r b (o + k)) (k + n) where
  toReads := h.toReads.shift k
  full b o hf := h.full b (o + k) (by omega)

theorem Reads.bind {r : Reader α} {s : α → Reader β} {n m : Nat} (hr : Reads r n) (hs : ∀ a, Reads (s a) m) :
    Reads (fun b o => r b o >>= fun a => s a b o) (max n m) where
  inside b o k hn hk := by
    simp only [hr.inside b o k (by omega) hk, (hs _).inside b o k (by omega) hk]
  short b o h := by
    by_cases hn : b.length < o + n
    · rw [hr.short b o hn]
      rfl
    · cases hrb : r b o with
      | none => rfl
      | some a => exact (hs a).short b o (by omega)

theorem Fills.bind {r : Reader α} {s : α → Reader β} {n m : Nat} (hr : Fills r n) (hs : ∀ a, Fills (s a) m) :
    Fills (fun b o => r b o >>= fun a => s a b o) (max n m) where
  toReads := hr.toReads.bind fun a => (hs a).toReads
  full b o h := by
    obtain ⟨a, ha⟩ := Option.isSome_iff_exists.mp (hr.full b o (by omega))
    rw [ha]
    exact (hs a).full b o (by omega)

/-- The last field of a decoder. -/
theorem Reads.last {r : Reader α} {n : Nat} (h : Reads r n) (f : α → β) :
    Reads (fun b o => r b o >>= fun a => some (f a)) n where
  inside b o m hn hm := by rw [h.inside b o m hn hm]
  short b o hs := by rw [h.short b o hs]; rfl

theorem Fills.last {r : Reader α} {n : Nat} (h : Fills r n) (f : α → β) :
    Fills (fun b o => r b o >>= fun a => some (f a)) n where
  toReads := h.toReads.last f
  full b o hf := by
    obtain ⟨a, ha⟩ := Option.isSome_iff_exists.mp (h.full b o hf)
    rw [ha]
    rfl

/-- Everything a decoder yields has a property. -/
def Yields (r : Reader α) (P : α → Prop) : Prop := ∀ b o a, r b o = some a → P a

theorem Yields.bind {r : Reader α} {s : α → Reader β} {P : β → Prop} (h : ∀ a, Yields (s a) P) :
    Yields (fun b o => r b o >>= fun a => s a b o) P := by
  intro b o c hc
  obtain ⟨a, -, ha⟩ := Option.bind_eq_some_iff.mp hc
  exact h a b o c ha

theorem Yields.last {r : Reader α} {f : α → β} {P : β → Prop} (h : ∀ a, P (f a)) :
    Yields (fun b o => r b o >>= fun a => some (f a)) P := by
  intro b o c hc
  obtain ⟨a, -, ha⟩ := Option.bind_eq_some_iff.mp hc
  cases ha
  exact h a

/-- A decoder that may refuse what it has read so far. -/
theorem Reads.guard {r : Reader α} {n : Nat} (c : Prop) [Decidable c] (h : Reads r n) :
    Reads (fun b o => if c then none else r b o) n where
  inside b o m hn hm := by
    split
    · rfl
    · exact h.inside b o m hn hm
  short b o hs := by
    split
    · rfl
    · exact h.short b o hs

end Layout
