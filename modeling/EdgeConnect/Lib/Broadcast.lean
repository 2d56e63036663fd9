import Mathlib.Data.List.Basic

/-!
# One receiver of a bounded broadcast

A `Receiver α` is what one reader of a bounded broadcast channel has still to read.  A send to a full
receiver discards the oldest message, and the reader is told of the loss, once, before it reads on.

* `send`, `recv` — the two ends;
* `send_cases` — a send appends, after the loss of the head or of nothing;
* `Kept` — a reader still to be told of a loss has something to read.
-/

set_option autoImplicit false

/-- The messages a reader has still to read, and whether it lost some it has not been told of. -/
structure Receiver (α : Type*) where
  buf : List α
  missed : Bool

/-- What a reader is handed. -/
inductive Received (α : Type*) where
  | message (x : α)
  | lagged
  | nothing

namespace Receiver

variable {α : Type*}

/-- A receiver that was just subscribed. -/
def fresh : Receiver α := ⟨[], false⟩

def send (capacity : Nat) (r : Receiver α) (x : α) : Receiver α :=
  if r.buf.length < capacity then { r with buf := r.buf ++ [x] } else ⟨r.buf.tail ++ [x], true⟩

def recv (r : Receiver α) : Receiver α × Received α :=
  if r.missed then ({ r with missed := false }, .lagged)
  else
    match r.buf with
    | [] => (r, .nothing)
    | x :: buf => ({ r with buf := buf }, .message x)

variable {capacity : Nat} {r : Receiver α} {x : α}

theorem send_of_lt (h : r.buf.length < capacity) : r.send capacity x = { r with buf := r.buf ++ [x] } :=
  if_pos h

theorem send_cases (capacity : Nat) (r : Receiver α) (x : α) :
    r.send capacity x = ⟨r.buf ++ [x], r.missed⟩ ∨ r.send capacity x = ⟨r.buf.tail ++ [x], true⟩ := by
  unfold send
  split
  · exact Or.inl rfl
  · exact Or.inr rfl

theorem mem_send {y : α} (h : y ∈ (r.send capacity x).buf) : y ∈ r.buf ∨ y = x := by
  rcases send_cases capacity r x with hs | hs
  · rw [hs] at h
    exact (List.mem_append.mp h).imp_right List.mem_singleton.mp
  · rw [hs] at h
    exact (List.mem_append.mp h).imp List.mem_of_mem_tail List.mem_singleton.mp

theorem recv_cases (r : Receiver α) :
    (r.missed = true ∧ r.recv = (⟨r.buf, false⟩, .lagged)) ∨
      (r.missed = false ∧ r.buf = [] ∧ r.recv = (r, .nothing)) ∨
      ∃ x buf, r.missed = false ∧ r.buf = x :: buf ∧ r.recv = (⟨buf, false⟩, .message x) := by
  obtain ⟨buf, missed⟩ := r
  cases missed with
  | true => exact Or.inl ⟨rfl, rfl⟩
  | false =>
    right
    cases buf with
    | nil => exact Or.inl ⟨rfl, rfl, rfl⟩
    | cons x buf => exact Or.inr ⟨x, buf, rfl, rfl, rfl⟩

/-- A reader that is to be told of a loss has something to read. -/
def Kept (r : Receiver α) : Prop := r.missed = true → r.buf ≠ []

theorem kept_fresh : (fresh : Receiver α).Kept := nofun

theorem kept_send (capacity : Nat) (r : Receiver α) (x : α) : (r.send capacity x).Kept := by
  rcases send_cases capacity r x with hs | hs
  · rw [hs]
    exact fun _ => List.append_ne_nil_of_right_ne_nil _ (List.cons_ne_nil x [])
  · rw [hs]
    exact fun _ => List.append_ne_nil_of_right_ne_nil _ (List.cons_ne_nil x [])

theorem Kept.recv (h : r.Kept) : r.recv.1.Kept := by
  rcases recv_cases r with ⟨-, hr⟩ | ⟨-, -, hr⟩ | ⟨x, buf, -, -, hr⟩
  · rw [hr]
    exact nofun
  · rw [hr]
    exact h
  · rw [hr]
    exact nofun

end Receiver
