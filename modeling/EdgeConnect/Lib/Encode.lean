import EdgeConnect.Lib.Layout
import Mathlib.Data.List.Pairwise
import Mathlib.Tactic.Ring

/-!
# Encoders of fixed byte layouts

The writers that the decoders of `Layout` read back.

* `toLe`, `ofI64`, `ofI8` — the little-endian bytes of a number, and the unsigned images of signed ones;
* `put`, `puts` — bytes written into a buffer at an offset, and one write after another; `window_puts`: writes that
  do not meet are all there at the end;
* `Holds b o xs` — a buffer has some bytes at an offset;
* `Recovers xs r a` — the decoder `r` reads `a` wherever a buffer holds `xs`; `Recovers.bind`, `Recovers.u16le`, … —
  a record is recovered field by field.
-/

set_option autoImplicit false

namespace Layout

/-! ## Numbers -/

/-- The `n` low bytes of a number, the least significant first. -/
def toLe : Nat → Nat → List UInt8
  | 0, _ => []
  | n + 1, v => UInt8.ofNat v :: toLe n (v / 256)

@[simp] theorem length_toLe : ∀ n v : Nat, (toLe n v).length = n
  | 0, _ => rfl
  | n + 1, v => congrArg (· + 1) (length_toLe n (v / 256))

theorem fromLe_toLe : ∀ {n v : Nat}, v < 256 ^ n → fromLe (toLe n v) = v
  | 0, v, h => by
    rw [pow_zero] at h
    exact (Nat.lt_one_iff.mp h).symm
  | n + 1, v, h => by
    have hrest : v / 256 < 256 ^ n := by
      refine Nat.div_lt_of_lt_mul ?_
      calc v < 256 ^ (n + 1) := h
        _ = 256 * 256 ^ n := by ring
    show (UInt8.ofNat v).toNat + 256 * fromLe (toLe n (v / 256)) = v
    rw [fromLe_toLe hrest, UInt8.toNat_ofNat']
    omega

/-- A signed number of 64 bits as an unsigned one. -/
def ofI64 (i : Int) : Nat := (i % 2 ^ 64).toNat

/-- A signed number of 8 bits as a byte. -/
def ofI8 (i : Int) : UInt8 := UInt8.ofNat (i % 2 ^ 8).toNat

theorem ofI64_lt (i : Int) : ofI64 i < 2 ^ 64 := by
  unfold ofI64
  omega

theorem toI64_ofI64 {i : Int} (hlo : -2 ^ 63 ≤ i) (hhi : i < 2 ^ 63) : toI64 (ofI64 i) = i := by
  unfold toI64 ofI64
  split <;> omega

theorem toI8_ofI8 {i : Int} (hlo : -2 ^ 7 ≤ i) (hhi : i < 2 ^ 7) : toI8 (ofI8 i) = i := by
  have hbyte : (ofI8 i).toNat = (i % 2 ^ 8).toNat := by
    unfold ofI8
    rw [UInt8.toNat_ofNat']
    omega
  unfold toI8
  rw [hbyte]
  split <;> omega

/-! ## Writes -/

/-- The buffer with some of its bytes, from `o` on, replaced. -/
def put (b : List UInt8) (o : Nat) (xs : List UInt8) : List UInt8 := b.take o ++ xs ++ b.drop (o + xs.length)

def puts (b : List UInt8) : List (Nat × List UInt8) → List UInt8
  | [] => b
  | w :: ws => puts (put b w.1 w.2) ws

section Writes

variable {b xs : List UInt8} {o k n : Nat}

theorem length_put (h : o + xs.length ≤ b.length) : (put b o xs).length = b.length := by
  unfold put
  rw [List.length_append, List.length_append, List.length_take, List.length_drop]
  omega

theorem window_put (h : o + xs.length ≤ b.length) : window (put b o xs) o xs.length = xs := by
  unfold window put
  have hlen : (b.take o).length = o := by rw [List.length_take]; omega
  rw [List.append_assoc, List.drop_left' hlen, List.take_left' rfl]

/-- A write leaves every range it does not meet. -/
theorem window_put_of_disjoint (h : o + xs.length ≤ b.length) (hd : k + n ≤ o ∨ o + xs.length ≤ k) :
    window (put b o xs) k n = window b k n := by
  refine window_congr fun j hj hj' => ?_
  have hlen : (b.take o).length = o := by rw [List.length_take]; omega
  unfold put
  rcases hd with hd | hd
  · rw [List.append_assoc, List.getElem?_append_left (by omega), List.getElem?_take_of_lt (by omega)]
  · have hpre : (b.take o ++ xs).length = o + xs.length := by rw [List.length_append, hlen]
    rw [List.getElem?_append_right (by omega), hpre, List.getElem?_drop]
    congr 1
    omega

/-- Every write lies within the buffer. -/
def Fit (b : List UInt8) (ws : List (Nat × List UInt8)) : Prop := ∀ w ∈ ws, w.1 + w.2.length ≤ b.length

/-- Two writes do not meet. -/
def Apart (w w' : Nat × List UInt8) : Prop := w.1 + w.2.length ≤ w'.1 ∨ w'.1 + w'.2.length ≤ w.1

theorem Fit.tail {w : Nat × List UInt8} {ws : List (Nat × List UInt8)} (h : Fit b (w :: ws)) :
    Fit (put b w.1 w.2) ws := by
  intro w' hw'
  rw [length_put (h w List.mem_cons_self)]
  exact h w' (List.mem_cons_of_mem _ hw')

theorem length_puts : ∀ {ws : List (Nat × List UInt8)} {b : List UInt8}, Fit b ws → (puts b ws).length = b.length
  | [], _, _ => rfl
  | w :: _, _, h => (length_puts h.tail).trans (length_put (h w List.mem_cons_self))

/-- Writes leave every range that none of them meets. -/
theorem window_puts_of_disjoint : ∀ {ws : List (Nat × List UInt8)} {b : List UInt8}, Fit b ws →
    (∀ w ∈ ws, k + n ≤ w.1 ∨ w.1 + w.2.length ≤ k) → window (puts b ws) k n = window b k n
  | [], _, _, _ => rfl
  | w :: _, _, h, hd =>
    (window_puts_of_disjoint h.tail fun w' hw' => hd w' (List.mem_cons_of_mem _ hw')).trans
      (window_put_of_disjoint (h w List.mem_cons_self) (hd w List.mem_cons_self))

/-- **Writes that do not meet are all there at the end.** -/
theorem window_puts : ∀ {ws : List (Nat × List UInt8)} {b : List UInt8}, Fit b ws → ws.Pairwise Apart →
    ∀ w ∈ ws, window (puts b ws) w.1 w.2.length = w.2
  | [], _, _, _, w, hw => by cases hw
  | v :: ws, b, h, hp, w, hw => by
    obtain ⟨hapart, hp⟩ := List.pairwise_cons.mp hp
    rcases List.mem_cons.mp hw with rfl | hw
    · -- the later writes leave this one's range
      refine (window_puts_of_disjoint h.tail fun w' hw' => hapart w' hw').trans ?_
      exact window_put (h w List.mem_cons_self)
    · exact window_puts h.tail hp w hw

theorem window_add (b : List UInt8) (k m n : Nat) : window b k (m + n) = window b k m ++ window b (k + m) n := by
  unfold window
  rw [List.take_add, List.drop_drop]

/-- **A padded field is the write in it and the padding**, where no other write meets it. -/
theorem window_puts_padded {x : UInt8} {size len : Nat} {ws : List (Nat × List UInt8)}
    (hfit : Fit (List.replicate size x) ws) (hapart : ws.Pairwise Apart) (hw : (k, xs) ∈ ws) (hlen : xs.length ≤ len)
    (hroom : k + len ≤ size) (hfree : ∀ w ∈ ws, w = (k, xs) ∨ k + len ≤ w.1 ∨ w.1 + w.2.length ≤ k) :
    window (puts (List.replicate size x) ws) k len = xs ++ List.replicate (len - xs.length) x := by
  have hpad : window (puts (List.replicate size x) ws) (k + xs.length) (len - xs.length) =
      List.replicate (len - xs.length) x := by
    rw [window_puts_of_disjoint hfit fun w hw => ?_]
    · unfold window
      rw [List.drop_replicate, List.take_replicate]
      congr 1
      omega
    · rcases hfree w hw with rfl | h | h
      · exact .inr le_rfl
      · exact .inl (by omega)
      · exact .inr (by omega)
  have hsplit := window_add (puts (List.replicate size x) ws) k xs.length (len - xs.length)
  rw [hpad, window_puts hfit hapart _ hw, Nat.add_sub_cancel' hlen] at hsplit
  exact hsplit

end Writes

/-! ## Reading back -/

/-- A buffer has some bytes at an offset. -/
def Holds (b : List UInt8) (o : Nat) (xs : List UInt8) : Prop := window b o xs.length = xs

theorem Holds.fits {b xs : List UInt8} {o : Nat} (h : Holds b o xs) (hne : xs ≠ []) : o + xs.length ≤ b.length := by
  have hlen := length_window b o xs.length
  rw [h] at hlen
  have := List.length_pos_of_ne_nil hne
  omega

theorem Holds.window {b xs ys : List UInt8} {o k : Nat} (h : Holds b o xs) (hk : window xs k ys.length = ys)
    (hfit : k + ys.length ≤ xs.length) : Holds b (o + k) ys := by
  unfold Holds at h ⊢
  rw [← window_window hfit, h, hk]

theorem Holds.left {b xs ys : List UInt8} {o : Nat} (h : Holds b o (xs ++ ys)) : Holds b o xs := by
  refine h.window (k := 0) ?_ (by rw [List.length_append]; omega)
  exact List.take_left' rfl

theorem Holds.right {b xs ys : List UInt8} {o : Nat} (h : Holds b o (xs ++ ys)) : Holds b (o + xs.length) ys := by
  refine h.window ?_ (by rw [List.length_append])
  unfold Layout.window
  rw [List.drop_left' rfl, List.take_of_length_le le_rfl]

theorem holds_self (xs : List UInt8) : Holds xs 0 xs := List.take_of_length_le le_rfl

theorem holds_append (xs ys : List UInt8) : Holds (xs ++ ys) xs.length ys := by
  have h := (holds_self (xs ++ ys)).right
  rwa [Nat.zero_add] at h

/-- The bytes of a buffer that holds some. -/
theorem Holds.getElem? {b xs : List UInt8} {o k : Nat} (h : Holds b o xs) (hk : k < xs.length) :
    b[o + k]? = xs[k]? := by
  rw [← getElem?_window hk, show Layout.window b o xs.length = xs from h]

variable {α β : Type}

/-- Wherever a buffer holds `xs`, the decoder reads `a`. -/
def Recovers (xs : List UInt8) (r : Reader α) (a : α) : Prop := ∀ b o, Holds b o xs → r b o = some a

namespace Recovers

variable {xs ys : List UInt8} {r : Reader α} {a : α} {k : Nat}

/-- What is recovered from some bytes is recovered where they are part of others. -/
theorem field (k : Nat) (h : Recovers ys r a) (hne : ys ≠ []) (hk : window xs k ys.length = ys) :
    Recovers xs (fun b o => r b (o + k)) a := by
  intro b o hb
  have hfit : k + ys.length ≤ xs.length := Holds.fits hk hne
  exact h b (o + k) (hb.window hk hfit)

theorem bytes (hne : xs ≠ []) : Recovers xs (bytes xs.length) xs := by
  intro b o hb
  unfold Layout.bytes
  rw [if_pos (hb.fits hne)]
  exact congrArg some hb

theorem map {f : α → β} (h : Recovers xs r a) : Recovers xs (fun b o => (r b o).map f) (f a) :=
  fun b o hb => congrArg (Option.map f) (h b o hb)

/-- A number is recovered from its bytes. -/
theorem le {n v : Nat} (hn : n ≠ 0) (hv : v < 256 ^ n) :
    Recovers (toLe n v) (fun b o => (Layout.bytes n b o).map fromLe) v := by
  intro b o hb
  have hne : toLe n v ≠ [] := fun h => hn (by rw [← length_toLe n v, h]; rfl)
  have hbytes := Recovers.bytes hne b o hb
  rw [length_toLe] at hbytes
  show (Layout.bytes n b o).map fromLe = some v
  rw [hbytes, Option.map_some, fromLe_toLe hv]

theorem u8le {x : UInt8} (k : Nat) (hk : window xs k 1 = [x]) : Recovers xs (fun b o => u8le b (o + k)) x := by
  have h : Recovers [x] Layout.u8le x := fun b o hb => hb.getElem? (k := 0) Nat.one_pos
  exact h.field k (List.cons_ne_nil _ _) hk

theorem u16le {v : Nat} (k : Nat) (hv : v < 2 ^ 16) (hk : window xs k 2 = toLe 2 v) :
    Recovers xs (fun b o => u16le b (o + k)) v :=
  field k (le (by decide) hv) (List.cons_ne_nil _ _) hk

theorem u32le {v : Nat} (k : Nat) (hv : v < 2 ^ 32) (hk : window xs k 4 = toLe 4 v) :
    Recovers xs (fun b o => u32le b (o + k)) v :=
  field k (le (by decide) hv) (List.cons_ne_nil _ _) hk

theorem u64le {v : Nat} (k : Nat) (hv : v < 2 ^ 64) (hk : window xs k 8 = toLe 8 v) :
    Recovers xs (fun b o => u64le b (o + k)) v :=
  field k (le (by decide) hv) (List.cons_ne_nil _ _) hk

theorem i64le {i : Int} (k : Nat) (hi : -2 ^ 63 ≤ i ∧ i < 2 ^ 63) (hk : window xs k 8 = toLe 8 (ofI64 i)) :
    Recovers xs (fun b o => i64le b (o + k)) i := by
  have h := (u64le k (ofI64_lt i) hk).map (f := toI64)
  rwa [toI64_ofI64 hi.1 hi.2] at h

theorem bind {s : α → Reader β} {c : β} (hr : Recovers xs r a) (hs : Recovers xs (s a) c) :
    Recovers xs (fun b o => r b o >>= fun a => s a b o) c := by
  intro b o hb
  show (r b o >>= fun a => s a b o) = some c
  rw [hr b o hb]
  exact hs b o hb

/-- The last field of a record. -/
theorem last {f : α → β} (h : Recovers xs r a) : Recovers xs (fun b o => r b o >>= fun a => some (f a)) (f a) := by
  intro b o hb
  show (r b o >>= fun a => some (f a)) = some (f a)
  rw [h b o hb]
  rfl

/-- A decoder that does not refuse what it has read so far. -/
theorem guard {c : Prop} [Decidable c] (hc : ¬ c) (h : Recovers xs r a) :
    Recovers xs (fun b o => if c then none else r b o) a := by
  intro b o hb
  show (if c then none else r b o) = some a
  rw [if_neg hc]
  exact h b o hb

end Recovers

end Layout
