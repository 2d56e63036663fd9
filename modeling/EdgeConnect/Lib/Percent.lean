import Mathlib.Data.List.Basic

/-!
# Percent-encoding of bytes

* `escape keep b` — a byte as it stands in a URL: itself where `keep` lets it stand, else `%XX`;
* `unescape` — the decoding of a text's bytes; what is no escape passes through;
* `unescape_escape` — an escaped byte is decoded whatever follows it; `unescape_escapes`: so are all of them;
* `forall_escape` — the characters an escaped byte is written with.
-/

set_option autoImplicit false

namespace Percent

/-! ## Digits -/

/-- A byte as a character. -/
def char (b : UInt8) : Char := Char.ofNat b.toNat

/-- A digit of `%02X`. -/
def hexDigit (n : Nat) : Char := if n < 10 then Char.ofNat (48 + n) else Char.ofNat (55 + n)

/-- `to_digit(16)`. -/
def digit16 (c : Char) : Option Nat :=
  if '0' ≤ c ∧ c ≤ '9' then some (c.toNat - 48)
  else if 'a' ≤ c ∧ c ≤ 'f' then some (c.toNat - 87)
  else if 'A' ≤ c ∧ c ≤ 'F' then some (c.toNat - 55)
  else none

theorem digit16_hexDigit : ∀ {n : Nat}, n < 16 → digit16 (hexDigit n) = some n := by decide

theorem hexDigit_isAlphanum : ∀ {n : Nat}, n < 16 → (hexDigit n).isAlphanum = true := by decide

theorem toNat_isAlphanum {c : Char} (h : c.isAlphanum = true) :
    48 ≤ c.toNat ∧ c.toNat ≤ 57 ∨ 65 ≤ c.toNat ∧ c.toNat ≤ 90 ∨ 97 ≤ c.toNat ∧ c.toNat ≤ 122 := by
  unfold Char.isAlphanum Char.isAlpha Char.isUpper Char.isLower Char.isDigit at h
  simp only [Bool.or_eq_true, Bool.and_eq_true, decide_eq_true_eq, UInt32.le_iff_toNat_le] at h
  have hnat : c.val.toNat = c.toNat := rfl
  simp only [hnat] at h
  rcases h with (h | h) | h
  · exact .inr (.inl h)
  · exact .inr (.inr h)
  · exact .inl h

/-! ## Text and bytes -/

/-- The UTF-8 of a text. -/
def utf8 (cs : List Char) : List UInt8 := cs.flatMap String.utf8EncodeChar

@[simp] theorem utf8_nil : utf8 [] = [] := rfl

theorem utf8_append (cs ds : List Char) : utf8 (cs ++ ds) = utf8 cs ++ utf8 ds := List.flatMap_append

theorem utf8EncodeChar_ascii {c : Char} (h : c.toNat < 128) : String.utf8EncodeChar c = [UInt8.ofNat c.toNat] := by
  have hval : c.val.toNat < 128 := h
  unfold String.utf8EncodeChar
  simp only
  rw [if_pos (by omega)]
  rfl

theorem utf8_cons_ascii {c : Char} (h : c.toNat < 128) (cs : List Char) :
    utf8 (c :: cs) = UInt8.ofNat c.toNat :: utf8 cs := by
  unfold utf8
  rw [List.flatMap_cons, utf8EncodeChar_ascii h]
  rfl

/-- A byte below 128 is an ASCII character's. -/
theorem toNat_of_mem_utf8EncodeChar (c : Char) : ∀ x ∈ String.utf8EncodeChar c, x.toNat < 128 → c.toNat = x.toNat := by
  have hnat : c.toNat = c.val.toNat := rfl
  have hhigh : ∀ {n : Nat}, 128 ≤ n → n < 256 → (UInt8.ofNat n).toNat < 128 → c.toNat = (UInt8.ofNat n).toNat := by
    intro n hlo hhi hascii
    rw [UInt8.toNat_ofNat', Nat.mod_eq_of_lt hhi] at hascii
    omega
  have hcont : ∀ n : Nat, (UInt8.ofNat (n % 64 + 128)).toNat < 128 → c.toNat = (UInt8.ofNat (n % 64 + 128)).toNat :=
    fun n => hhigh (by omega) (by omega)
  have hnil : ∀ x ∈ ([] : List UInt8), x.toNat < 128 → c.toNat = x.toNat := fun x hx => (by cases hx)
  unfold String.utf8EncodeChar
  simp only
  split
  · simp only [List.mem_singleton, forall_eq]
    intro _
    rw [hnat, UInt8.toNat_ofNat', Nat.mod_eq_of_lt (by omega)]
  · split
    · simp only [List.forall_mem_cons]
      exact ⟨hhigh (by omega) (by omega), hcont _, hnil⟩
    · split
      · simp only [List.forall_mem_cons]
        exact ⟨hhigh (by omega) (by omega), hcont _, hcont _, hnil⟩
      · simp only [List.forall_mem_cons]
        exact ⟨hhigh (by omega) (by omega), hcont _, hcont _, hcont _, hnil⟩

theorem toNat_char (b : UInt8) : (char b).toNat = b.toNat := by
  have hvalid : b.toNat.isValidChar := .inl (by have := b.toNat_lt; omega)
  unfold char Char.ofNat
  rw [dif_pos hvalid]
  rfl

theorem ofNat_toNat_char (b : UInt8) : UInt8.ofNat (char b).toNat = b := by
  rw [toNat_char, UInt8.ofNat_toNat]

theorem char_ofNat {c : Char} (h : c.toNat < 128) : char (UInt8.ofNat c.toNat) = c := by
  unfold char
  rw [UInt8.toNat_ofNat', Nat.mod_eq_of_lt (by omega), Char.ofNat_toNat]

/-! ## Escapes -/

def PERCENT : UInt8 := 0x25

/-- A byte of an encoded text. -/
def escape (keep : Char → Bool) (b : UInt8) : List Char :=
  if keep (char b) then [char b] else ['%', hexDigit (b.toNat / 16), hexDigit (b.toNat % 16)]

/-- The byte of two hex digits. -/
def hexByte (h l : UInt8) : Option UInt8 :=
  match digit16 (char h), digit16 (char l) with
  | some h, some l => some (UInt8.ofNat (h * 16 + l))
  | _, _ => none

/-- Each `%XX` becomes its byte; anything else passes through. -/
def unescape : List UInt8 → List UInt8
  | b :: h :: l :: rest =>
    match if b = PERCENT then hexByte h l else none with
    | some x => x :: unescape rest
    | none => b :: unescape (h :: l :: rest)
  | [b, h] => [b, h]
  | [b] => [b]
  | [] => []

theorem unescape_hex {h l x : UInt8} (hx : hexByte h l = some x) (rest : List UInt8) :
    unescape (PERCENT :: h :: l :: rest) = x :: unescape rest := by
  rw [unescape, if_pos rfl, hx]

/-- A byte that begins no escape passes through. -/
theorem unescape_pass {b : UInt8} {rest : List UInt8}
    (h : b = PERCENT → ∀ x y tail, rest = x :: y :: tail → hexByte x y = none) :
    unescape (b :: rest) = b :: unescape rest := by
  cases rest with
  | nil => rfl
  | cons x rest =>
    cases rest with
    | nil => rfl
    | cons y rest =>
      have hnone : (if b = PERCENT then hexByte x y else none) = none := by
        split
        · next hb => exact h hb x y rest rfl
        · rfl
      rw [unescape, hnone]

section

variable {keep : Char → Bool}

/-- **An escaped byte is decoded**, whatever follows it. -/
theorem unescape_escape (hkeep : ∀ c, keep c = true → c.toNat < 128 ∧ c ≠ '%') (b : UInt8) (rest : List UInt8) :
    unescape (utf8 (escape keep b) ++ rest) = b :: unescape rest := by
  unfold escape
  split
  · next hb =>
    obtain ⟨hascii, hpercent⟩ := hkeep _ hb
    rw [utf8_cons_ascii hascii, ofNat_toNat_char]
    refine unescape_pass fun heq => absurd ?_ hpercent
    rw [heq]
    rfl
  · have hb := b.toNat_lt
    have hlo : b.toNat % 16 < 16 := Nat.mod_lt _ (by omega)
    have hhi : b.toNat / 16 < 16 := by omega
    have hascii : ∀ {n : Nat}, n < 16 → (hexDigit n).toNat < 128 := by
      intro n hn
      have := toNat_isAlphanum (hexDigit_isAlphanum hn)
      omega
    have hbyte : hexByte (UInt8.ofNat (hexDigit (b.toNat / 16)).toNat) (UInt8.ofNat (hexDigit (b.toNat % 16)).toNat) =
        some b := by
      unfold hexByte
      rw [char_ofNat (hascii hhi), char_ofNat (hascii hlo), digit16_hexDigit hhi, digit16_hexDigit hlo]
      simp only
      rw [Nat.div_add_mod', UInt8.ofNat_toNat]
    rw [utf8_cons_ascii (by decide), utf8_cons_ascii (hascii hhi), utf8_cons_ascii (hascii hlo)]
    exact unescape_hex hbyte rest

theorem unescape_escapes (hkeep : ∀ c, keep c = true → c.toNat < 128 ∧ c ≠ '%') : ∀ bs : List UInt8,
    unescape (utf8 (bs.flatMap (escape keep))) = bs
  | [] => rfl
  | b :: bs => by rw [List.flatMap_cons, utf8_append, unescape_escape hkeep, unescape_escapes hkeep bs]

/-- What holds of the percent sign, of letters and digits, and of the characters that stand for themselves, holds of
all that an escaped byte is written with. -/
theorem forall_escape {P : Char → Prop} (hpercent : P '%') (halnum : ∀ c, c.isAlphanum = true → P c)
    (hkeep : ∀ c, keep c = true → P c) (b : UInt8) : ∀ c ∈ escape keep b, P c := by
  have hb := b.toNat_lt
  unfold escape
  split
  · next h =>
    simp only [List.mem_singleton, forall_eq]
    exact hkeep _ h
  · simp only [List.forall_mem_cons]
    refine ⟨hpercent, halnum _ (hexDigit_isAlphanum (by omega)), halnum _ (hexDigit_isAlphanum (by omega)), ?_⟩
    intro c hc
    cases hc

end

end Percent
