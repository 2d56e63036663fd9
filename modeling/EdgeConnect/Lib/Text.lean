import Mathlib.Data.List.SplitOn
import Mathlib.Data.List.DropRight
import Mathlib.Data.Nat.Notation
import Mathlib.Order.Basic

/-!
# Delimited text

Cutting a text at a separator, and unsigned decimal numerals.

* `splitOnce`, `rsplitOnce` — the parts before and after the first, or the last, occurrence of a character, each
  characterised by the text it came from;
* `split`, `trim` — all the parts between separators; a text without the white space around it;
* `parseUnsigned` — a numeral no larger than a bound, with `parseUnsigned_mono` in the bound, and
  `parseUnsigned_repr`: a number is read back from its decimal digits;
* `CaseMapping`, `toUppercase`, `eqIgnoreAsciiCase` — case folding.
-/

set_option autoImplicit false

namespace Text

/-! ## Cutting at a separator -/

/-- The characters before and after the first `c`. -/
def cut (c : Char) : List Char → Option (List Char × List Char)
  | [] => none
  | x :: xs => if x = c then some ([], xs) else (cut c xs).map fun p => (x :: p.1, p.2)

theorem cut_eq_none {c : Char} {s : List Char} : cut c s = none ↔ c ∉ s := by
  induction s with
  | nil => exact ⟨fun _ => List.not_mem_nil, fun _ => rfl⟩
  | cons x xs ih =>
    unfold cut
    by_cases hx : x = c
    · subst hx
      simp
    · rw [if_neg hx, Option.map_eq_none_iff, ih, List.mem_cons, not_or]
      exact ⟨fun h => ⟨Ne.symm hx, h⟩, And.right⟩

theorem cut_append {c : Char} {p : List Char} (q : List Char) (hp : c ∉ p) : cut c (p ++ c :: q) = some (p, q) := by
  induction p with
  | nil =>
    rw [List.nil_append, cut, if_pos rfl]
  | cons x xs ih =>
    rw [List.mem_cons, not_or] at hp
    rw [List.cons_append, cut, if_neg (Ne.symm hp.1), ih hp.2]
    rfl

theorem cut_eq_some {c : Char} {s p q : List Char} : cut c s = some (p, q) ↔ s = p ++ c :: q ∧ c ∉ p := by
  constructor
  · intro h
    induction s generalizing p with
    | nil => cases h
    | cons x xs ih =>
      unfold cut at h
      by_cases hx : x = c
      · rw [if_pos hx] at h
        cases h
        exact ⟨by rw [hx]; rfl, List.not_mem_nil⟩
      · rw [if_neg hx, Option.map_eq_some_iff] at h
        obtain ⟨⟨p', q'⟩, hcut, heq⟩ := h
        cases heq
        obtain ⟨rfl, hp⟩ := ih hcut
        exact ⟨rfl, fun hmem => (List.mem_cons.mp hmem).elim (fun h => hx h.symm) hp⟩
  · rintro ⟨rfl, hp⟩
    exact cut_append q hp

/-- `split_once`. -/
def splitOnce (c : Char) (s : String) : Option (String × String) :=
  (cut c s.toList).map fun p => (String.ofList p.1, String.ofList p.2)

/-- `rsplit_once`. -/
def rsplitOnce (c : Char) (s : String) : Option (String × String) :=
  (cut c s.toList.reverse).map fun p => (String.ofList p.2.reverse, String.ofList p.1.reverse)

theorem rsplitOnce_eq_none {c : Char} {s : String} : rsplitOnce c s = none ↔ c ∉ s.toList := by
  rw [rsplitOnce, Option.map_eq_none_iff, cut_eq_none, List.mem_reverse]

theorem splitOnce_eq_some {c : Char} {s p q : String} :
    splitOnce c s = some (p, q) ↔ s.toList = p.toList ++ c :: q.toList ∧ c ∉ p.toList := by
  rw [splitOnce, Option.map_eq_some_iff]
  constructor
  · rintro ⟨⟨p', q'⟩, hcut, heq⟩
    cases heq
    rw [String.toList_ofList, String.toList_ofList]
    exact cut_eq_some.mp hcut
  · intro h
    exact ⟨(p.toList, q.toList), cut_eq_some.mpr h, by rw [String.ofList_toList, String.ofList_toList]⟩

theorem rsplitOnce_eq_some {c : Char} {s p q : String} :
    rsplitOnce c s = some (p, q) ↔ s.toList = p.toList ++ c :: q.toList ∧ c ∉ q.toList := by
  rw [rsplitOnce, Option.map_eq_some_iff]
  constructor
  · rintro ⟨⟨q', p'⟩, hcut, heq⟩
    cases heq
    obtain ⟨hs, hq⟩ := cut_eq_some.mp hcut
    rw [String.toList_ofList, String.toList_ofList, List.mem_reverse]
    refine ⟨?_, hq⟩
    calc s.toList = s.toList.reverse.reverse := (List.reverse_reverse _).symm
      _ = p'.reverse ++ c :: q'.reverse := by rw [hs]; simp
  · rintro ⟨hs, hq⟩
    refine ⟨(q.toList.reverse, p.toList.reverse), cut_eq_some.mpr ⟨?_, by rwa [List.mem_reverse]⟩, ?_⟩
    · rw [hs]
      simp
    · simp only [List.reverse_reverse, String.ofList_toList]

/-- `split`: the parts between the separators. -/
def split (c : Char) (s : String) : List String := (s.toList.splitOn c).map String.ofList

/-- The characters of Unicode's `White_Space` property. -/
def isWhitespace (c : Char) : Bool :=
  let n := c.toNat
  (9 ≤ n && n ≤ 13) || n == 0x20 || n == 0x85 || n == 0xA0 || n == 0x1680 || (0x2000 ≤ n && n ≤ 0x200A) ||
    n == 0x2028 || n == 0x2029 || n == 0x202F || n == 0x205F || n == 0x3000

/-- `trim`. -/
def trim (s : String) : String := String.ofList ((s.toList.dropWhile isWhitespace).rdropWhile isWhitespace)

/-! ## Unsigned numerals -/

/-- The digits that remain, after `n`; none when one is no digit or the number passes the bound. -/
def digits (max : ℕ) : ℕ → List Char → Option ℕ
  | n, [] => some n
  | n, c :: cs =>
    if c.isDigit then
      let m := 10 * n + (c.toNat - '0'.toNat)
      if m ≤ max then digits max m cs else none
    else none

/-- `from_str` of an unsigned type: a `+` may stand before the digits. -/
def parseUnsigned (max : ℕ) (s : String) : Option ℕ :=
  match s.toList with
  | [] => none
  | c :: cs =>
    if c = '+' then if cs = [] then none else digits max 0 cs
    else digits max 0 (c :: cs)

theorem digits_eq_some {max n m : ℕ} {cs : List Char} (hn : n ≤ max) :
    digits max n cs = some m ↔
      (∀ c ∈ cs, c.isDigit) ∧ Nat.ofDigitChars 10 cs n = m ∧ m ≤ max := by
  induction cs generalizing n with
  | nil =>
    rw [digits, Nat.ofDigitChars_nil]
    constructor
    · intro h
      cases h
      exact ⟨nofun, rfl, hn⟩
    · rintro ⟨-, rfl, -⟩
      rfl
  | cons c cs ih =>
    rw [digits, Nat.ofDigitChars_cons]
    simp only [List.forall_mem_cons]
    by_cases hc : c.isDigit
    · rw [if_pos hc]
      by_cases hle : 10 * n + (c.toNat - '0'.toNat) ≤ max
      · rw [if_pos hle, ih hle]
        simp only [hc, true_and]
      · rw [if_neg hle]
        refine ⟨nofun, ?_⟩
        rintro ⟨-, rfl, hm⟩
        have hge : Nat.ofDigitChars 10 cs (10 * n + (c.toNat - '0'.toNat)) =
            10 ^ cs.length * (10 * n + (c.toNat - '0'.toNat)) + Nat.ofDigitChars 10 cs 0 :=
          Nat.ofDigitChars_eq_ofDigitChars_zero
        have hone : 1 ≤ 10 ^ cs.length := Nat.one_le_pow _ _ (by decide)
        have hmul := Nat.mul_le_mul hone (Nat.le_refl (10 * n + (c.toNat - '0'.toNat)))
        omega
    · rw [if_neg hc]
      exact ⟨nofun, fun h => absurd h.1.1 hc⟩

theorem parseUnsigned_le {max n : ℕ} {s : String} (h : parseUnsigned max s = some n) : n ≤ max := by
  have hdigits : ∀ cs, digits max 0 cs = some n → n ≤ max := fun cs hcs =>
    ((digits_eq_some (Nat.zero_le _)).mp hcs).2.2
  unfold parseUnsigned at h
  split at h
  · cases h
  · split_ifs at h
    · exact hdigits _ h
    · exact hdigits _ h

/-- A number within a bound is read within a larger one. -/
theorem parseUnsigned_mono {max max' n : ℕ} {s : String} (hmax : max ≤ max') (h : parseUnsigned max s = some n) :
    parseUnsigned max' s = some n := by
  have hdigits : ∀ cs, digits max 0 cs = some n → digits max' 0 cs = some n := by
    intro cs hcs
    obtain ⟨hall, hval, hle⟩ := (digits_eq_some (Nat.zero_le _)).mp hcs
    exact (digits_eq_some (Nat.zero_le _)).mpr ⟨hall, hval, hle.trans hmax⟩
  unfold parseUnsigned at h ⊢
  cases hs : s.toList with
  | nil =>
    rw [hs] at h
    cases h
  | cons c cs =>
    rw [hs] at h
    dsimp only at h ⊢
    split_ifs at h with hplus hnil
    · rw [if_pos hplus, if_neg hnil]
      exact hdigits cs h
    · rw [if_neg hplus]
      exact hdigits _ h

/-- The characters of a number are digits. -/
theorem isDigit_of_mem_repr {n : ℕ} {c : Char} (h : c ∈ n.repr.toList) : c.isDigit := by
  rw [Nat.toList_repr] at h
  exact Nat.isDigit_of_mem_toDigits (by decide) (by decide) h

/-- A number is read back from its digits. -/
theorem parseUnsigned_repr {max n : ℕ} (h : n ≤ max) : parseUnsigned max n.repr = some n := by
  have hall : ∀ c ∈ n.repr.toList, c.isDigit := fun c => isDigit_of_mem_repr
  have hval : Nat.ofDigitChars 10 n.repr.toList 0 = n := by
    rw [Nat.toList_repr, Nat.ofDigitChars_ten_toDigits]
  have hne : n.repr.toList ≠ [] := by
    rw [Nat.toList_repr]
    exact Nat.toDigits_ne_nil
  unfold parseUnsigned
  cases hs : n.repr.toList with
  | nil => exact absurd hs hne
  | cons c cs =>
    rw [hs] at hall hval
    have hplus : c ≠ '+' := by
      rintro rfl
      exact absurd (hall '+' List.mem_cons_self) (by decide)
    dsimp only
    rw [if_neg hplus, digits_eq_some (Nat.zero_le _)]
    exact ⟨hall, hval, h⟩

theorem repr_injective {n m : ℕ} (h : n.repr = m.repr) : n = m := by
  have hn := parseUnsigned_repr (le_max_left n m)
  rw [h, parseUnsigned_repr (le_max_right n m)] at hn
  exact (Option.some.inj hn).symm

/-! ## Case -/

/-- Unicode's uppercase mapping: its ASCII part is what ASCII has, and only a capital letter is an ASCII character
that it makes out of another one. -/
structure CaseMapping where
  upper : Char → List Char
  ascii : ∀ c : Char, c.toNat < 128 → upper c = [c.toUpper]
  capitals : ∀ c x : Char, x ∈ upper c → x.toNat < 128 → ¬ (65 ≤ x.toNat ∧ x.toNat ≤ 90) → c = x

/-- `to_uppercase`. -/
def toUppercase (u : CaseMapping) (s : String) : String := String.ofList (s.toList.flatMap u.upper)

/-- `eq_ignore_ascii_case`. -/
def eqIgnoreAsciiCase (s t : String) : Bool := s.toList.map Char.toLower = t.toList.map Char.toLower

@[simp] theorem eqIgnoreAsciiCase_refl (s : String) : eqIgnoreAsciiCase s s = true :=
  decide_eq_true rfl

theorem toNat_toLower (c : Char) :
    c.toLower.toNat = if 65 ≤ c.toNat ∧ c.toNat ≤ 90 then c.toNat + 32 else c.toNat := by
  have hcond : (c.val ≥ 'A'.val ∧ c.val ≤ 'Z'.val) ↔ (65 ≤ c.toNat ∧ c.toNat ≤ 90) := by
    simp only [ge_iff_le, UInt32.le_iff_toNat_le]
    rfl
  unfold Char.toLower
  by_cases h : 65 ≤ c.toNat ∧ c.toNat ≤ 90
  · rw [dif_pos (hcond.mpr h), if_pos h]
    show (c.val + ('a'.val - 'A'.val)).toNat = c.toNat + 32
    rw [UInt32.toNat_add]
    show (c.toNat + 32) % 2 ^ 32 = _
    omega
  · rw [dif_neg fun h' => h (hcond.mp h'), if_neg h]

theorem toNat_toUpper (c : Char) :
    c.toUpper.toNat = if 97 ≤ c.toNat ∧ c.toNat ≤ 122 then c.toNat - 32 else c.toNat := by
  have hcond : ('a'.val ≤ c.val ∧ c.val ≤ 'z'.val) ↔ (97 ≤ c.toNat ∧ c.toNat ≤ 122) := by
    simp only [UInt32.le_iff_toNat_le]
    rfl
  unfold Char.toUpper
  by_cases h : 97 ≤ c.toNat ∧ c.toNat ≤ 122
  · rw [dif_pos (hcond.mpr h), if_pos h]
    show (c.val + ('A'.val - 'a'.val)).toNat = c.toNat - 32
    rw [UInt32.toNat_add]
    show (c.toNat + 4294967264) % 2 ^ 32 = _
    omega
  · rw [dif_neg fun h' => h (hcond.mp h'), if_neg h]

/-- The mapping of a text without any letter but ASCII's. -/
def CaseMapping.basic : CaseMapping where
  upper c := [c.toUpper]
  ascii _ _ := rfl
  capitals c x hx _ hcap := by
    obtain rfl := List.mem_singleton.mp hx
    have hnat := toNat_toUpper c
    refine Char.toNat_inj.mp ?_
    split_ifs at hnat <;> omega

theorem toList_toUppercase (u : CaseMapping) (s : String) : (toUppercase u s).toList = s.toList.flatMap u.upper :=
  String.toList_ofList

/-- An ASCII character that is its own capital. -/
def isCapital (c : Char) : Bool :=
  c.toNat < 128 && c.toUpper == c

theorem isCapital_iff {c : Char} : isCapital c = true ↔ c.toNat < 128 ∧ c.toUpper = c := by
  simp [isCapital]

/-- A text of ASCII characters that are their own capitals is its own uppercase. -/
theorem toUppercase_of_ascii {u : CaseMapping} {s : String}
    (h : ∀ c ∈ s.toList, c.toNat < 128 ∧ c.toUpper = c) : toUppercase u s = s := by
  rw [← String.toList_inj, toList_toUppercase]
  revert h
  induction s.toList with
  | nil => exact fun _ => rfl
  | cons c cs ih =>
    intro h
    obtain ⟨⟨hascii, hupper⟩, hcs⟩ := List.forall_mem_cons.mp h
    rw [List.flatMap_cons, ih hcs, u.ascii c hascii, hupper]
    rfl

theorem toUppercase_of_capitals {u : CaseMapping} {s : String}
    (h : s.toList.all isCapital = true) : toUppercase u s = s :=
  toUppercase_of_ascii fun c hc => isCapital_iff.mp (List.all_eq_true.mp h c hc)

/-- An ASCII character that is no capital letter is in an uppercase only if it was in the text. -/
theorem mem_of_mem_toUppercase {u : CaseMapping} {s : String} {x : Char} (hascii : x.toNat < 128)
    (hcap : ¬ (65 ≤ x.toNat ∧ x.toNat ≤ 90)) (hx : x ∈ (toUppercase u s).toList) : x ∈ s.toList := by
  rw [toList_toUppercase, List.mem_flatMap] at hx
  obtain ⟨c, hc, hxc⟩ := hx
  exact u.capitals c x hxc hascii hcap ▸ hc

/-- A text that is its own uppercase has no small ASCII letter. -/
theorem not_small {u : CaseMapping} {s : String} (h : toUppercase u s = s) {c : Char} (hc : c ∈ s.toList) :
    ¬ (97 ≤ c.toNat ∧ c.toNat ≤ 122) := by
  intro hsmall
  rw [← h, toList_toUppercase, List.mem_flatMap] at hc
  obtain ⟨c', -, hc'⟩ := hc
  obtain rfl := u.capitals c' c hc' (by omega) (by omega)
  rw [u.ascii c' (by omega), List.mem_singleton] at hc'
  have hnat := toNat_toUpper c'
  rw [if_pos hsmall, ← hc'] at hnat
  omega

theorem map_toLower_inj {s t : List Char} (hs : ∀ c ∈ s, ¬ (97 ≤ c.toNat ∧ c.toNat ≤ 122))
    (ht : ∀ c ∈ t, ¬ (97 ≤ c.toNat ∧ c.toNat ≤ 122)) (h : s.map Char.toLower = t.map Char.toLower) : s = t := by
  induction s generalizing t with
  | nil => exact (List.map_eq_nil_iff.mp h.symm).symm
  | cons c s ih =>
    cases t with
    | nil => cases h
    | cons d t =>
      obtain ⟨hcd, htail⟩ := List.cons.inj h
      obtain ⟨hc, hs⟩ := List.forall_mem_cons.mp hs
      obtain ⟨hd, ht⟩ := List.forall_mem_cons.mp ht
      have hnat := congrArg Char.toNat hcd
      rw [toNat_toLower, toNat_toLower] at hnat
      have heq : c = d := Char.toNat_inj.mp (by split_ifs at hnat <;> omega)
      rw [heq, ih hs ht htail]

/-- Two texts that are their own uppercases and differ in ASCII case only are equal. -/
theorem eq_of_eqIgnoreAsciiCase {u : CaseMapping} {s t : String} (hs : toUppercase u s = s) (ht : toUppercase u t = t)
    (h : eqIgnoreAsciiCase s t = true) : s = t :=
  String.toList_inj.mp <| map_toLower_inj (fun _ => not_small hs) (fun _ => not_small ht) (of_decide_eq_true h)

/-- Case folding neither makes nor removes a character that is no ASCII letter. -/
theorem mem_of_eqIgnoreAsciiCase {s t : String} {x : Char} (hcap : ¬ (65 ≤ x.toNat ∧ x.toNat ≤ 90))
    (hsmall : ¬ (97 ≤ x.toNat ∧ x.toNat ≤ 122)) (h : eqIgnoreAsciiCase s t = true) (hx : x ∈ s.toList) :
    x ∈ t.toList := by
  have hmem := List.mem_map_of_mem (f := Char.toLower) hx
  rw [of_decide_eq_true h, List.mem_map] at hmem
  obtain ⟨y, hy, hyx⟩ := hmem
  have hnat := congrArg Char.toNat hyx
  rw [toNat_toLower, toNat_toLower, if_neg hcap] at hnat
  have heq : y = x := Char.toNat_inj.mp (by split_ifs at hnat <;> omega)
  exact heq ▸ hy

end Text
