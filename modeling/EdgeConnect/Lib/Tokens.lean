import EdgeConnect.Lib.Text

/-!
# Tokens, words and lines of a text

* `Blank` — a text of white space; `trim_around`: blanks around a text do not change what `trim` leaves;
* `tokens` — the trimmed parts between separators that are not empty; `tokens_intercalate`, `tokens_append_blank`:
  what joining parts, and blanks around a text, do to its tokens;
* `words` — the parts between white space; `words_cons`: the first of them;
* `lines` — the lines of a text, each without its ending; `lines_head`: the first of them.
-/

set_option autoImplicit false

namespace Text

/-! ## Blanks -/

/-- A text of white space. -/
def Blank (s : String) : Prop := ∀ c ∈ s.toList, isWhitespace c = true

section Trim

variable {b b' s t : String} {c : Char}

theorem toList_trim (s : String) : (trim s).toList = (s.toList.dropWhile isWhitespace).rdropWhile isWhitespace :=
  String.toList_ofList

theorem rdropWhile_append_blank {l r : List Char} (h : ∀ x ∈ r, isWhitespace x = true) :
    (l ++ r).rdropWhile isWhitespace = l.rdropWhile isWhitespace := by
  unfold List.rdropWhile
  rw [List.reverse_append, List.dropWhile_append_of_pos fun x hx => h x (List.mem_reverse.mp hx)]

theorem trim_blank (h : Blank b) : trim b = "" := by
  rw [← String.toList_inj, toList_trim, List.dropWhile_eq_nil_iff.mpr h]
  rfl

/-- Blanks around a text are trimmed with it. -/
theorem trim_around (hb : Blank b) (hb' : Blank b') : trim (b ++ s ++ b') = trim s := by
  rw [← String.toList_inj, toList_trim, toList_trim, String.toList_append, String.toList_append, List.append_assoc,
    List.dropWhile_append_of_pos hb, List.dropWhile_append]
  split
  · rename_i hall
    rw [List.isEmpty_iff] at hall
    rw [hall, List.dropWhile_eq_nil_iff.mpr hb']
  · exact rdropWhile_append_blank hb'

theorem trim_append_blank (hb : Blank b) : trim (s ++ b) = trim s := by
  have h : trim ("" ++ s ++ b) = trim s := trim_around (fun _ hc => by cases hc) hb
  rwa [String.empty_append] at h

theorem trim_blank_append (hb : Blank b) : trim (b ++ s) = trim s := by
  have h : trim (b ++ s ++ "") = trim s := trim_around hb fun _ hc => by cases hc
  rwa [String.append_empty] at h

/-- Trimming two texts around a character that is no white space trims the outer ends of both. -/
theorem toList_trim_cut (hc : isWhitespace c = false) {p q : List Char} (hs : s.toList = p ++ c :: q) :
    (trim s).toList = p.dropWhile isWhitespace ++ c :: q.rdropWhile isWhitespace := by
  have hleft : (p ++ c :: q).dropWhile isWhitespace = p.dropWhile isWhitespace ++ c :: q := by
    rw [List.dropWhile_append]
    split
    · rename_i hall
      rw [List.isEmpty_iff] at hall
      rw [hall, List.dropWhile_cons_of_neg (by rw [hc]; exact Bool.false_ne_true)]
      rfl
    · rfl
  have hright : ∀ l : List Char, (l ++ c :: q).rdropWhile isWhitespace = l ++ c :: q.rdropWhile isWhitespace := by
    intro l
    unfold List.rdropWhile
    rw [List.reverse_append, List.reverse_cons, List.append_assoc, List.dropWhile_append]
    split
    · rename_i hall
      rw [List.isEmpty_iff] at hall
      rw [hall, List.singleton_append, List.dropWhile_cons_of_neg (by rw [hc]; exact Bool.false_ne_true)]
      simp
    · simp
  rw [toList_trim, hs, hleft, hright]

end Trim

/-! ## Tokens -/

/-- The parts between separators, without the white space around them; an empty one is none. -/
def tokens (c : Char) (s : String) : List String := ((split c s).map trim).filter fun t => t ≠ ""

section Tokens

variable {c : Char} {b b' p q s sep : String}

theorem splitOnce_eq_none : splitOnce c s = none ↔ c ∉ s.toList := by
  rw [splitOnce, Option.map_eq_none_iff, cut_eq_none]

theorem split_of_notMem (h : c ∉ s.toList) : split c s = [s] := by
  unfold split
  rw [List.splitOn_eq_singleton h, List.map_singleton, String.ofList_toList]

theorem split_cut (h : s.toList = p.toList ++ c :: q.toList) : split c s = split c p ++ split c q := by
  unfold split
  rw [h, List.splitOn_append_cons_self, List.map_append]

theorem tokens_of_notMem (h : c ∉ s.toList) : tokens c s = if trim s = "" then [] else [trim s] := by
  unfold tokens
  rw [split_of_notMem h, List.map_singleton]
  by_cases hs : trim s = "" <;> simp [hs]

/-- The tokens before a separator, and those after it. -/
theorem tokens_cut (h : s.toList = p.toList ++ c :: q.toList) : tokens c s = tokens c p ++ tokens c q := by
  unfold tokens
  rw [split_cut h, List.map_append, List.filter_append]

theorem Blank.notMem (hc : isWhitespace c = false) (hb : Blank b) : c ∉ b.toList := by
  intro hmem
  rw [hb c hmem] at hc
  cases hc

theorem tokens_blank (hc : isWhitespace c = false) (hb : Blank b) : tokens c b = [] := by
  rw [tokens_of_notMem (hb.notMem hc), if_pos (trim_blank hb)]

theorem tokens_append_blank (hc : isWhitespace c = false) (hb : Blank b) : tokens c (s ++ b) = tokens c s := by
  have hsep := hb.notMem hc
  have hwhole : ∀ q : String, c ∉ q.toList → tokens c (q ++ b) = tokens c q := by
    intro q hq
    have hqb : c ∉ (q ++ b).toList := by
      rw [String.toList_append, List.mem_append, not_or]
      exact ⟨hq, hsep⟩
    rw [tokens_of_notMem hqb, tokens_of_notMem hq, trim_append_blank hb]
  -- only the part after the last separator is touched
  cases hcut : rsplitOnce c s with
  | none => exact hwhole s (rsplitOnce_eq_none.mp hcut)
  | some parts =>
    obtain ⟨p, q⟩ := parts
    obtain ⟨hs, hq⟩ := rsplitOnce_eq_some.mp hcut
    have hsb : (s ++ b).toList = p.toList ++ c :: (q ++ b).toList := by
      rw [String.toList_append, hs, String.toList_append, List.append_assoc, List.cons_append]
    rw [tokens_cut hsb, tokens_cut hs, hwhole q hq]

theorem tokens_blank_append (hc : isWhitespace c = false) (hb : Blank b) : tokens c (b ++ s) = tokens c s := by
  have hsep := hb.notMem hc
  have hwhole : ∀ p : String, c ∉ p.toList → tokens c (b ++ p) = tokens c p := by
    intro p hp
    have hbp : c ∉ (b ++ p).toList := by
      rw [String.toList_append, List.mem_append, not_or]
      exact ⟨hsep, hp⟩
    rw [tokens_of_notMem hbp, tokens_of_notMem hp, trim_blank_append hb]
  cases hcut : splitOnce c s with
  | none => exact hwhole s (splitOnce_eq_none.mp hcut)
  | some parts =>
    obtain ⟨p, q⟩ := parts
    obtain ⟨hs, hp⟩ := splitOnce_eq_some.mp hcut
    have hbs : (b ++ s).toList = (b ++ p).toList ++ c :: q.toList := by
      rw [String.toList_append, hs, String.toList_append, List.append_assoc]
    rw [tokens_cut hbs, tokens_cut hs, hwhole p hp]

theorem toList_intercalate (hsep : sep.toList = [c]) (s t : String) (items : List String) :
    (sep.intercalate (s :: t :: items)).toList = s.toList ++ c :: (sep.intercalate (t :: items)).toList := by
  rw [String.intercalate_cons_cons, String.toList_append, String.toList_append, hsep, List.append_assoc,
    List.singleton_append]

/-- Parts joined by the separator are split into the parts of each. -/
theorem split_intercalate (hsep : sep.toList = [c]) : ∀ {items : List String}, items ≠ [] →
    split c (sep.intercalate items) = items.flatMap (split c)
  | [s], _ => by rw [String.intercalate_singleton, List.flatMap_singleton]
  | s :: t :: items, _ => by
    rw [split_cut (toList_intercalate hsep s t items), split_intercalate hsep (List.cons_ne_nil t items)]
    rfl

/-- Parts joined by the separator have the tokens of the parts. -/
theorem tokens_intercalate (hsep : sep.toList = [c]) : ∀ items : List String,
    tokens c (sep.intercalate items) = items.flatMap (tokens c)
  | [] => rfl
  | [s] => by rw [String.intercalate_singleton, List.flatMap_singleton]
  | s :: t :: items => by
    rw [tokens_cut (toList_intercalate hsep s t items), tokens_intercalate hsep (t :: items)]
    rfl

/-- Trimming a text does not move where it is first cut; each part loses the blanks at its outer end. -/
theorem splitOnce_trim (hc : isWhitespace c = false) (hs : s.toList = p.toList ++ c :: q.toList) (hp : c ∉ p.toList) :
    ∃ p' q' b b', splitOnce c (trim s) = some (p', q') ∧ Blank b ∧ Blank b' ∧ p = b ++ p' ∧ q = q' ++ b' := by
  refine ⟨String.ofList (p.toList.dropWhile isWhitespace), String.ofList (q.toList.rdropWhile isWhitespace),
    String.ofList (p.toList.takeWhile isWhitespace), String.ofList (q.toList.rtakeWhile isWhitespace),
    ?_, ?_, ?_, ?_, ?_⟩
  · rw [splitOnce_eq_some, toList_trim_cut hc hs, String.toList_ofList, String.toList_ofList]
    exact ⟨rfl, fun hmem => hp (List.dropWhile_subset _ hmem)⟩
  · intro x hx
    rw [String.toList_ofList] at hx
    exact List.mem_takeWhile_imp hx
  · intro x hx
    rw [String.toList_ofList] at hx
    exact List.mem_rtakeWhile_imp hx
  · rw [← String.ofList_append, List.takeWhile_append_dropWhile, String.ofList_toList]
  · rw [← String.ofList_append, List.rdropWhile_append_rtakeWhile, String.ofList_toList]

end Tokens

/-! ## Words -/

/-- `split_whitespace`. -/
def words (s : String) : List String :=
  ((s.toList.splitOnP isWhitespace).filter fun w => w ≠ []).map String.ofList

/-- A text without white space, and not empty. -/
def Word (w : List Char) : Prop := w ≠ [] ∧ ∀ c ∈ w, isWhitespace c = false

theorem word_of_all {w : List Char} (hne : w ≠ []) (h : (w.all fun c => !isWhitespace c) = true) : Word w :=
  ⟨hne, fun c hc => by simpa using List.all_eq_true.mp h c hc⟩

theorem Word.notMem {w : List Char} {c : Char} (hw : Word w) (hc : isWhitespace c = true) : c ∉ w := by
  intro hmem
  rw [hw.2 c hmem] at hc
  cases hc

/-- Nothing, or a text that begins with white space. -/
def Breaks (r : List Char) : Prop := ∀ c ∈ r.head?, isWhitespace c = true

theorem Breaks.initial {p r : List Char} (h : Breaks r) (hp : p <+: r) : Breaks p := by
  obtain ⟨q, rfl⟩ := hp
  cases p with
  | nil => exact fun c hc => by cases hc
  | cons x p => exact h

/-- A text up to its first white space. -/
theorem exists_word (l : List Char) : ∃ w r, l = w ++ r ∧ (∀ c ∈ w, isWhitespace c = false) ∧ Breaks r := by
  refine ⟨l.takeWhile fun c => !isWhitespace c, l.dropWhile fun c => !isWhitespace c,
    List.takeWhile_append_dropWhile.symm, fun c hc => ?_, fun c hc => ?_⟩
  · simpa using List.mem_takeWhile_imp hc
  · have hnot := List.head?_dropWhile_not (fun c => !isWhitespace c) l
    rw [Option.mem_def.mp hc] at hnot
    simpa using hnot

/-- The first word of a text that begins with one. -/
theorem words_cons {w r : List Char} (hne : w ≠ []) (hw : ∀ c ∈ w, isWhitespace c = false) (hr : Breaks r) :
    words (String.ofList (w ++ r)) = String.ofList w :: words (String.ofList r) := by
  unfold words
  rw [String.toList_ofList, String.toList_ofList]
  cases r with
  | nil =>
    rw [List.append_nil, List.splitOnP_eq_singleton hw, List.splitOnP_nil]
    simp [hne]
  | cons c r =>
    have hc : isWhitespace c = true := hr c rfl
    rw [List.splitOnP_append_cons_of_forall_mem hw c hc, List.splitOnP_cons_eq_if_modifyHead, if_pos hc,
      List.filter_cons_of_pos (by simpa using hne), List.filter_cons_of_neg (by simp), List.map_cons]

theorem words_skip {c : Char} (hc : isWhitespace c = true) (r : List Char) :
    words (String.ofList (c :: r)) = words (String.ofList r) := by
  unfold words
  rw [String.toList_ofList, String.toList_ofList, List.splitOnP_cons_eq_if_modifyHead, if_pos hc,
    List.filter_cons_of_neg (by simp)]

/-! ## Lines -/

/-- A line without the carriage return of its ending. -/
def stripCr (l : List Char) : List Char := if l.getLast? = some '\r' then l.dropLast else l

/-- `lines`: each line without its ending; there is none after the last ending. -/
def lines (s : String) : List String :=
  let pieces := s.toList.splitOn '\n'
  pieces.dropLast.map (fun l => String.ofList (stripCr l)) ++
    ((pieces.getLast?.filter fun l => l ≠ []).map String.ofList).toList

theorem stripCr_initial (l : List Char) : stripCr l <+: l := by
  unfold stripCr
  split
  · exact List.dropLast_prefix l
  · exact List.prefix_refl l

/-- What ends in no carriage return is not stripped. -/
theorem stripCr_append {a : List Char} (ha : a.getLast? ≠ some '\r') (p : List Char) :
    stripCr (a ++ p) = a ++ stripCr p := by
  cases p with
  | nil =>
    rw [List.append_nil]
    unfold stripCr
    rw [if_neg ha, List.getLast?_nil, if_neg (by simp), List.append_nil]
  | cons x p =>
    have hlast : (a ++ x :: p).getLast? = (x :: p).getLast? := by
      rw [List.getLast?_append, List.getLast?_cons]
      rfl
    unfold stripCr
    rw [hlast]
    split
    · exact List.dropLast_append_of_ne_nil (List.cons_ne_nil x p)
    · rfl

/-- **The first line of a text is what the text begins with**, up to a line feed. -/
theorem lines_head {a : List Char} (hne : a ≠ []) (ha : '\n' ∉ a) (hlast : a.getLast? ≠ some '\r') (r : List Char) :
    ∃ p rest, p <+: r ∧ lines (String.ofList (a ++ r)) = String.ofList (a ++ p) :: rest := by
  unfold lines
  rw [String.toList_ofList]
  dsimp only
  by_cases hr : '\n' ∈ r
  · obtain ⟨p, q, rfl, hp⟩ := List.eq_append_cons_of_mem hr
    have hap : '\n' ∉ a ++ p := by
      rw [List.mem_append, not_or]
      exact ⟨ha, hp⟩
    have hpieces : (a ++ (p ++ '\n' :: q)).splitOn '\n' = (a ++ p) :: q.splitOn '\n' := by
      rw [← List.append_assoc, List.splitOn_append_cons_self_of_not_mem hap]
    rw [hpieces, List.dropLast_cons_of_ne_nil (List.splitOn_ne_nil _ _), List.map_cons, stripCr_append hlast]
    exact ⟨stripCr p, _, (stripCr_initial p).trans (List.prefix_append p _), rfl⟩
  · have har : '\n' ∉ a ++ r := by
      rw [List.mem_append, not_or]
      exact ⟨ha, hr⟩
    have hfull : a ++ r ≠ [] := fun h => hne (List.append_eq_nil_iff.mp h).1
    rw [List.splitOn_eq_singleton har]
    refine ⟨r, [], List.prefix_refl r, ?_⟩
    simp [hfull]

end Text
