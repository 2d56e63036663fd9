import EdgeConnect.Ingest.ChannelFilter
import EdgeConnect.Lib.Tokens

/-!
# What an accepted channel filter means (`src/ingest/channel_filter.rs`)

* `IsId` — the decimal numerals of a `u8`; `Clause`, `clauses` — a spec as its clauses, each the ids it lists of a code;
* `WellFormed` — the specs that mean something of a set of feeds; `parseWithin_iff`: those are the accepted ones;
* `publishersFor` — the publishers that a filter binds of a feed; `Admits` — those that a spec asks for;
* `Variant` — the rearrangements of a spec that change nothing of it: clauses and ids in another order, ids repeated,
  blanks around tokens, stray separators;
* `accepted_filter_means_what_it_says` — acceptance is being well-formed, the bound publishers are the ones asked for,
  and never none of a row that has any; a rearranged spec is accepted alike and admits the same.
-/

set_option autoImplicit false

namespace EdgeConnect.ChannelFilter

open Registry Text

/-- `ChannelFilter::publishers_for`. -/
def publishersFor (admitted : FinMap String Selection) (f : Feed) : List FeedPublisher :=
  match admitted.get f.code with
  | none => f.publishers
  | some s => f.publishers.filter fun p => p.channel.any fun c => c ∈ s.ids

/-! ## The grammar -/

/-- A decimal `u8`, with a `+` in front or none, as `from_str` reads it. -/
def IsId (text : String) (id : Nat) : Prop :=
  ∃ digits : List Char, (text.toList = digits ∨ text.toList = '+' :: digits) ∧ digits ≠ [] ∧
    (∀ c ∈ digits, c.isDigit) ∧ Nat.ofDigitChars 10 digits 0 = id ∧ id ≤ 255

/-- The code of a clause and the texts it lists. -/
structure Clause where
  code : String
  ids : Finset String

/-- A clause has an `=`. -/
def readClause (clause : String) : Option Clause :=
  (splitOnce '=' clause).map fun p => ⟨trim p.1, (tokens ',' p.2).toFinset⟩

/-- The clauses of a spec. -/
def clauses (spec : String) : List (Option Clause) := (tokens ';' spec).map readClause

/-- A clause lists an id. -/
def Clause.Lists (c : Clause) (id : Nat) : Prop := ∃ text ∈ c.ids, IsId text id

/-- A clause can bind something of every row that carries its code: some row does, each of them is derived, and every
text is an id that each of them publishes. -/
structure Clause.Legal (rows : List Feed) (c : Clause) : Prop where
  known : ∃ f ∈ rows, f.code = c.code
  derived : ∀ f ∈ rows, f.code = c.code → publishedSet f ≠ ∅
  listed : c.ids.Nonempty
  published : ∀ text ∈ c.ids, ∃ id, IsId text id ∧ ∀ f ∈ rows, f.code = c.code → id ∈ publishedSet f

/-- The clauses that have an `=`. -/
def named (spec : String) : List Clause := (clauses spec).filterMap id

/-- Every clause has an `=` and is legal, and no code is named twice. -/
structure WellFormed (rows : List Feed) (spec : String) : Prop where
  read : ∀ c ∈ clauses spec, c ≠ none
  legal : ∀ c ∈ named spec, c.Legal rows
  distinct : ((named spec).map Clause.code).Nodup

/-- A spec asks for a publisher of a row: each clause that names the row's code lists the publisher's channel. -/
def Admits (spec : String) (f : Feed) (p : FeedPublisher) : Prop :=
  ∀ c ∈ named spec, c.code = f.code → ∃ channel ∈ p.channel, c.Lists channel

theorem parseUnsigned_iff {text : String} {id : Nat} : parseUnsigned 255 text = some id ↔ IsId text id := by
  have hdigits : ∀ cs, digits 255 0 cs = some id ↔
      (∀ c ∈ cs, c.isDigit) ∧ Nat.ofDigitChars 10 cs 0 = id ∧ id ≤ 255 := fun cs => digits_eq_some (Nat.zero_le _)
  unfold parseUnsigned IsId
  cases htext : text.toList with
  | nil =>
    constructor
    · intro h
      cases h
    · rintro ⟨ds, hds | hds, hne, -⟩
      · exact absurd hds.symm hne
      · cases hds
  | cons c cs =>
    dsimp only
    by_cases hplus : c = '+'
    · subst hplus
      rw [if_pos rfl]
      constructor
      · intro h
        split_ifs at h with hne
        exact ⟨cs, Or.inr rfl, hne, (hdigits cs).mp h⟩
      · rintro ⟨ds, hds | hds, hne, hval⟩
        · subst hds
          exact absurd (hval.1 '+' List.mem_cons_self) (by decide)
        · cases hds
          rw [if_neg hne]
          exact (hdigits cs).mpr hval
    · rw [if_neg hplus]
      constructor
      · intro h
        exact ⟨c :: cs, Or.inl rfl, List.cons_ne_nil c cs, (hdigits _).mp h⟩
      · rintro ⟨ds, hds | hds, -, hval⟩
        · subst hds
          exact (hdigits _).mpr hval
        · exact absurd (List.cons.inj hds).1 hplus

instance (text : String) (id : Nat) : Decidable (IsId text id) := decidable_of_iff _ parseUnsigned_iff

instance (c : Clause) (id : Nat) : Decidable (c.Lists id) := inferInstanceAs (Decidable (∃ text ∈ c.ids, IsId text id))

instance (spec : String) (f : Feed) : DecidablePred (Admits spec f) := fun p =>
  inferInstanceAs (Decidable (∀ c ∈ named spec, c.code = f.code → ∃ channel ∈ p.channel, c.Lists channel))

theorem IsId.unique {text : String} {id id' : Nat} (h : IsId text id) (h' : IsId text id') : id = id' := by
  rw [← parseUnsigned_iff] at h h'
  rw [h] at h'
  exact Option.some.inj h'

/-! ## What the parser accepts -/

section Accepts

variable {code : String} {rows : List Feed} {sets : List (Feed × Finset Nat)}

theorem publishedSets_ok : ∀ {fs : List Feed} {sets : List (Feed × Finset Nat)},
    publishedSets code fs = .ok sets ↔
      (∀ f ∈ fs, publishedSet f ≠ ∅) ∧ sets = fs.map fun f => (f, publishedSet f)
  | [], sets => by
    rw [publishedSets, Except.ok.injEq]
    exact ⟨fun h => ⟨fun f hf => (by cases hf), h.symm⟩, fun h => h.2.symm⟩
  | f :: fs, sets => by
    rw [publishedSets, List.forall_mem_cons, List.map_cons]
    by_cases hf : publishedSet f = ∅
    · rw [if_pos hf]
      exact ⟨fun h => (by cases h), fun h => absurd hf h.1.1⟩
    · rw [if_neg hf]
      cases hfs : publishedSets code fs with
      | error e =>
        refine ⟨fun h => (by cases h), fun h => ?_⟩
        have hok := publishedSets_ok.mpr ⟨h.1.2, rfl⟩
        rw [hfs] at hok
        cases hok
      | ok sets' =>
        obtain ⟨hderived, rfl⟩ := publishedSets_ok.mp hfs
        constructor
        · intro h
          cases h
          exact ⟨⟨hf, hderived⟩, rfl⟩
        · rintro ⟨-, rfl⟩
          rfl

theorem checkId_ok {id : Nat} : checkId code id sets = .ok () ↔ ∀ p ∈ sets, id ∈ p.2 := by
  induction sets with
  | nil => exact ⟨fun _ p hp => (by cases hp), fun _ => rfl⟩
  | cons p sets ih =>
    obtain ⟨f, r⟩ := p
    rw [checkId, List.forall_mem_cons]
    by_cases hid : id ∈ r
    · rw [if_neg (not_not.mpr hid), ih]
      exact ⟨fun h => ⟨hid, h⟩, And.right⟩
    · rw [if_pos hid]
      exact ⟨fun h => (by cases h), fun h => absurd h.1 hid⟩

/-- The ids of some texts. -/
def idsOf (texts : Finset String) : Finset Nat := texts.biUnion fun text => (parseUnsigned 255 text).toFinset

theorem mem_idsOf {texts : Finset String} {id : Nat} : id ∈ idsOf texts ↔ ∃ text ∈ texts, IsId text id := by
  simp only [idsOf, Finset.mem_biUnion, Option.mem_toFinset, Option.mem_def, parseUnsigned_iff]

theorem idsOf_insert {text : String} {id : Nat} (h : IsId text id) (texts : Finset String) :
    idsOf (insert text texts) = insert id (idsOf texts) := by
  unfold idsOf
  rw [Finset.biUnion_insert, parseUnsigned_iff.mpr h, Finset.insert_eq]
  rfl

/-- The tokens among some parts. -/
def kept (parts : List String) : List String := (parts.map trim).filter fun t => t ≠ ""

theorem kept_skip {part : String} (h : trim part = "") (parts : List String) : kept (part :: parts) = kept parts := by
  unfold kept
  rw [List.map_cons, List.filter_cons_of_neg (by simpa using h)]

theorem kept_cons {part : String} (h : trim part ≠ "") (parts : List String) :
    kept (part :: parts) = trim part :: kept parts := by
  unfold kept
  rw [List.map_cons, List.filter_cons_of_pos (by simpa using h)]

/-- The parts of a clause are accepted when each token among them is an id of every row. -/
theorem parseIds_ok {wanted all : Finset Nat} {parts : List String} :
    parseIds code sets wanted parts = .ok all ↔
      (∀ text ∈ kept parts, ∃ id, IsId text id ∧ ∀ p ∈ sets, id ∈ p.2) ∧
        all = wanted ∪ idsOf (kept parts).toFinset := by
  induction parts generalizing wanted with
  | nil =>
    rw [parseIds, Except.ok.injEq]
    simp [kept, idsOf, eq_comm]
  | cons part parts ih =>
    unfold parseIds
    dsimp only
    by_cases hempty : trim part = ""
    · rw [if_pos hempty, kept_skip hempty, ih]
    · rw [if_neg hempty, kept_cons hempty, List.forall_mem_cons]
      cases hid : parseUnsigned 255 (trim part) with
      | none =>
        refine ⟨fun h => (by cases h), ?_⟩
        rintro ⟨⟨⟨id, hisId, -⟩, -⟩, -⟩
        rw [← parseUnsigned_iff, hid] at hisId
        cases hisId
      | some id =>
        have hisId := parseUnsigned_iff.mp hid
        dsimp only
        cases hcheck : checkId code id sets with
        | error e =>
          refine ⟨fun h => (by cases h), ?_⟩
          rintro ⟨⟨⟨id', hisId', hpub⟩, -⟩, -⟩
          rw [← hisId.unique hisId'] at hpub
          rw [checkId_ok.mpr hpub] at hcheck
          cases hcheck
        | ok v =>
          have hpub := checkId_ok.mp hcheck
          rw [ih, List.toFinset_cons, idsOf_insert hisId, Finset.insert_union, Finset.union_insert]
          exact ⟨fun h => ⟨⟨⟨id, hisId, hpub⟩, h.1⟩, h.2⟩, fun h => ⟨h.1.2, h.2⟩⟩

/-- The rows that carry a code, each with its published set. -/
def carried (rows : List Feed) (code : String) : List (Feed × Finset Nat) :=
  (rows.filter fun f => f.code = code).map fun f => (f, publishedSet f)

/-- What a legal clause selects. -/
def selection (rows : List Feed) (c : Clause) : Selection :=
  ⟨idsOf c.ids, ((carried rows c.code).foldl (fun (all : Finset Nat) (set : Feed × Finset Nat) => all ∪ set.2) ∅).card⟩

theorem mem_selection {c : Clause} {id : Nat} : id ∈ (selection rows c).ids ↔ c.Lists id := mem_idsOf

theorem forall_carried {p : Feed × Finset Nat → Prop} :
    (∀ set ∈ carried rows code, p set) ↔ ∀ f ∈ rows, f.code = code → p (f, publishedSet f) := by
  rw [carried, List.forall_mem_map]
  simp only [List.mem_filter, decide_eq_true_eq, and_imp]

theorem legal_iff {c : Clause} : c.Legal rows ↔
    (rows.filter fun f => f.code = c.code) ≠ [] ∧ (∀ f ∈ rows.filter fun f => f.code = c.code, publishedSet f ≠ ∅) ∧
      (∀ text ∈ c.ids, ∃ id, IsId text id ∧ ∀ set ∈ carried rows c.code, id ∈ set.2) ∧ c.ids.Nonempty := by
  have hknown : (rows.filter fun f => f.code = c.code) ≠ [] ↔ ∃ f ∈ rows, f.code = c.code := by
    rw [ne_eq, List.filter_eq_nil_iff]
    simp
  have hderived : (∀ f ∈ rows.filter fun f => f.code = c.code, publishedSet f ≠ ∅) ↔
      ∀ f ∈ rows, f.code = c.code → publishedSet f ≠ ∅ := by
    simp
  rw [hknown, hderived]
  simp only [forall_carried]
  exact ⟨fun h => ⟨h.known, h.derived, h.published, h.listed⟩, fun h => ⟨h.1, h.2.1, h.2.2.2, h.2.2.1⟩⟩

theorem idsOf_nonempty {texts : Finset String} {p : Nat → Prop} (h : ∀ text ∈ texts, ∃ id, IsId text id ∧ p id) :
    idsOf texts ≠ ∅ ↔ texts.Nonempty := by
  rw [← Finset.nonempty_iff_ne_empty]
  constructor
  · rintro ⟨id, hid⟩
    obtain ⟨text, htext, -⟩ := mem_idsOf.mp hid
    exact ⟨text, htext⟩
  · rintro ⟨text, htext⟩
    obtain ⟨id, hid, -⟩ := h text htext
    exact ⟨id, mem_idsOf.mpr ⟨text, htext, hid⟩⟩

/-- **A clause is accepted** when it has an `=`, is legal and names a new code. -/
theorem parseClause_ok {admitted admitted' : FinMap String Selection} {clause : String} :
    parseClause rows admitted clause = .ok admitted' ↔
      ∃ c, readClause clause = some c ∧ c.Legal rows ∧ admitted.contains c.code = false ∧
        admitted' = admitted.insert c.code (selection rows c) := by
  constructor
  · intro h
    unfold parseClause at h
    cases hsplit : splitOnce '=' clause with
    | none =>
      rw [hsplit] at h
      cases h
    | some parts =>
      obtain ⟨name, text⟩ := parts
      rw [hsplit] at h
      dsimp only at h
      by_cases hknown : rows.filter (fun f => f.code = trim name) = []
      · rw [if_pos hknown] at h
        cases h
      · rw [if_neg hknown] at h
        cases hsets : publishedSets (trim name) (rows.filter fun f => f.code = trim name) with
        | error e =>
          rw [hsets] at h
          cases h
        | ok sets =>
          rw [hsets] at h
          dsimp only at h
          cases hids : parseIds (trim name) sets ∅ (split ',' text) with
          | error e =>
            rw [hids] at h
            cases h
          | ok wanted =>
            rw [hids] at h
            dsimp only at h
            obtain ⟨hderived, rfl⟩ := publishedSets_ok.mp hsets
            obtain ⟨hpub, rfl⟩ := parseIds_ok.mp hids
            rw [Finset.empty_union] at h
            split_ifs at h with hnone hnew
            cases h
            have hpub' : ∀ t ∈ (tokens ',' text).toFinset,
                ∃ id, IsId t id ∧ ∀ set ∈ carried rows (trim name), id ∈ set.2 :=
              fun t ht => hpub t (List.mem_toFinset.mp ht)
            refine ⟨⟨trim name, (tokens ',' text).toFinset⟩, by rw [readClause, hsplit]; rfl, ?_, ?_, rfl⟩
            · exact legal_iff.mpr ⟨hknown, hderived, hpub', (idsOf_nonempty hpub').mp hnone⟩
            · exact (Bool.not_eq_true _).mp hnew
  · rintro ⟨c, hread, hlegal, hnew, rfl⟩
    obtain ⟨⟨name, text⟩, hsplit, rfl⟩ := Option.map_eq_some_iff.mp hread
    obtain ⟨hknown, hderived, hpub, hlisted⟩ := legal_iff.mp hlegal
    have hids : parseIds (trim name) (carried rows (trim name)) ∅ (split ',' text) =
        .ok (∅ ∪ idsOf (kept (split ',' text)).toFinset) :=
      parseIds_ok.mpr ⟨fun t ht => hpub t (List.mem_toFinset.mpr ht), rfl⟩
    have hcarried : (rows.filter fun f => f.code = trim name).map (fun f => (f, publishedSet f)) =
        carried rows (trim name) := rfl
    rw [Finset.empty_union] at hids
    unfold parseClause
    rw [hsplit]
    dsimp only
    rw [if_neg hknown, publishedSets_ok.mpr ⟨hderived, rfl⟩]
    dsimp only
    rw [hcarried, hids]
    dsimp only
    have hsome : idsOf (kept (split ',' text)).toFinset ≠ ∅ := (idsOf_nonempty hpub).mpr hlisted
    have hnew' : ¬ admitted.contains (trim name) = true := (Bool.not_eq_true _).mpr hnew
    rw [if_neg hsome, if_neg hnew']
    rfl

/-- The filter that some clauses set, on top of another one. -/
def addClauses (rows : List Feed) (admitted : FinMap String Selection) (cs : List Clause) : FinMap String Selection :=
  cs.foldl (fun m c => m.insert c.code (selection rows c)) admitted

/-- Every clause is legal, and names a code that neither another one nor the filter so far has. -/
structure Fits (rows : List Feed) (admitted : FinMap String Selection) (cs : List Clause) : Prop where
  legal : ∀ c ∈ cs, c.Legal rows
  distinct : (cs.map Clause.code).Nodup
  fresh : ∀ c ∈ cs, admitted.contains c.code = false

theorem fits_cons {admitted : FinMap String Selection} {c : Clause} {cs : List Clause} :
    Fits rows admitted (c :: cs) ↔ c.Legal rows ∧ admitted.contains c.code = false ∧
      Fits rows (admitted.insert c.code (selection rows c)) cs := by
  have hfresh : ∀ d : Clause, (admitted.insert c.code (selection rows c)).contains d.code = false ↔
      d.code ≠ c.code ∧ admitted.contains d.code = false := by
    intro d
    rw [FinMap.contains_eq_false, FinMap.contains_eq_false, FinMap.get_insert]
    by_cases hd : d.code = c.code <;> simp [hd]
  constructor
  · intro h
    obtain ⟨hc, hlegal⟩ := List.forall_mem_cons.mp h.legal
    obtain ⟨hnew, hcs⟩ := List.forall_mem_cons.mp h.fresh
    obtain ⟨hout, hdistinct⟩ := List.nodup_cons.mp h.distinct
    refine ⟨hc, hnew, hlegal, hdistinct, fun d hd => (hfresh d).mpr ⟨fun heq => hout ?_, hcs d hd⟩⟩
    exact heq ▸ List.mem_map_of_mem hd
  · rintro ⟨hc, hnew, h⟩
    refine ⟨List.forall_mem_cons.mpr ⟨hc, h.legal⟩, List.nodup_cons.mpr ⟨fun hmem => ?_, h.distinct⟩,
      List.forall_mem_cons.mpr ⟨hnew, fun d hd => ((hfresh d).mp (h.fresh d hd)).2⟩⟩
    obtain ⟨d, hd, heq⟩ := List.mem_map.mp hmem
    exact ((hfresh d).mp (h.fresh d hd)).1 heq

/-- **Parts are accepted** when the tokens among them read as clauses that fit. -/
theorem parseClauses_ok {admitted filter : FinMap String Selection} {parts : List String} :
    parseClauses rows admitted parts = .ok filter ↔
      ∃ cs : List Clause, (kept parts).map readClause = cs.map some ∧ Fits rows admitted cs ∧
        filter = addClauses rows admitted cs := by
  induction parts generalizing admitted with
  | nil =>
    rw [parseClauses, Except.ok.injEq]
    constructor
    · rintro rfl
      exact ⟨[], rfl, ⟨fun c hc => (by cases hc), List.nodup_nil, fun c hc => (by cases hc)⟩, rfl⟩
    · rintro ⟨cs, hcs, -, rfl⟩
      obtain rfl := List.map_eq_nil_iff.mp hcs.symm
      rfl
  | cons part parts ih =>
    unfold parseClauses
    dsimp only
    by_cases hempty : trim part = ""
    · rw [if_pos hempty, kept_skip hempty, ih]
    · rw [if_neg hempty, kept_cons hempty, List.map_cons]
      constructor
      · intro h
        cases hclause : parseClause rows admitted (trim part) with
        | error e =>
          rw [hclause] at h
          cases h
        | ok admitted' =>
          rw [hclause] at h
          obtain ⟨c, hread, hlegal, hnew, rfl⟩ := parseClause_ok.mp hclause
          obtain ⟨cs, hcs, hfits, rfl⟩ := ih.mp h
          exact ⟨c :: cs, by rw [hread, hcs]; rfl, fits_cons.mpr ⟨hlegal, hnew, hfits⟩, rfl⟩
      · rintro ⟨cs, hcs, hfits, rfl⟩
        cases cs with
        | nil => cases hcs
        | cons c cs =>
          obtain ⟨hread, hrest⟩ := List.cons.inj hcs
          obtain ⟨hlegal, hnew, hfits⟩ := fits_cons.mp hfits
          rw [parseClause_ok.mpr ⟨c, hread, hlegal, hnew, rfl⟩]
          exact ih.mpr ⟨cs, hrest, hfits, rfl⟩

theorem named_of_clauses {spec : String} {cs : List Clause} (h : clauses spec = cs.map some) : named spec = cs := by
  rw [named, h, List.filterMap_map]
  exact List.filterMap_some

theorem clauses_eq {spec : String} (h : ∀ c ∈ clauses spec, c ≠ none) : clauses spec = (named spec).map some := by
  unfold named
  generalize clauses spec = l at h
  induction l with
  | nil => rfl
  | cons c l ih =>
    obtain ⟨hc, hl⟩ := List.forall_mem_cons.mp h
    obtain ⟨c, rfl⟩ := Option.ne_none_iff_exists'.mp hc
    exact congrArg (some c :: ·) (ih hl)

/-- An accepted spec is well-formed, and sets what its clauses select. -/
theorem parseWithin_ok {spec : String} {filter : FinMap String Selection} :
    parseWithin rows spec = .ok filter ↔ WellFormed rows spec ∧ filter = addClauses rows ∅ (named spec) := by
  constructor
  · intro h
    obtain ⟨cs, hcs, hfits, rfl⟩ := parseClauses_ok.mp h
    have hnamed : named spec = cs := named_of_clauses hcs
    refine ⟨⟨fun c hc => ?_, hnamed ▸ hfits.legal, hnamed ▸ hfits.distinct⟩, by rw [hnamed]⟩
    obtain ⟨c, -, rfl⟩ := List.mem_map.mp (hcs ▸ hc : c ∈ cs.map some)
    exact Option.some_ne_none c
  · rintro ⟨h, rfl⟩
    exact parseClauses_ok.mpr ⟨named spec, clauses_eq h.read, ⟨h.legal, h.distinct, fun _ _ => rfl⟩, rfl⟩

/-- **A spec is accepted** when it is well-formed. -/
theorem parseWithin_iff {spec : String} : (∃ filter, parseWithin rows spec = .ok filter) ↔ WellFormed rows spec := by
  constructor
  · rintro ⟨filter, h⟩
    exact (parseWithin_ok.mp h).1
  · intro h
    exact ⟨_, parseWithin_ok.mpr ⟨h, rfl⟩⟩

/-- The code of no clause keeps what it had; the code of a clause selects what the clause lists. -/
theorem get_addClauses {cs : List Clause} (hdistinct : (cs.map Clause.code).Nodup)
    (admitted : FinMap String Selection) :
    (∀ code, code ∉ cs.map Clause.code → (addClauses rows admitted cs).get code = admitted.get code) ∧
      ∀ c ∈ cs, (addClauses rows admitted cs).get c.code = some (selection rows c) := by
  induction cs generalizing admitted with
  | nil => exact ⟨fun _ _ => rfl, fun c hc => (by cases hc)⟩
  | cons c cs ih =>
    obtain ⟨hout, hdistinct⟩ := List.nodup_cons.mp hdistinct
    obtain ⟨hothers, hnamed⟩ := ih hdistinct (admitted.insert c.code (selection rows c))
    constructor
    · intro code hcode
      rw [List.map_cons, List.mem_cons, not_or] at hcode
      exact (hothers code hcode.2).trans (FinMap.get_insert_of_ne _ _ hcode.1)
    · rw [List.forall_mem_cons]
      exact ⟨(hothers c.code hout).trans (FinMap.get_insert_self _ _ _), hnamed⟩

variable {spec : String} {filter : FinMap String Selection}

/-- What an accepted filter has of a code: nothing, or what the one clause that names the code selects. -/
theorem get_filter (h : parseWithin rows spec = .ok filter) (code : String) :
    (code ∉ (named spec).map Clause.code ∧ filter.get code = none) ∨
      ∃ c ∈ named spec, c.code = code ∧ filter.get code = some (selection rows c) ∧
        ∀ d ∈ named spec, d.code = code → d = c := by
  obtain ⟨hwf, rfl⟩ := parseWithin_ok.mp h
  obtain ⟨hothers, hnamed⟩ := @get_addClauses rows _ hwf.distinct ∅
  by_cases hcode : code ∈ (named spec).map Clause.code
  · obtain ⟨c, hc, rfl⟩ := List.mem_map.mp hcode
    exact Or.inr ⟨c, hc, rfl, hnamed c hc, fun d hd heq => List.inj_on_of_nodup_map hwf.distinct hd hc heq⟩
  · exact Or.inl ⟨hcode, hothers code hcode⟩

theorem admits_iff (h : parseWithin rows spec = .ok filter) (code : String) (channel : Nat) :
    admits filter code channel = true ↔ ∀ c ∈ named spec, c.code = code → c.Lists channel := by
  unfold admits
  rcases get_filter h code with ⟨hcode, hnone⟩ | ⟨c, hc, rfl, hsome, hunique⟩
  · rw [hnone]
    exact ⟨fun _ c hc heq => absurd (heq ▸ List.mem_map_of_mem hc) hcode, fun _ => rfl⟩
  · rw [hsome, Option.all_some, decide_eq_true_iff, mem_selection]
    exact ⟨fun hl d hd heq => hunique d hd heq ▸ hl, fun hl => hl c hc rfl⟩

/-- **The bound publishers are the ones a spec asks for**, in order. -/
theorem publishersFor_eq (h : parseWithin rows spec = .ok filter) (f : Feed) :
    publishersFor filter f = f.publishers.filter (Admits spec f) := by
  unfold publishersFor
  rcases get_filter h f.code with ⟨hcode, hnone⟩ | ⟨c, hc, hcode, hsome, hunique⟩
  · rw [hnone]
    refine (List.filter_eq_self.mpr fun p _ => decide_eq_true fun c hc heq => ?_).symm
    exact absurd (heq ▸ List.mem_map_of_mem hc) hcode
  · rw [hsome]
    refine List.filter_congr fun p _ => ?_
    rw [Bool.eq_iff_iff, Option.any_eq_true, decide_eq_true_iff]
    simp only [decide_eq_true_eq, mem_selection]
    constructor
    · rintro ⟨channel, hp, hl⟩ d hd heq
      exact ⟨channel, hp, hunique d hd heq ▸ hl⟩
    · intro hadmits
      obtain ⟨channel, hp, hl⟩ := hadmits c hc hcode
      exact ⟨channel, hp, hl⟩

/-- A row that has publishers keeps one: a clause that names its code lists an id the row publishes. -/
theorem publishersFor_ne_nil (h : parseWithin rows spec = .ok filter) {f : Feed} (hf : f ∈ rows)
    (hpub : f.publishers ≠ []) : publishersFor filter f ≠ [] := by
  obtain ⟨hwf, -⟩ := parseWithin_ok.mp h
  unfold publishersFor
  rcases get_filter h f.code with ⟨-, hnone⟩ | ⟨c, hc, hcode, hsome, -⟩
  · rw [hnone]
    exact hpub
  · rw [hsome]
    obtain ⟨text, htext⟩ := (hwf.legal c hc).listed
    obtain ⟨id, hid, hpublished⟩ := (hwf.legal c hc).published text htext
    obtain ⟨p, hp, hchannel⟩ := List.mem_filterMap.mp (List.mem_toFinset.mp (hpublished f hf hcode.symm))
    have hlists : id ∈ (selection rows c).ids := mem_selection.mpr ⟨text, htext, hid⟩
    refine List.ne_nil_of_mem (List.mem_filter.mpr ⟨hp, ?_⟩)
    rw [hchannel]
    exact decide_eq_true hlists

end Accepts

/-! ## Rearranged specs -/

/-- Lists of items with the same ids: another order, an item once more, blanks around an item, a stray separator. -/
inductive ItemsVariant : List String → List String → Prop
  | order {items items' : List String} (h : items.Perm items') : ItemsVariant items items'
  | repeated {items : List String} {item : String} (h : item ∈ items) : ItemsVariant items (item :: items)
  | blanks {items : List String} {item b b' : String} (hb : Blank b) (hb' : Blank b') :
      ItemsVariant (item :: items) ((b ++ item ++ b') :: items)
  | stray {items : List String} {b : String} (hb : Blank b) : ItemsVariant items (b :: items)

/-- Texts of the same clause. -/
inductive ClauseVariant : String → String → Prop
  | blanks {clause b b' : String} (hb : Blank b) (hb' : Blank b') : ClauseVariant clause (b ++ clause ++ b')
  | code {code ids b b' : String} (hcode : '=' ∉ code.toList) (hb : Blank b) (hb' : Blank b') :
      ClauseVariant (code ++ "=" ++ ids) (b ++ code ++ b' ++ "=" ++ ids)
  | ids {code : String} {items items' : List String} (hcode : '=' ∉ code.toList) (h : ItemsVariant items items') :
      ClauseVariant (code ++ "=" ++ ",".intercalate items) (code ++ "=" ++ ",".intercalate items')

/-- One rearrangement of a spec. -/
inductive Variant : String → String → Prop
  | order {cs cs' : List String} (h : cs.Perm cs') : Variant (";".intercalate cs) (";".intercalate cs')
  | stray {cs : List String} {b : String} (hb : Blank b) : Variant (";".intercalate cs) (";".intercalate (b :: cs))
  | clause {cs : List String} {c c' : String} (hc : ';' ∉ c.toList) (hc' : ';' ∉ c'.toList) (h : ClauseVariant c c') :
      Variant (";".intercalate (c :: cs)) (";".intercalate (c' :: cs))

/-- Specs that differ by rearrangements. -/
abbrev Rearranged := Relation.EqvGen Variant

section Rearranged

theorem ItemsVariant.tokens_eq {items items' : List String} (h : ItemsVariant items items') :
    (tokens ',' (",".intercalate items)).toFinset = (tokens ',' (",".intercalate items')).toFinset := by
  rw [tokens_intercalate rfl, tokens_intercalate rfl]
  cases h with
  | order h => exact List.toFinset_eq_of_perm _ _ (h.flatMap_right _)
  | @repeated _ item hitem =>
    rw [List.flatMap_cons, List.toFinset_append, eq_comm, Finset.union_eq_right]
    intro text htext
    rw [List.mem_toFinset] at htext ⊢
    exact List.mem_flatMap.mpr ⟨item, hitem, htext⟩
  | blanks hb hb' =>
    rw [List.flatMap_cons, List.flatMap_cons, tokens_append_blank (by decide) hb', tokens_blank_append (by decide) hb]
  | stray hb => rw [List.flatMap_cons, tokens_blank (by decide) hb, List.nil_append]

/-- A clause with an `=` is read in its two halves, whatever the blanks around it. -/
theorem readClause_trim {code ids : String} (hcode : '=' ∉ code.toList) :
    trim (code ++ "=" ++ ids) ≠ "" ∧
      readClause (trim (code ++ "=" ++ ids)) = some ⟨trim code, (tokens ',' ids).toFinset⟩ := by
  have hs : (code ++ "=" ++ ids).toList = code.toList ++ '=' :: ids.toList := by
    rw [String.toList_append, String.toList_append, List.append_assoc]
    rfl
  obtain ⟨p, q, b, b', hsplit, hb, hb', rfl, rfl⟩ := splitOnce_trim (by decide) hs hcode
  constructor
  · intro hempty
    rw [hempty] at hsplit
    cases hsplit
  · rw [readClause, hsplit, trim_blank_append hb, tokens_append_blank (by decide) hb']
    rfl

/-- The clauses of one part of a spec. -/
theorem tokens_part {c : String} (hc : ';' ∉ c.toList) (hne : trim c ≠ "") : tokens ';' c = [trim c] := by
  rw [tokens_of_notMem hc, if_neg hne]

theorem ClauseVariant.clauses_eq {c c' : String} (hc : ';' ∉ c.toList) (hc' : ';' ∉ c'.toList)
    (h : ClauseVariant c c') : clauses c = clauses c' := by
  unfold clauses
  cases h with
  | blanks hb hb' => rw [tokens_of_notMem hc, tokens_of_notMem hc', trim_around hb hb']
  | @code code ids b b' hcode hb hb' =>
    have hcode' : '=' ∉ (b ++ code ++ b').toList := by
      rw [String.toList_append, String.toList_append, List.mem_append, List.mem_append, not_or, not_or]
      exact ⟨⟨hb.notMem (by decide), hcode⟩, hb'.notMem (by decide)⟩
    obtain ⟨hne, hread⟩ := @readClause_trim _ ids hcode
    obtain ⟨hne', hread'⟩ := @readClause_trim _ ids hcode'
    rw [tokens_part hc hne, tokens_part hc' hne', List.map_singleton, List.map_singleton, hread, hread',
      trim_around hb hb']
  | @ids code items items' hcode h =>
    obtain ⟨hne, hread⟩ := @readClause_trim _ (",".intercalate items) hcode
    obtain ⟨hne', hread'⟩ := @readClause_trim _ (",".intercalate items') hcode
    rw [tokens_part hc hne, tokens_part hc' hne', List.map_singleton, List.map_singleton, hread, hread', h.tokens_eq]

theorem clauses_intercalate (cs : List String) : clauses (";".intercalate cs) = cs.flatMap clauses := by
  unfold clauses
  rw [tokens_intercalate rfl, List.map_flatMap]

/-- A rearrangement only moves clauses. -/
theorem Variant.clauses_perm {spec spec' : String} (h : Variant spec spec') : (clauses spec).Perm (clauses spec') := by
  cases h with
  | order h =>
    rw [clauses_intercalate, clauses_intercalate]
    exact h.flatMap_right _
  | @stray cs b hb =>
    have hnone : clauses b = [] := by
      rw [clauses, tokens_blank (by decide) hb, List.map_nil]
    rw [clauses_intercalate, clauses_intercalate, List.flatMap_cons, hnone, List.nil_append]
  | clause hc hc' h =>
    rw [clauses_intercalate, clauses_intercalate, List.flatMap_cons, List.flatMap_cons, h.clauses_eq hc hc']

theorem Rearranged.clauses_perm {spec spec' : String} (h : Rearranged spec spec') :
    (clauses spec).Perm (clauses spec') := by
  induction h with
  | rel _ _ h => exact h.clauses_perm
  | refl => exact .refl _
  | symm _ _ _ ih => exact ih.symm
  | trans _ _ _ _ _ ih ih' => exact ih.trans ih'

variable {rows : List Feed} {spec spec' : String}

theorem mem_named_of_perm (h : (clauses spec).Perm (clauses spec')) (c : Clause) : c ∈ named spec ↔ c ∈ named spec' :=
  (h.filterMap id).mem_iff

theorem WellFormed.of_perm (h : (clauses spec).Perm (clauses spec')) (hwf : WellFormed rows spec) :
    WellFormed rows spec' where
  read c hc := hwf.read c (h.mem_iff.mpr hc)
  legal c hc := hwf.legal c ((mem_named_of_perm h c).mpr hc)
  distinct := ((h.filterMap id).map Clause.code).nodup_iff.mp hwf.distinct

/-- Two accepted specs with the same clauses admit the same channels. -/
theorem admits_of_perm (h : (clauses spec).Perm (clauses spec')) {filter filter' : FinMap String Selection}
    (hspec : parseWithin rows spec = .ok filter) (hspec' : parseWithin rows spec' = .ok filter') (code : String)
    (channel : Nat) : admits filter code channel = admits filter' code channel := by
  rw [Bool.eq_iff_iff, admits_iff hspec, admits_iff hspec']
  simp only [mem_named_of_perm h]

/-- Two accepted specs with the same clauses bind the same publishers. -/
theorem publishersFor_of_perm (h : (clauses spec).Perm (clauses spec')) {filter filter' : FinMap String Selection}
    (hspec : parseWithin rows spec = .ok filter) (hspec' : parseWithin rows spec' = .ok filter') (f : Feed) :
    publishersFor filter f = publishersFor filter' f := by
  rw [publishersFor_eq hspec, publishersFor_eq hspec']
  refine List.filter_congr fun p _ => decide_eq_decide.mpr ?_
  unfold Admits
  simp only [mem_named_of_perm h]

end Rearranged

/-- **An accepted filter means what it says and empties no feed.** A spec is accepted when it is well-formed; of every
row an accepted one binds, in order, the publishers it asks for, and some when the row has any; and a rearranged spec is
accepted alike and admits the same. -/
theorem accepted_filter_means_what_it_says (rows : List Feed) (spec : String) :
    ((∃ filter, parseWithin rows spec = .ok filter) ↔ WellFormed rows spec) ∧
      (∀ filter, parseWithin rows spec = .ok filter → ∀ f ∈ rows,
        publishersFor filter f = f.publishers.filter (Admits spec f) ∧
          (f.publishers ≠ [] → publishersFor filter f ≠ [])) ∧
        ∀ spec', Rearranged spec spec' →
          ((∃ filter, parseWithin rows spec = .ok filter) ↔ ∃ filter, parseWithin rows spec' = .ok filter) ∧
            ∀ filter filter', parseWithin rows spec = .ok filter → parseWithin rows spec' = .ok filter' →
              (∀ code channel, admits filter code channel = admits filter' code channel) ∧
                ∀ f, publishersFor filter f = publishersFor filter' f := by
  refine ⟨parseWithin_iff, fun filter h f hf => ⟨publishersFor_eq h f, publishersFor_ne_nil h hf⟩, ?_⟩
  intro spec' hrearranged
  have hperm := hrearranged.clauses_perm
  refine ⟨?_, fun filter filter' h h' => ⟨admits_of_perm hperm h h', publishersFor_of_perm hperm h h'⟩⟩
  rw [parseWithin_iff, parseWithin_iff]
  exact ⟨WellFormed.of_perm hperm, WellFormed.of_perm hperm.symm⟩

/-- A row of one code shared by several, with a port for each of its channels. -/
def sharedRow (category : String) (channels : List Nat) : Feed where
  venue := "KALSHI"
  category
  code := "shared-mbp"
  kind := .marketByPrice
  group := 0
  publishers := channels.map fun id => ⟨.threePort (30000 + id) (40000 + id) (50000 + id), some id, none⟩
  emitTrades := true
  arbitration := .sticky
  sharedBatchId := false
  mirrorOffset := none
  sourceId := none

/-- Two rows of a code, with different published sets. -/
def sharedRows : List Feed := [sharedRow "sports" [10, 11, 12], sharedRow "politics" [12, 13]]

-- an id of one row only is refused: it would leave the other row without a publisher
example : (parseWithin sharedRows "shared-mbp=10").toOption.isSome = false := by decide

theorem accepted_filter_means_what_it_says_sharedCode :
    ∃ filter, parseWithin sharedRows " shared-mbp = 012,, +12 ;" = .ok filter ∧ ∀ f ∈ sharedRows,
      publishersFor filter f = f.publishers.filter (Admits " shared-mbp = 012,, +12 ;" f) ∧
        publishersFor filter f ≠ [] := by
  obtain ⟨-, hbinds, -⟩ := accepted_filter_means_what_it_says sharedRows " shared-mbp = 012,, +12 ;"
  have haccepted : (parseWithin sharedRows " shared-mbp = 012,, +12 ;").toOption.isSome = true := by decide
  have hpub : ∀ f ∈ sharedRows, f.publishers ≠ [] := by decide
  cases hparse : parseWithin sharedRows " shared-mbp = 012,, +12 ;" with
  | error e =>
    rw [hparse] at haccepted
    cases haccepted
  | ok filter =>
    refine ⟨filter, rfl, fun f hf => ?_⟩
    obtain ⟨heq, hne⟩ := hbinds filter hparse f hf
    exact ⟨heq, hne (hpub f hf)⟩

end EdgeConnect.ChannelFilter
