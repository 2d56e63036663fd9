import EdgeConnect.Ingest.Sources

/-!
# Product identity (`src/products.rs`, `src/sinks/api.rs`)

* `render`, `parse` — the id of a market, and what an id says;
* `resolve`, `renderAmbiguous` — the markets of the catalog an id names;
* `productsList` — a page of the catalog, each product under its id;
* `Catalog` — the definitions the processors file, one a key, each under a name of its Source ID.
-/

set_option autoImplicit false

namespace EdgeConnect.Products

open Text Sources

/-- The fields of a definition that name its market. -/
structure NormalizedInstrument where
  venue : String
  sourceId : Nat
  symbol : String
  channel : Nat
  instrumentId : Nat
  category : String
  deriving DecidableEq, Repr

structure ProductId where
  source : String
  sourceId : Nat
  symbol : String
  channel : Nat
  instrumentId : Nat
  category : String
  deriving DecidableEq, Repr

namespace ProductId

def of (i : NormalizedInstrument) : ProductId :=
  ⟨i.venue, i.sourceId, i.symbol, i.channel, i.instrumentId, i.category⟩

/-- The suffix of an id whose symbol its source has twice. -/
def suffix (p : ProductId) : String := "#" ++ p.channel.repr ++ "." ++ p.instrumentId.repr

def render (p : ProductId) (ambiguous : Bool) : String :=
  if ambiguous then p.source ++ ":" ++ p.symbol ++ p.suffix else p.source ++ ":" ++ p.symbol

end ProductId

structure ParsedId where
  source : String
  symbol : String
  identity : Option (Nat × Nat)
  deriving DecidableEq, Repr

/-- The channel and the instrument id after a `#`. -/
def parseIdentity (id : String) : Option (Nat × Nat) := do
  let (ch, inst) ← splitOnce '.' id
  let channel ← parseUnsigned 255 ch
  let instrumentId ← parseUnsigned 4294967295 inst
  return (channel, instrumentId)

/-- The symbol and the identity behind the source. -/
def parseRest (rest : String) : Option (String × Option (Nat × Nat)) :=
  match rsplitOnce '#' rest with
  | some (sym, id) => (parseIdentity id).map fun identity => (sym, some identity)
  | none => some (rest, none)

def parse (u : CaseMapping) (s : String) : Option ParsedId := do
  let (source, rest) ← splitOnce ':' s
  if source = "" ∨ rest = "" then none
  else
    let (symbol, identity) ← parseRest rest
    if symbol = "" then none else some ⟨toUppercase u source, symbol, identity⟩

inductive Resolution where
  | one (p : ProductId)
  | ambiguous (candidates : List String)
  | none
  deriving DecidableEq, Repr

/-- One text a candidate: the category is added to candidates whose ids are the same, and the Source ID to those whose
categories are too. -/
def renderAmbiguous (hits : List ProductId) : List String :=
  hits.map fun p =>
    let r := p.render true
    let collides := 1 < hits.countP fun o => o.render true = r
    let sameCategory := 1 < hits.countP fun o => o.render true = r ∧ o.category = p.category
    if ¬ collides then r
    else if sameCategory then r ++ " (category: " ++ p.category ++ ", source_id: " ++ p.sourceId.repr ++ ")"
    else r ++ " (category: " ++ p.category ++ ")"

/-- The markets an id names. -/
def hits (instruments : List NormalizedInstrument) (id : ParsedId) : List ProductId :=
  let named := (instruments.filter fun i => eqIgnoreAsciiCase i.venue id.source ∧ i.symbol = id.symbol).map ProductId.of
  match id.identity with
  | some (ch, inst) => named.filter fun p => p.channel = ch ∧ p.instrumentId = inst
  | none => named

def resolve (instruments : List NormalizedInstrument) (id : ParsedId) : Resolution :=
  match hits instruments id with
  | [] => .none
  | [p] => .one p
  | ps => .ambiguous (renderAmbiguous ps)

/-! ## The listing -/

/-- How often the catalog has a name with a symbol. -/
def count (instruments : List NormalizedInstrument) (venue symbol : String) : Nat :=
  instruments.countP fun i => i.venue = venue ∧ i.symbol = symbol

/-- `is_ambiguous`, and the test of `products_list`. -/
def isAmbiguous (instruments : List NormalizedInstrument) (venue symbol : String) : Bool :=
  1 < count instruments venue symbol

/-- The order of `sort_catalog`. -/
def catalogLE (a b : NormalizedInstrument) : Bool :=
  a.venue < b.venue ∨ a.venue = b.venue ∧
    (a.sourceId < b.sourceId ∨ a.sourceId = b.sourceId ∧
      (a.category < b.category ∨ a.category = b.category ∧
        (a.channel < b.channel ∨ a.channel = b.channel ∧ a.instrumentId ≤ b.instrumentId)))

inductive ListError where
  | invalidProductsLimit (limit : String)
  | invalidCursor (cursor : String)
  deriving DecidableEq, Repr

def parseLimit : Option String → Except ListError (Option Nat)
  | none => .ok none
  | some s =>
    match parseUnsigned (2 ^ 64 - 1) s with
    | some n => if n > 0 then .ok (some n) else .error (.invalidProductsLimit s)
    | none => .error (.invalidProductsLimit s)

def parseCursor : Option String → Except ListError Nat
  | none => .ok 0
  | some s =>
    match parseUnsigned (2 ^ 64 - 1) s with
    | some n => .ok n
    | none => .error (.invalidCursor s)

/-- `products_list`: a page of the catalog with its ids, and where the next one starts. -/
def productsList (instruments : List NormalizedInstrument) (limit cursor : Option String) :
    Except ListError (List (NormalizedInstrument × String) × Option Nat) := do
  let limit ← parseLimit limit
  let offset ← parseCursor cursor
  let sorted := instruments.mergeSort catalogLE
  let page := match limit with
    | none => sorted.drop offset
    | some n => (sorted.drop offset).take n
  let next := limit.bind fun n => if offset + n < sorted.length then some (offset + n) else none
  return (page.map fun i => (i, (ProductId.of i).render (isAmbiguous instruments i.venue i.symbol)), next)

/-! ## The catalog -/

/-- `InstrumentSnapshot`'s key. -/
def keyOf (i : NormalizedInstrument) : SourceKey × String × Nat × Nat :=
  (SourceKey.new i.sourceId i.venue, i.category, i.channel, i.instrumentId)

/-- The definitions on file, in any order: one a key, each under a name, with the channel and the instrument id of a
wire message. -/
structure Catalog (u : CaseMapping) where
  instruments : List NormalizedInstrument
  keyed : (instruments.map keyOf).Nodup
  named : ∀ i ∈ instruments, Named u i.venue
  channel : ∀ i ∈ instruments, i.channel ≤ 255
  instrumentId : ∀ i ∈ instruments, i.instrumentId ≤ 4294967295

namespace Catalog

variable {u : CaseMapping}

def empty : Catalog u := ⟨[], List.nodup_nil, nofun, nofun, nofun⟩

/-- `remove_instrument`. -/
def remove (c : Catalog u) (key : SourceKey × String × Nat × Nat) : Catalog u where
  instruments := c.instruments.filter fun i => keyOf i ≠ key
  keyed := c.keyed.sublist (List.filter_sublist.map _)
  named i hi := c.named i (List.mem_of_mem_filter hi)
  channel i hi := c.channel i (List.mem_of_mem_filter hi)
  instrumentId i hi := c.instrumentId i (List.mem_of_mem_filter hi)

/-- `upsert_instrument`. -/
def upsert (c : Catalog u) (i : NormalizedInstrument) (hname : Named u i.venue) (hchannel : i.channel ≤ 255)
    (hid : i.instrumentId ≤ 4294967295) : Catalog u where
  instruments := i :: (c.remove (keyOf i)).instruments
  keyed := by
    rw [List.map_cons, List.nodup_cons]
    refine ⟨fun hmem => ?_, (c.remove (keyOf i)).keyed⟩
    obtain ⟨j, hj, heq⟩ := List.mem_map.mp hmem
    exact of_decide_eq_true (List.mem_filter.mp hj).2 heq
  named := List.forall_mem_cons.mpr ⟨hname, (c.remove (keyOf i)).named⟩
  channel := List.forall_mem_cons.mpr ⟨hchannel, (c.remove (keyOf i)).channel⟩
  instrumentId := List.forall_mem_cons.mpr ⟨hid, (c.remove (keyOf i)).instrumentId⟩

/-- What a processor files of a definition, under the label of the Source ID it is revealed with. -/
def reveal (c : Catalog u) (l : Labels u) (sourceId : Nat) (symbol category : String) (channel : Fin 256)
    (instrumentId : Fin 4294967296) : Catalog u :=
  c.upsert ⟨(l.label sourceId).1, sourceId, symbol, channel, instrumentId, category⟩ (l.label_named sourceId)
    (Nat.le_of_lt_succ channel.isLt) (Nat.le_of_lt_succ instrumentId.isLt)

end Catalog

/-! ## What an id is resolved to -/

/-- Nothing the id says tells the two definitions apart. -/
def sameIdentity (i j : NormalizedInstrument) : Bool :=
  eqIgnoreAsciiCase j.venue i.venue ∧ j.symbol = i.symbol ∧ j.channel = i.channel ∧ j.instrumentId = i.instrumentId

/-- The definitions with the identity of one, itself included. -/
def candidates (instruments : List NormalizedInstrument) (i : NormalizedInstrument) : List ProductId :=
  (instruments.filter (sameIdentity i)).map ProductId.of

/-- Another definition has the identity. -/
def Shared (instruments : List NormalizedInstrument) (i : NormalizedInstrument) : Prop :=
  ∃ j ∈ instruments, j ≠ i ∧ sameIdentity i j

/-- An id resolves back to the definition it was rendered for: to it alone, or, where it shares its identity, to one
text for each definition that does, no two of them the same. -/
def ResolvesBack (u : CaseMapping) (instruments : List NormalizedInstrument) (i : NormalizedInstrument) (s : String) :
    Prop :=
  ∃ id, parse u s = some id ∧
    (¬ Shared instruments i → resolve instruments id = .one (ProductId.of i)) ∧
      (Shared instruments i → hits instruments id = candidates instruments i ∧
        ∃ texts, resolve instruments id = .ambiguous texts ∧ texts.length = (candidates instruments i).length ∧ texts.Nodup)

/-- A category reads like another one with its Source ID: one of two candidates with a category, and one whose own
category, which no other has, is that one with the Source ID behind it. -/
def Misread (ps : List ProductId) : Prop :=
  ∃ p ∈ ps, ∃ q ∈ ps, 1 < ps.countP (fun o => o.category = p.category) ∧
    ¬ 1 < ps.countP (fun o => o.category = q.category) ∧ q.category = p.category ++ ", source_id: " ++ p.sourceId.repr

/-- What the syntax of an id asks of a definition. -/
structure Spellable (instruments : List NormalizedInstrument) (i : NormalizedInstrument) : Prop where
  symbol : i.symbol ≠ ""
  source : ':' ∉ i.venue.toList
  hash : '#' ∈ i.symbol.toList → isAmbiguous instruments i.venue i.symbol = true
  categories : ¬ Misread (candidates instruments i)

/-! ## What an id says of the definition it was rendered for -/

section Parse

variable {u : CaseMapping}

/-- The part of an id behind its source. -/
def ProductId.rest (p : ProductId) (ambiguous : Bool) : String := if ambiguous then p.symbol ++ p.suffix else p.symbol

theorem toList_render (p : ProductId) (ambiguous : Bool) :
    (p.render ambiguous).toList = p.source.toList ++ ':' :: (p.rest ambiguous).toList := by
  have hcolon : ":".toList = [':'] := rfl
  unfold ProductId.render ProductId.rest
  cases ambiguous <;> simp [hcolon]

theorem toList_rest_true (p : ProductId) :
    (p.rest true).toList = p.symbol.toList ++ '#' :: (p.channel.repr ++ "." ++ p.instrumentId.repr).toList := by
  have hhash : "#".toList = ['#'] := rfl
  simp [ProductId.rest, ProductId.suffix, hhash]

theorem splitOnce_render {p : ProductId} (hsource : ':' ∉ p.source.toList) (ambiguous : Bool) :
    splitOnce ':' (p.render ambiguous) = some (p.source, p.rest ambiguous) :=
  splitOnce_eq_some.mpr ⟨toList_render p ambiguous, hsource⟩

theorem not_digit_mem_repr {c : Char} (hc : c.isDigit = false) (n : Nat) : c ∉ n.repr.toList := by
  intro hmem
  rw [isDigit_of_mem_repr hmem] at hc
  cases hc

theorem parseIdentity_repr {ch inst : Nat} (hch : ch ≤ 255) (hinst : inst ≤ 4294967295) :
    parseIdentity (ch.repr ++ "." ++ inst.repr) = some (ch, inst) := by
  have hdot : ".".toList = ['.'] := rfl
  have hsplit : splitOnce '.' (ch.repr ++ "." ++ inst.repr) = some (ch.repr, inst.repr) :=
    splitOnce_eq_some.mpr ⟨by simp [hdot], not_digit_mem_repr rfl ch⟩
  unfold parseIdentity
  rw [hsplit]
  simp [parseUnsigned_repr hch, parseUnsigned_repr hinst]

/-- The suffixed id is read back: the last `#` is the one that was written. -/
theorem parse_render_true {p : ProductId} (hsource : ':' ∉ p.source.toList) (hne : p.source ≠ "") (hsymbol : p.symbol ≠ "")
    (hch : p.channel ≤ 255) (hinst : p.instrumentId ≤ 4294967295) :
    parse u (p.render true) = some ⟨toUppercase u p.source, p.symbol, some (p.channel, p.instrumentId)⟩ := by
  have hhash : '#' ∉ (p.channel.repr ++ "." ++ p.instrumentId.repr).toList := by
    have hdot : ".".toList = ['.'] := rfl
    simp only [String.toList_append, hdot, List.mem_append, List.mem_singleton, not_or]
    exact ⟨⟨not_digit_mem_repr rfl _, by decide⟩, not_digit_mem_repr rfl _⟩
  have hrsplit : rsplitOnce '#' (p.rest true) = some (p.symbol, p.channel.repr ++ "." ++ p.instrumentId.repr) :=
    rsplitOnce_eq_some.mpr ⟨toList_rest_true p, hhash⟩
  have hrest : p.rest true ≠ "" := by
    intro h
    have hlist := toList_rest_true p
    rw [h] at hlist
    cases hs : p.symbol.toList <;> rw [hs] at hlist <;> cases hlist
  unfold parse
  rw [splitOnce_render hsource]
  simp [hne, hrest, parseRest, hrsplit, parseIdentity_repr hch hinst, hsymbol]

/-- The bare id is read back when the symbol has no `#`. -/
theorem parse_render_false {p : ProductId} (hsource : ':' ∉ p.source.toList) (hne : p.source ≠ "") (hsymbol : p.symbol ≠ "")
    (hhash : '#' ∉ p.symbol.toList) :
    parse u (p.render false) = some ⟨toUppercase u p.source, p.symbol, none⟩ := by
  have hrsplit : rsplitOnce '#' (p.rest false) = none := rsplitOnce_eq_none.mpr hhash
  have hrest : p.rest false ≠ "" := hsymbol
  unfold parse
  rw [splitOnce_render hsource]
  simp [hne, hrest, parseRest, hrsplit]
  rfl

/-- The parts of a text that parses. -/
theorem parse_eq_some {s : String} {id : ParsedId} (h : parse u s = some id) :
    ∃ source rest, splitOnce ':' s = some (source, rest) ∧ rest ≠ "" ∧ id.source = toUppercase u source ∧ id.symbol ≠ "" ∧
      ('#' ∉ rest.toList → id.symbol = rest) ∧ ('#' ∈ rest.toList → id.symbol.toList.length < rest.toList.length) := by
  unfold parse at h
  cases hsplit : splitOnce ':' s with
  | none =>
    rw [hsplit] at h
    cases h
  | some parts =>
    obtain ⟨source, rest⟩ := parts
    rw [hsplit] at h
    simp only [Option.bind_eq_bind, Option.bind_some] at h
    split_ifs at h with hne
    rw [not_or] at hne
    obtain ⟨⟨symbol, identity⟩, hrest, h⟩ := Option.bind_eq_some_iff.mp h
    dsimp only at h
    split_ifs at h with hsymbol
    cases h
    refine ⟨source, rest, rfl, hne.2, rfl, hsymbol, ?_⟩
    unfold parseRest at hrest
    cases hrsplit : rsplitOnce '#' rest with
    | none =>
      rw [hrsplit] at hrest
      cases hrest
      exact ⟨fun _ => rfl, fun hmem => absurd hmem (rsplitOnce_eq_none.mp hrsplit)⟩
    | some parts =>
      obtain ⟨sym, tail⟩ := parts
      rw [hrsplit] at hrest
      obtain ⟨hlist, -⟩ := rsplitOnce_eq_some.mp hrsplit
      obtain ⟨identity, -, heq⟩ := Option.map_eq_some_iff.mp hrest
      cases heq
      refine ⟨fun hnot => absurd ?_ hnot, fun _ => ?_⟩
      · rw [hlist]
        simp
      · show symbol.toList.length < rest.toList.length
        rw [hlist, List.length_append, List.length_cons]
        omega

/-- No source that parses has a colon. -/
theorem colon_notMem_source {s : String} {id : ParsedId} (h : parse u s = some id) : ':' ∉ id.source.toList := by
  obtain ⟨source, rest, hsplit, -, hsource, -⟩ := parse_eq_some h
  rw [hsource]
  exact fun hmem => (splitOnce_eq_some.mp hsplit).2 (mem_of_mem_toUppercase (by decide) (by decide) hmem)

/-- An id that says its definition's symbol was rendered for a symbol it can spell. -/
theorem spelled_of_parse {p : ProductId} {ambiguous : Bool} {id : ParsedId} (hsource : ':' ∉ p.source.toList)
    (h : parse u (p.render ambiguous) = some id) (hsymbol : id.symbol = p.symbol) :
    p.symbol ≠ "" ∧ ('#' ∈ p.symbol.toList → ambiguous = true) := by
  obtain ⟨source, rest, hsplit, -, -, hne, -, hlt⟩ := parse_eq_some h
  rw [splitOnce_render hsource] at hsplit
  cases hsplit
  refine ⟨hsymbol ▸ hne, fun hhash => ?_⟩
  cases ambiguous with
  | true => rfl
  | false =>
    have hshort := hlt hhash
    rw [hsymbol] at hshort
    exact absurd hshort (Nat.lt_irrefl _)

end Parse

/-! ## What the catalog has under an id -/

section Hits

variable {instruments : List NormalizedInstrument} {i j : NormalizedInstrument} {id : ParsedId}

theorem of_injective : Function.Injective ProductId.of := by
  rintro ⟨_, _, _, _, _, _⟩ ⟨_, _, _, _, _, _⟩ h
  cases h
  rfl

/-- Whether an id names a definition. -/
def names (id : ParsedId) (i : NormalizedInstrument) : Bool :=
  eqIgnoreAsciiCase i.venue id.source ∧ i.symbol = id.symbol ∧
    id.identity.all fun ci => i.channel = ci.1 ∧ i.instrumentId = ci.2

theorem hits_eq : hits instruments id = (instruments.filter (names id)).map ProductId.of := by
  unfold hits names
  cases id.identity with
  | none => simp
  | some ci =>
    obtain ⟨ch, inst⟩ := ci
    dsimp only
    rw [List.filter_map, List.filter_filter]
    refine congrArg _ (List.filter_congr fun i _ => ?_)
    rw [Bool.eq_iff_iff]
    have hcomp : ((fun p : ProductId => decide (p.channel = ch ∧ p.instrumentId = inst)) ∘ ProductId.of) i =
        decide (i.channel = ch ∧ i.instrumentId = inst) := rfl
    simp only [hcomp, Option.all_some, Bool.and_eq_true, decide_eq_true_iff]
    tauto

theorem mem_hits : ProductId.of i ∈ hits instruments id ↔ i ∈ instruments ∧ names id i = true := by
  rw [hits_eq, List.mem_map_of_injective of_injective, List.mem_filter]

theorem names_self_source (h : names id i = true) : eqIgnoreAsciiCase i.venue id.source = true ∧ i.symbol = id.symbol := by
  unfold names at h
  have hall := of_decide_eq_true h
  exact ⟨hall.1, hall.2.1⟩

/-- In a list without repetitions, an entry is the only one that passes a test, or there is another. -/
theorem filter_eq_singleton_or {α : Type} {p : α → Bool} {l : List α} {a : α} (hl : l.Nodup) (ha : a ∈ l) (hp : p a = true) :
    l.filter p = [a] ∨ 1 < l.countP p ∧ ∃ b ∈ l, b ≠ a ∧ p b = true := by
  have hmem : a ∈ l.filter p := List.mem_filter.mpr ⟨ha, hp⟩
  have hnodup : (l.filter p).Nodup := hl.filter p
  rw [List.countP_eq_length_filter]
  cases hf : l.filter p with
  | nil =>
    rw [hf] at hmem
    cases hmem
  | cons b bs =>
    rw [hf] at hmem hnodup
    cases bs with
    | nil =>
      rw [List.mem_singleton.mp hmem]
      exact .inl rfl
    | cons b' bs =>
      refine .inr ⟨by simp, ?_⟩
      have hb : b ∈ l.filter p := hf ▸ List.mem_cons_self
      have hb' : b' ∈ l.filter p := hf ▸ List.mem_cons_of_mem _ List.mem_cons_self
      by_cases heq : b = a
      · refine ⟨b', (List.mem_filter.mp hb').1, ?_, (List.mem_filter.mp hb').2⟩
        rintro rfl
        exact (List.nodup_cons.mp hnodup).1 (heq ▸ List.mem_cons_self)
      · exact ⟨b, (List.mem_filter.mp hb).1, heq, (List.mem_filter.mp hb).2⟩

/-- More than one entry passes a test exactly when another one than a given one does. -/
theorem one_lt_countP_iff {α : Type} {p : α → Bool} {l : List α} {a : α} (hl : l.Nodup) (ha : a ∈ l) (hp : p a = true) :
    1 < l.countP p ↔ ∃ b ∈ l, b ≠ a ∧ p b = true := by
  rcases filter_eq_singleton_or hl ha hp with h | ⟨hlt, hex⟩
  · rw [List.countP_eq_length_filter, h]
    refine ⟨fun hlt => absurd hlt (Nat.lt_irrefl 1), ?_⟩
    rintro ⟨b, hb, hne, hpb⟩
    have hmem : b ∈ l.filter p := List.mem_filter.mpr ⟨hb, hpb⟩
    rw [h] at hmem
    exact absurd (List.mem_singleton.mp hmem) hne
  · exact ⟨fun _ => hex, fun _ => hlt⟩

theorem sameIdentity_self : sameIdentity i i = true := by
  simp [sameIdentity]

end Hits

namespace Catalog

variable {u : CaseMapping} (c : Catalog u) {i j : NormalizedInstrument}

theorem nodup : c.instruments.Nodup := c.keyed.of_map

theorem candidates_nodup : (candidates c.instruments i).Nodup := (c.nodup.filter _).map of_injective

theorem venue_eq (hi : i ∈ c.instruments) (hj : j ∈ c.instruments) (h : eqIgnoreAsciiCase j.venue i.venue = true) :
    j.venue = i.venue :=
  eq_of_eqIgnoreAsciiCase (c.named j hj).upper (c.named i hi).upper h

/-- The identity of a definition, in full: names differ in more than case. -/
theorem sameIdentity_iff (hi : i ∈ c.instruments) (hj : j ∈ c.instruments) :
    sameIdentity i j = true ↔
      j.venue = i.venue ∧ j.symbol = i.symbol ∧ j.channel = i.channel ∧ j.instrumentId = i.instrumentId := by
  unfold sameIdentity
  rw [decide_eq_true_iff]
  constructor
  · exact fun h => ⟨c.venue_eq hi hj h.1, h.2⟩
  · exact fun h => ⟨h.1 ▸ eqIgnoreAsciiCase_refl _, h.2⟩

theorem isAmbiguous_iff (hi : i ∈ c.instruments) :
    isAmbiguous c.instruments i.venue i.symbol = true ↔
      ∃ j ∈ c.instruments, j ≠ i ∧ j.venue = i.venue ∧ j.symbol = i.symbol := by
  unfold isAmbiguous count
  rw [decide_eq_true_iff, one_lt_countP_iff c.nodup hi (by simp)]
  simp

theorem shared_isAmbiguous (hi : i ∈ c.instruments) (h : Shared c.instruments i) :
    isAmbiguous c.instruments i.venue i.symbol = true := by
  obtain ⟨j, hj, hne, hsame⟩ := h
  obtain ⟨hvenue, hsymbol, -⟩ := (c.sameIdentity_iff hi hj).mp hsame
  exact (c.isAmbiguous_iff hi).mpr ⟨j, hj, hne, hvenue, hsymbol⟩

theorem shared_iff (hi : i ∈ c.instruments) : Shared c.instruments i ↔ 1 < (candidates c.instruments i).length := by
  unfold Shared candidates
  rw [List.length_map, ← List.countP_eq_length_filter, one_lt_countP_iff c.nodup hi sameIdentity_self]

theorem candidates_of_not_shared (hi : i ∈ c.instruments) (h : ¬ Shared c.instruments i) :
    candidates c.instruments i = [ProductId.of i] := by
  unfold candidates
  rcases filter_eq_singleton_or c.nodup hi sameIdentity_self with hone | ⟨-, hex⟩
  · rw [hone]
    rfl
  · exact absurd hex h

/-- The candidates of a definition differ in the category and the Source ID only. -/
theorem of_mem_candidates (hi : i ∈ c.instruments) {p : ProductId} (hp : p ∈ candidates c.instruments i) :
    p.source = i.venue ∧ p.symbol = i.symbol ∧ p.channel = i.channel ∧ p.instrumentId = i.instrumentId := by
  obtain ⟨j, hj, rfl⟩ := List.mem_map.mp hp
  obtain ⟨hj, hsame⟩ := List.mem_filter.mp hj
  exact (c.sameIdentity_iff hi hj).mp hsame

end Catalog

/-! ## The texts of an ambiguous id -/

/-- What is added to the id of a candidate that shares it. -/
def annotation (ps : List ProductId) (p : ProductId) : String :=
  if 1 < ps.countP (fun o => o.category = p.category) then
    " (category: " ++ p.category ++ ", source_id: " ++ p.sourceId.repr ++ ")"
  else " (category: " ++ p.category ++ ")"

/-- Candidates with one id are all annotated. -/
theorem renderAmbiguous_eq {ps : List ProductId} {r : String} (h : ∀ p ∈ ps, p.render true = r) (hlen : 1 < ps.length) :
    renderAmbiguous ps = ps.map fun p => r ++ annotation ps p := by
  unfold renderAmbiguous
  refine List.map_congr_left fun p hp => ?_
  have hall : (ps.countP fun o => o.render true = p.render true) = ps.length := by
    rw [List.countP_eq_length]
    intro o ho
    rw [h o ho, h p hp]
    exact decide_eq_true rfl
  have hcategory : (ps.countP fun o => o.render true = p.render true ∧ o.category = p.category) =
      ps.countP fun o => o.category = p.category := by
    refine List.countP_congr fun o ho => ?_
    rw [h o ho, h p hp]
    simp
  dsimp only
  rw [hall, hcategory, h p hp]
  unfold annotation
  by_cases hmany : 1 < ps.countP fun o => o.category = p.category
  · simp [hlen, hmany, String.append_assoc]
  · simp [hlen, hmany, String.append_assoc]

/-- The number behind the last space is read off a text. -/
theorem sourceId_inj {s t : String} {n m : Nat} (h : s ++ ", source_id: " ++ n.repr = t ++ ", source_id: " ++ m.repr) :
    s = t ∧ n = m := by
  have hsplit : ∀ (s : String) (n : Nat),
      rsplitOnce ' ' (s ++ ", source_id: " ++ n.repr) = some (s ++ ", source_id:", n.repr) := by
    intro s n
    have htail : ", source_id: ".toList = ", source_id:".toList ++ [' '] := rfl
    exact rsplitOnce_eq_some.mpr ⟨by simp [htail], not_digit_mem_repr rfl n⟩
  have hs := hsplit s n
  rw [h, hsplit t m] at hs
  obtain ⟨htext, hnum⟩ := Prod.mk.inj (Option.some.inj hs)
  exact ⟨((String.append_left_inj _).mp htext).symm, (repr_injective hnum).symm⟩

/-- Two candidates get one annotation when they have the category and the Source ID in common, or one reads like the
other. -/
theorem annotation_eq {ps : List ProductId} {p q : ProductId} (hps : ps.Nodup) (hp : p ∈ ps) (hq : q ∈ ps)
    (hone : ∀ p ∈ ps, ∀ q ∈ ps, p.category = q.category → p.sourceId = q.sourceId → p = q) (hmis : ¬ Misread ps)
    (h : annotation ps p = annotation ps q) : p = q := by
  unfold annotation at h
  split_ifs at h with hmanyp hmanyq hmanyq
  · -- Both categories are shared: the Source IDs are written.
    simp only [String.append_assoc, String.append_right_inj] at h
    simp only [← String.append_assoc, String.append_left_inj] at h
    obtain ⟨hcategory, hid⟩ := sourceId_inj h
    exact hone p hp q hq hcategory hid
  · refine absurd ⟨p, hp, q, hq, hmanyp, hmanyq, ?_⟩ hmis
    simp only [String.append_assoc, String.append_right_inj] at h
    simp only [← String.append_assoc, String.append_left_inj] at h
    exact h.symm
  · refine absurd ⟨q, hq, p, hp, hmanyq, hmanyp, ?_⟩ hmis
    simp only [String.append_assoc, String.append_right_inj] at h
    simp only [← String.append_assoc, String.append_left_inj] at h
    exact h
  · simp only [String.append_assoc, String.append_right_inj, String.append_left_inj] at h
    by_contra hne
    exact hmanyq ((one_lt_countP_iff hps hq (decide_eq_true rfl)).mpr ⟨p, hp, hne, decide_eq_true h⟩)

/-- Two annotations are the same when one category reads like the other with its Source ID. -/
theorem annotation_not_injective {ps : List ProductId} (h : Misread ps) :
    ∃ p ∈ ps, ∃ q ∈ ps, p ≠ q ∧ annotation ps p = annotation ps q := by
  obtain ⟨p, hp, q, hq, hmanyp, hmanyq, hcategory⟩ := h
  refine ⟨p, hp, q, hq, ?_, ?_⟩
  · rintro rfl
    exact hmanyq hmanyp
  · unfold annotation
    rw [if_pos hmanyp, if_neg hmanyq, hcategory]
    simp only [String.append_assoc]

/-! ## The ids that resolve back -/

namespace Catalog

variable {u : CaseMapping} (c : Catalog u) {i : NormalizedInstrument}

/-- The texts of the candidates are distinct exactly when no category reads like another one. -/
theorem texts_nodup_iff (hi : i ∈ c.instruments) (hshared : Shared c.instruments i) :
    (renderAmbiguous (candidates c.instruments i)).Nodup ↔ ¬ Misread (candidates c.instruments i) := by
  have hrender : ∀ p ∈ candidates c.instruments i, p.render true = (ProductId.of i).render true := by
    intro p hp
    obtain ⟨hsource, hsymbol, hchannel, hid⟩ := c.of_mem_candidates hi hp
    unfold ProductId.render ProductId.suffix ProductId.of
    rw [hsource, hsymbol, hchannel, hid]
  have hone : ∀ p ∈ candidates c.instruments i, ∀ q ∈ candidates c.instruments i, p.category = q.category →
      p.sourceId = q.sourceId → p = q := by
    intro p hp q hq hcategory hsource
    obtain ⟨hp₁, hp₂, hp₃, hp₄⟩ := c.of_mem_candidates hi hp
    obtain ⟨hq₁, hq₂, hq₃, hq₄⟩ := c.of_mem_candidates hi hq
    cases p
    cases q
    simp_all
  rw [renderAmbiguous_eq hrender ((c.shared_iff hi).mp hshared), List.nodup_map_iff_inj_on c.candidates_nodup]
  constructor
  · intro hinj hmis
    obtain ⟨p, hp, q, hq, hne, heq⟩ := annotation_not_injective hmis
    exact hne (hinj p hp q hq (congrArg _ heq))
  · intro hmis p hp q hq heq
    exact annotation_eq c.candidates_nodup hp hq hone hmis ((String.append_right_inj _).mp heq)

theorem resolve_shared {id : ParsedId} (hi : i ∈ c.instruments) (hshared : Shared c.instruments i)
    (h : hits c.instruments id = candidates c.instruments i) :
    resolve c.instruments id = .ambiguous (renderAmbiguous (candidates c.instruments i)) := by
  have hlen := (c.shared_iff hi).mp hshared
  unfold resolve
  rw [h]
  cases hcands : candidates c.instruments i with
  | nil =>
    rw [hcands] at hlen
    cases hlen
  | cons p ps =>
    cases ps with
    | nil =>
      rw [hcands] at hlen
      exact absurd hlen (Nat.lt_irrefl 1)
    | cons q ps => rfl

/-- An id that names exactly the definitions with its identity resolves back, where the texts are distinct. -/
theorem resolvesBack_of_hits {s : String} {id : ParsedId} (hi : i ∈ c.instruments) (hparse : parse u s = some id)
    (hhits : hits c.instruments id = candidates c.instruments i) (hmis : ¬ Misread (candidates c.instruments i)) :
    ResolvesBack u c.instruments i s := by
  refine ⟨id, hparse, fun hnot => ?_, fun hshared => ⟨hhits, _, c.resolve_shared hi hshared hhits, ?_, ?_⟩⟩
  · unfold resolve
    rw [hhits, c.candidates_of_not_shared hi hnot]
  · exact List.length_map ..
  · exact (c.texts_nodup_iff hi hshared).mpr hmis

/-- A definition an id can spell is resolved to. -/
theorem resolvesBack_of_spellable (hi : i ∈ c.instruments) (h : Spellable c.instruments i) :
    ResolvesBack u c.instruments i ((ProductId.of i).render (isAmbiguous c.instruments i.venue i.symbol)) := by
  have hname := c.named i hi
  have hupper : toUppercase u (ProductId.of i).source = i.venue := hname.upper
  cases hamb : isAmbiguous c.instruments i.venue i.symbol with
  | true =>
    have hparse := parse_render_true (u := u) (p := ProductId.of i) h.source hname.nonempty h.symbol (c.channel i hi)
      (c.instrumentId i hi)
    rw [hupper] at hparse
    refine c.resolvesBack_of_hits hi hparse ?_ h.categories
    rw [hits_eq]
    refine congrArg _ (List.filter_congr fun j _ => ?_)
    simp [names, sameIdentity, ProductId.of]
  | false =>
    have hhash : '#' ∉ i.symbol.toList := fun hmem => by
      rw [h.hash hmem] at hamb
      cases hamb
    have hparse := parse_render_false (u := u) (p := ProductId.of i) h.source hname.nonempty h.symbol hhash
    rw [hupper] at hparse
    have hnot : ¬ Shared c.instruments i := fun hshared => by
      rw [c.shared_isAmbiguous hi hshared] at hamb
      cases hamb
    refine c.resolvesBack_of_hits hi hparse ?_ h.categories
    rw [hits_eq, c.candidates_of_not_shared hi hnot]
    have hself : names ⟨i.venue, (ProductId.of i).symbol, none⟩ i = true := by simp [names, ProductId.of]
    rcases filter_eq_singleton_or c.nodup hi hself with hone | ⟨-, j, hj, hne, hnames⟩
    · rw [hone]
      rfl
    · obtain ⟨hvenue, hsymbol⟩ := names_self_source hnames
      have hambiguous := (c.isAmbiguous_iff hi).mpr ⟨j, hj, hne, c.venue_eq hi hj hvenue, hsymbol⟩
      rw [hambiguous] at hamb
      cases hamb

/-- An id resolved back names its definition. -/
theorem names_of_resolvesBack {s : String} (hi : i ∈ c.instruments) (h : ResolvesBack u c.instruments i s) :
    ∃ id, parse u s = some id ∧ names id i = true := by
  obtain ⟨id, hparse, hone, hmany⟩ := h
  refine ⟨id, hparse, ?_⟩
  suffices hmem : ProductId.of i ∈ hits c.instruments id from (mem_hits.mp hmem).2
  by_cases hshared : Shared c.instruments i
  · rw [(hmany hshared).1]
    exact List.mem_map_of_mem (List.mem_filter.mpr ⟨hi, sameIdentity_self⟩)
  · have hres := hone hshared
    unfold resolve at hres
    split at hres
    · cases hres
    · rename_i p heq
      cases hres
      rw [heq]
      exact List.mem_cons_self
    · cases hres

theorem spellable_of_resolvesBack (hi : i ∈ c.instruments)
    (h : ResolvesBack u c.instruments i ((ProductId.of i).render (isAmbiguous c.instruments i.venue i.symbol))) :
    Spellable c.instruments i := by
  obtain ⟨id, hparse, hnames⟩ := c.names_of_resolvesBack hi h
  obtain ⟨hvenue, hsymbol⟩ := names_self_source hnames
  have hsource : ':' ∉ (ProductId.of i).source.toList := fun hmem =>
    colon_notMem_source hparse (mem_of_eqIgnoreAsciiCase (by decide) (by decide) hvenue hmem)
  obtain ⟨hne, hhash⟩ := spelled_of_parse hsource hparse hsymbol.symm
  refine ⟨hne, hsource, hhash, fun hmis => ?_⟩
  -- A misread category needs two candidates, so the identity is shared and the texts are told apart.
  have hshared : Shared c.instruments i := by
    obtain ⟨p, -, -, -, hmany, -⟩ := hmis
    exact (c.shared_iff hi).mpr (hmany.trans_le List.countP_le_length)
  obtain ⟨id', -, -, hmany⟩ := h
  obtain ⟨hhits, texts, hres, -, hnodup⟩ := hmany hshared
  rw [c.resolve_shared hi hshared hhits] at hres
  cases hres
  exact (c.texts_nodup_iff hi hshared).mp hnodup hmis

end Catalog

/-- **A listed id resolves back to its own product exactly when its syntax can spell it**: the symbol is not empty, the
source has no colon, a symbol with a `#` is listed with its suffix, and no category reads like another one with its
Source ID. -/
theorem productsList_resolvesBack_iff {u : CaseMapping} (c : Catalog u) {limit cursor : Option String}
    {page : List (NormalizedInstrument × String)} {next : Option Nat}
    (h : productsList c.instruments limit cursor = .ok (page, next)) :
    ∀ e ∈ page, ResolvesBack u c.instruments e.1 e.2 ↔ Spellable c.instruments e.1 := by
  intro e he
  unfold productsList at h
  cases hlimit : parseLimit limit with
  | error err =>
    rw [hlimit] at h
    cases h
  | ok n =>
    cases hcursor : parseCursor cursor with
    | error err =>
      rw [hlimit, hcursor] at h
      cases h
    | ok offset =>
      rw [hlimit, hcursor] at h
      cases h
      obtain ⟨i, hi, rfl⟩ := List.mem_map.mp he
      have hmem : i ∈ c.instruments := by
        have hsorted : i ∈ c.instruments.mergeSort catalogLE ↔ i ∈ c.instruments := List.mem_mergeSort
        rw [← hsorted]
        cases n with
        | none => exact List.mem_of_mem_drop hi
        | some n => exact List.mem_of_mem_drop (List.mem_of_mem_take hi)
      exact ⟨c.spellable_of_resolvesBack hmem, c.resolvesBack_of_spellable hmem⟩

section Symbols

-- the channel and the instrument id of the two catalogs are literals of a `u8` and of a `u32`
local instance channel_neZero : NeZero 256 := ⟨by decide⟩
local instance instrumentId_neZero : NeZero 4294967296 := ⟨by decide⟩

/-- A catalog with a symbol of a wire text with a `#`. -/
def hashed : Catalog CaseMapping.basic :=
  Catalog.empty.reveal Labels.builtIn 1 "A#B" "perps" 0 7

/-- The listed id of `hashed` does not parse. -/
theorem hashed_not_resolvesBack :
    ∃ i, productsList hashed.instruments none none = .ok ([(i, "HYPERLIQUID:A#B")], none) ∧
      parse CaseMapping.basic "HYPERLIQUID:A#B" = none ∧
      ¬ ResolvesBack CaseMapping.basic hashed.instruments i "HYPERLIQUID:A#B" := by
  have hparse : parse CaseMapping.basic "HYPERLIQUID:A#B" = none := by decide
  refine ⟨⟨"HYPERLIQUID", 1, "A#B", 0, 7, "perps"⟩, ?_, hparse, ?_⟩
  · have hinstruments : hashed.instruments = [⟨"HYPERLIQUID", 1, "A#B", 0, 7, "perps"⟩] := by decide
    rw [hinstruments]
    unfold productsList
    rw [List.mergeSort_singleton]
    decide
  · rintro ⟨id, hid, -⟩
    rw [hparse] at hid
    cases hid

/-- A catalog with a symbol an id can spell. -/
def plain : Catalog CaseMapping.basic :=
  Catalog.empty.reveal Labels.builtIn 1 "dex:A.2" "perps" 0 7

theorem plain_resolvesBack :
    ResolvesBack CaseMapping.basic plain.instruments ⟨"HYPERLIQUID", 1, "dex:A.2", 0, 7, "perps"⟩ "HYPERLIQUID:dex:A.2" := by
  have hinstruments : plain.instruments = [⟨"HYPERLIQUID", 1, "dex:A.2", 0, 7, "perps"⟩] := by decide
  have hlist : productsList plain.instruments none none =
      .ok ([(⟨"HYPERLIQUID", 1, "dex:A.2", 0, 7, "perps"⟩, "HYPERLIQUID:dex:A.2")], none) := by
    rw [hinstruments]
    unfold productsList
    rw [List.mergeSort_singleton]
    decide
  refine (productsList_resolvesBack_iff plain hlist _ List.mem_cons_self).mpr ⟨by decide, by decide, by decide, ?_⟩
  unfold Misread
  decide

end Symbols

end EdgeConnect.Products
