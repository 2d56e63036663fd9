import EdgeConnect.Lib.FinMap
import EdgeConnect.Lib.Text
import EdgeConnect.Model.Book
import Mathlib.Data.List.Sort

/-!
# Source names (`src/ingest/sources.rs`)

* `BUILT_IN`, `sourceName`, `sourceIdsOf` — the table of the assigned Source IDs;
* `sourceLabel` — the name a Source ID is published under, assigned or synthesized;
* `Named` — what every such label is: not empty, and its own uppercase; `Labels` — a table and the labels so far.
-/

set_option autoImplicit false

namespace EdgeConnect.Sources

open Text

structure SourceAssignment where
  id : Nat
  name : String
  deriving DecidableEq, Repr

/-- The table of a document that carries none. -/
def BUILT_IN : List SourceAssignment :=
  [⟨1, "HYPERLIQUID"⟩, ⟨2, "PHOENIX"⟩, ⟨3, "KALSHI"⟩, ⟨4, "SETAI_FINANCIALS"⟩, ⟨5, "SETAI_COMMODITIES"⟩,
    ⟨6, "BINANCE"⟩, ⟨7, "HYPERLIQUID"⟩, ⟨8, "BINANCE"⟩]

def sourceName (table : List SourceAssignment) (sourceId : Nat) : Option String :=
  (table.find? fun a => a.id = sourceId).map SourceAssignment.name

/-- The IDs a name is assigned, ascending. -/
def sourceIdsOf (table : List SourceAssignment) (source : String) : List Nat :=
  ((table.filter fun a => a.name = source).map SourceAssignment.id).insertionSort (· ≤ ·)

def MAX_UNREGISTERED_SOURCES : Nat := 64

/-- `label_in`: a synthesized label, distinct of every ID until there are too many. -/
def labelIn (map : FinMap Nat String) (sourceId : Nat) : String × FinMap Nat String :=
  match map.get sourceId with
  | some label => (label, map)
  | none =>
    if map.size ≥ MAX_UNREGISTERED_SOURCES then (UNREGISTERED, map)
    else
      let label := "SOURCE_" ++ sourceId.repr
      (label, map.insert sourceId label)

/-- The label of a Source ID, with the labels synthesized so far. -/
def sourceLabel (table : List SourceAssignment) (map : FinMap Nat String) (sourceId : Nat) :
    String × FinMap Nat String :=
  match sourceName table sourceId with
  | some name => (name, map)
  | none => labelIn map sourceId

/-- What consumers are promised of a name. -/
structure Named (u : CaseMapping) (name : String) : Prop where
  nonempty : name ≠ ""
  upper : toUppercase u name = name

variable {u : CaseMapping}

theorem named_synthesized (id : Nat) : Named u ("SOURCE_" ++ id.repr) := by
  constructor
  · intro h
    have hlist := congrArg String.toList h
    rw [String.toList_append] at hlist
    cases hlist
  · refine toUppercase_of_ascii fun c hc => ?_
    rw [String.toList_append, List.mem_append] at hc
    rcases hc with hc | hc
    · exact isCapital_iff.mp (List.all_eq_true.mp (by decide : "SOURCE_".toList.all isCapital) c hc)
    · have hdigit := isDigit_of_mem_repr hc
      have hbounds : 48 ≤ c.toNat ∧ c.toNat ≤ 57 := by
        unfold Char.isDigit at hdigit
        simp only [ge_iff_le, Bool.and_eq_true, decide_eq_true_eq, UInt32.le_iff_toNat_le] at hdigit
        exact hdigit
      refine ⟨by omega, Char.toNat_inj.mp ?_⟩
      rw [toNat_toUpper, if_neg (by omega)]

theorem named_unregistered : Named u UNREGISTERED :=
  ⟨by decide, toUppercase_of_capitals (by decide)⟩

theorem named_builtIn : ∀ a ∈ BUILT_IN, Named u a.name := by
  have hcapitals : ∀ a ∈ BUILT_IN, a.name ≠ "" ∧ a.name.toList.all isCapital = true := by decide
  exact fun a ha => ⟨(hcapitals a ha).1, toUppercase_of_capitals (hcapitals a ha).2⟩

/-- A table of names, and the labels synthesized so far. -/
structure Labels (u : CaseMapping) where
  table : List SourceAssignment
  map : FinMap Nat String
  named : ∀ a ∈ table, Named u a.name
  synthesized : ∀ id label, map.get id = some label → label = "SOURCE_" ++ id.repr

/-- The built-in table, before any label. -/
def Labels.builtIn : Labels u := ⟨BUILT_IN, ∅, named_builtIn, nofun⟩

theorem labelIn_synthesized {map : FinMap Nat String} (h : ∀ id label, map.get id = some label → label = "SOURCE_" ++ id.repr)
    (sourceId : Nat) :
    ∀ id label, (labelIn map sourceId).2.get id = some label → label = "SOURCE_" ++ id.repr := by
  unfold labelIn
  cases hget : map.get sourceId with
  | some label => exact h
  | none =>
    dsimp only
    split_ifs
    · exact h
    · intro id label hlabel
      rw [FinMap.get_insert] at hlabel
      split_ifs at hlabel with hid
      · cases hlabel
        rw [hid]
      · exact h id label hlabel

theorem sourceLabel_synthesized (l : Labels u) (sourceId : Nat) :
    ∀ id label, (sourceLabel l.table l.map sourceId).2.get id = some label → label = "SOURCE_" ++ id.repr := by
  unfold sourceLabel
  cases sourceName l.table sourceId with
  | some name => exact l.synthesized
  | none => exact labelIn_synthesized l.synthesized sourceId

/-- Look a label up, or synthesize it. -/
def Labels.label (l : Labels u) (sourceId : Nat) : String × Labels u :=
  let r := sourceLabel l.table l.map sourceId
  (r.1, ⟨l.table, r.2, l.named, sourceLabel_synthesized l sourceId⟩)

/-- Every label is a name, whatever the Source ID. -/
theorem Labels.label_named (l : Labels u) (sourceId : Nat) : Named u (l.label sourceId).1 := by
  show Named u (sourceLabel l.table l.map sourceId).1
  unfold sourceLabel
  cases hname : sourceName l.table sourceId with
  | some name =>
    obtain ⟨a, ha, rfl⟩ := Option.map_eq_some_iff.mp hname
    exact l.named a (List.mem_of_find?_eq_some ha)
  | none =>
    unfold labelIn
    cases hget : l.map.get sourceId with
    | some label =>
      rw [l.synthesized sourceId label hget]
      exact named_synthesized sourceId
    | none =>
      dsimp only
      split_ifs
      · exact named_unregistered
      · exact named_synthesized sourceId

end EdgeConnect.Sources
