import EdgeConnect.Ingest.Arbiter

/-!
# The feed registry (`src/ingest/feeds.rs`, `src/ingest/registry.rs`)

The rows a process may run, and the checks that span them.

* `Feed`, `FeedPublisher` — a row, and one port block of it; `tapeRank` — which kinds can carry a tape;
* `checkCrossRowInvariants` — the checks a document of rows passes before anything runs;
* `rows_nodup`, `emitTrades_iff` — a checked document names each row once, and its `emit_trades` agree with the
  ranking.
-/

set_option autoImplicit false

namespace EdgeConnect.Registry

open Arbiter (ArbitrationMode)

inductive FeedKind where
  | topOfBook
  | midpoint
  | marketByOrder
  | marketByPrice
  deriving DecidableEq, Repr

namespace FeedKind

def label : FeedKind → String
  | .topOfBook => "tob"
  | .midpoint => "midpoint"
  | .marketByOrder => "mbo"
  | .marketByPrice => "mbp"

/-- The kinds that build a book. -/
def buildsBook : FeedKind → Bool
  | .marketByPrice | .marketByOrder => true
  | .topOfBook | .midpoint => false

end FeedKind

/-- `tape_rank`: which kind should carry a tape, lowest first; none for a kind that never prints. -/
def tapeRank : FeedKind → Option Nat
  | .topOfBook => some 0
  | .marketByPrice => some 1
  | .marketByOrder | .midpoint => none

inductive FeedPorts where
  | twoPort (mktdata refdata : Nat)
  | threePort (mktdata refdata snapshot : Nat)
  deriving DecidableEq, Repr

namespace FeedPorts

def mktdata : FeedPorts → Nat
  | .twoPort m _ | .threePort m _ _ => m

def refdata : FeedPorts → Nat
  | .twoPort _ r | .threePort _ r _ => r

def snapshot : FeedPorts → Option Nat
  | .twoPort _ _ => none
  | .threePort _ _ s => some s

end FeedPorts

/-- One port block of a row, with the channel it was derived from and what the document calls that channel. -/
structure FeedPublisher where
  ports : FeedPorts
  channel : Option Nat
  label : Option String
  deriving DecidableEq, Repr

def FeedPublisher.basePort (p : FeedPublisher) : Nat := p.ports.mktdata

/-- A row of the registry.  `group` is the multicast address. -/
structure Feed where
  venue : String
  category : String
  code : String
  kind : FeedKind
  group : Nat
  publishers : List FeedPublisher
  emitTrades : Bool
  arbitration : ArbitrationMode
  sharedBatchId : Bool
  mirrorOffset : Option Nat
  sourceId : Option Nat
  deriving DecidableEq, Repr

/-- What identifies a row. -/
def Feed.row (f : Feed) : String × String × FeedKind := (f.venue, f.category, f.kind)

/-! ## The checks -/

inductive RegistryError where
  | duplicateRow (venue category kind : String)
  | arbitrationDisagreement (venue : String)
  | sharedBatchIdOnNonBookRow (venue category kind : String)
  | sharedBatchIdDisagreement (venue category : String)
  | sourceIdDisagreement (venue category : String)
  | mixedChannelShape (venue category : String)
  | emitTradesDisagrees (venue category kind : String)
  | sharedOrderBookCategory (category : String) (venues : String × String)
  | portShape (venue category kind : String) (basePort expected found : Nat)
  | duplicateGroupPort (venue : String) (group port : Nat)
  | unsupportedVersion (version : Nat)
  | noFeeds
  | emptyField (venue field : String)
  | unknownVenue (venue : String)
  | sourceIdMismatch (venue category : String) (sourceId : Nat) (assigned : Option String)
  | badSourceName (id : Nat) (name : String)
  | duplicateSource (id : Nat) (name : String)
  | emptyPublishedSet (venue category : String)
  | emptyPublishers (venue category : String)
  | badRange (venue : String) (lo hi : Nat)
  | duplicateBasePort (venue category : String) (port : Nat)
  | portOverflow (venue : String) (base id : Nat)
  deriving DecidableEq, Repr

/-- How many ports one publisher of a protocol binds. -/
def portRolesFor : FeedKind → Nat
  | .topOfBook | .midpoint => 2
  | .marketByOrder | .marketByPrice => 3

/-- What the rows before have declared. -/
structure Seen where
  triples : List (String × String × FeedKind)
  modes : List (String × ArbitrationMode)
  declared : List ((String × String) × Option Nat)
  shapes : List ((String × String) × Bool)
  groupPorts : List (Nat × Nat)
  mboCategories : List (String × String)
  sharedSlots : List ((String × String) × Bool)

def Seen.empty : Seen := ⟨[], [], [], [], [], [], []⟩

/-- Refuse the document. -/
def refuseIf (bad : Prop) [Decidable bad] (err : RegistryError) : Except RegistryError Unit :=
  if bad then .error err else .ok ()

/-- The first row of a scope that the check applies to declares a value for it, and every later one must declare
the same. -/
def agree {κ ν : Type} [DecidableEq κ] [DecidableEq ν] (applies : Bool) (seen : List (κ × ν)) (scope : κ) (v : ν)
    (err : ν → RegistryError) : Except RegistryError (List (κ × ν)) :=
  if applies then
    match seen.lookup scope with
    | none => .ok ((scope, v) :: seen)
    | some v' => if v' = v then .ok seen else .error (err v')
  else .ok seen

/-- No two sockets share a port of a group. -/
def claimPorts (f : Feed) : List (Nat × Nat) → List Nat → Except RegistryError (List (Nat × Nat))
  | seen, [] => .ok seen
  | seen, port :: ports =>
    if (f.group, port) ∈ seen then .error (.duplicateGroupPort f.venue f.group port)
    else claimPorts f ((f.group, port) :: seen) ports

def checkPublishers (f : Feed) : List (Nat × Nat) → List FeedPublisher → Except RegistryError (List (Nat × Nat))
  | seen, [] => .ok seen
  | seen, p :: ps =>
    let expected := portRolesFor f.kind
    let found := if p.ports.snapshot.isSome then 3 else 2
    if found ≠ expected then .error (.portShape f.venue f.category f.kind.label p.basePort expected found)
    else
      match claimPorts f seen (p.ports.mktdata :: p.ports.refdata :: p.ports.snapshot.toList) with
      | .error e => .error e
      | .ok seen => checkPublishers f seen ps

def checkRow (s : Seen) (f : Feed) : Except RegistryError Seen := do
  let scope := (f.venue, f.category)
  let tape := (tapeRank f.kind).isSome
  let derived := f.publishers.any fun p => p.channel.isSome
  let _ ← refuseIf (f.row ∈ s.triples) (.duplicateRow f.venue f.category f.kind.label)
  let modes ← agree true s.modes f.venue f.arbitration fun _ => .arbitrationDisagreement f.venue
  let _ ← refuseIf (f.sharedBatchId ∧ !f.kind.buildsBook)
    (.sharedBatchIdOnNonBookRow f.venue f.category f.kind.label)
  let sharedSlots ← agree f.kind.buildsBook s.sharedSlots scope f.sharedBatchId fun _ =>
    .sharedBatchIdDisagreement f.venue f.category
  let declared ← agree true s.declared scope f.sourceId fun _ => .sourceIdDisagreement f.venue f.category
  let shapes ← agree tape s.shapes scope derived fun _ => .mixedChannelShape f.venue f.category
  let _ ← refuseIf (f.emitTrades ≠ tape) (.emitTradesDisagrees f.venue f.category f.kind.label)
  let mboCategories ← agree (f.kind = .marketByOrder) s.mboCategories f.category f.venue fun venue =>
    .sharedOrderBookCategory f.category (venue, f.venue)
  let groupPorts ← checkPublishers f s.groupPorts f.publishers
  return ⟨f.row :: s.triples, modes, declared, shapes, groupPorts, mboCategories, sharedSlots⟩

def checkRows : Seen → List Feed → Except RegistryError Seen
  | s, [] => .ok s
  | s, f :: fs =>
    match checkRow s f with
    | .error e => .error e
    | .ok s => checkRows s fs

/-- `check_cross_row_invariants`. -/
def checkCrossRowInvariants (rows : List Feed) : Except RegistryError Unit :=
  (checkRows .empty rows).map fun _ => ()

/-! ## What a checked document is -/

theorem bind_eq_ok {α β : Type} {x : Except RegistryError α} {f : α → Except RegistryError β} {b : β}
    (h : x >>= f = .ok b) : ∃ a, x = .ok a ∧ f a = .ok b := by
  cases x with
  | error e => cases h
  | ok a => exact ⟨a, rfl, h⟩

theorem refuseIf_ok {bad : Prop} [Decidable bad] {err : RegistryError} {u : Unit}
    (h : refuseIf bad err = .ok u) : ¬ bad := by
  intro hbad
  unfold refuseIf at h
  rw [if_pos hbad] at h
  cases h

theorem checkRow_ok {s s' : Seen} {f : Feed} (h : checkRow s f = .ok s') :
    f.row ∉ s.triples ∧ s'.triples = f.row :: s.triples ∧ f.emitTrades = (tapeRank f.kind).isSome := by
  obtain ⟨_, hrow, h⟩ := bind_eq_ok h
  obtain ⟨modes, -, h⟩ := bind_eq_ok h
  obtain ⟨_, -, h⟩ := bind_eq_ok h
  obtain ⟨sharedSlots, -, h⟩ := bind_eq_ok h
  obtain ⟨declared, -, h⟩ := bind_eq_ok h
  obtain ⟨shapes, -, h⟩ := bind_eq_ok h
  obtain ⟨_, htape, h⟩ := bind_eq_ok h
  obtain ⟨mboCategories, -, h⟩ := bind_eq_ok h
  obtain ⟨groupPorts, -, h⟩ := bind_eq_ok h
  cases h
  exact ⟨refuseIf_ok hrow, rfl, not_not.mp (refuseIf_ok htape)⟩

theorem checkRows_ok {s s' : Seen} : ∀ {rows : List Feed}, checkRows s rows = .ok s' → s.triples.Nodup →
    (rows.map Feed.row).Nodup ∧ (∀ f ∈ rows, f.row ∉ s.triples ∧ f.emitTrades = (tapeRank f.kind).isSome)
  | [], _, _ => ⟨List.nodup_nil, nofun⟩
  | f :: rows, h, hs => by
    unfold checkRows at h
    cases hrow : checkRow s f with
    | error e =>
      rw [hrow] at h
      cases h
    | ok s₁ =>
      rw [hrow] at h
      obtain ⟨hnew, htriples, hemit⟩ := checkRow_ok hrow
      obtain ⟨hnodup, hall⟩ := checkRows_ok h (htriples ▸ List.nodup_cons.mpr ⟨hnew, hs⟩)
      rw [htriples] at hall
      refine ⟨?_, ?_⟩
      · rw [List.map_cons, List.nodup_cons]
        refine ⟨fun hmem => ?_, hnodup⟩
        obtain ⟨g, hg, heq⟩ := List.mem_map.mp hmem
        exact (hall g hg).1 (heq ▸ List.mem_cons_self)
      · intro g hg
        rcases List.mem_cons.mp hg with rfl | hg
        · exact ⟨hnew, hemit⟩
        · exact ⟨fun hmem => (hall g hg).1 (List.mem_cons_of_mem _ hmem), (hall g hg).2⟩

section Checked

variable {rows : List Feed} (h : checkCrossRowInvariants rows = .ok ())

include h

theorem checkRows_of_checked : ∃ s, checkRows .empty rows = .ok s := by
  unfold checkCrossRowInvariants at h
  cases hrows : checkRows .empty rows with
  | error e =>
    rw [hrows] at h
    cases h
  | ok s => exact ⟨s, rfl⟩

/-- A checked document names each row once. -/
theorem rows_nodup : (rows.map Feed.row).Nodup := by
  obtain ⟨s, hs⟩ := checkRows_of_checked h
  exact (checkRows_ok hs List.nodup_nil).1

/-- A checked row claims the tape exactly when its kind is ranked. -/
theorem emitTrades_iff {f : Feed} (hf : f ∈ rows) : f.emitTrades = (tapeRank f.kind).isSome := by
  obtain ⟨s, hs⟩ := checkRows_of_checked h
  exact ((checkRows_ok hs List.nodup_nil).2 f hf).2

end Checked

/-- What `select_feeds` and `filter_publishers` can leave of a document: some of its rows, each at most once, with
some of their publishers. -/
structure Selected (rows enabled : List Feed) : Prop where
  once : (enabled.map Feed.row).Subperm (rows.map Feed.row)
  kept : ∀ f ∈ enabled, ∃ g ∈ rows, f = { g with publishers := f.publishers } ∧ f.publishers.Sublist g.publishers

end EdgeConnect.Registry
