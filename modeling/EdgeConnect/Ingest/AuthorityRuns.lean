import EdgeConnect.Ingest.Authority
import EdgeConnect.Lib.Machine

/-!
# Runs of the single-path authority

`StickyAuthority` as a machine over its operations, in any order.

* `Scoped` — an operation on one market leaves the elections and the path numbering alone;
* `Labelled`, `Led` — every recorded path holds an ordinal, a scope records at most
  `MAX_LABELLED_PATHS` of them, and its leader is one of them;
* `unhealthy_path_is_last_resort` — a batch emitted for a path that is unhealthy on the market comes
  from the scope's leader, with every other recorded path unhealthy there as well.
-/

set_option autoImplicit false

namespace EdgeConnect.Authority

open Arbiter

/-- The first of the largest elements exists in every list but the empty one. -/
theorem maxBy_eq_none {α : Type*} {less : α → α → Bool} {l : List α} (h : maxBy less l = none) :
    l = [] := by
  cases l with
  | nil => rfl
  | cons a l =>
    unfold maxBy at h
    split at h
    · cases h
    · split at h
      · cases h
      · cases h

theorem mem_of_maxBy {α : Type*} {less : α → α → Bool} : ∀ {l : List α} {a : α},
    maxBy less l = some a → a ∈ l
  | [], _, h => by cases h
  | b :: l, a, h => by
    unfold maxBy at h
    split at h
    · cases h
      exact List.mem_cons_self
    · rename_i c hc
      split at h
      · cases h
        exact List.mem_cons_self
      · cases h
        exact List.mem_cons_of_mem _ (mem_of_maxBy hc)

namespace StickyAuthority

/-! ## The machine -/

/-- `set_config`: the tunables, with every elected leader and health flag kept. -/
def setConfig (s : StickyAuthority) (cfg : AuthorityConfig) : StickyAuthority := { s with cfg }

/-- `transfer_scope_to`: force a scope's authority; a scope without a leader stays without one. -/
def transferScopeTo (s : StickyAuthority) (scope : ScopeKey) (path : Transport) (atNs : Nat) :
    StickyAuthority :=
  match s.scopes.get scope with
  | none => s
  | some v => { s with scopes := s.scopes.insert scope (v.transferTo path atNs) }

/-- One operation on the authority; `iter` of `closeWindow` is the iteration order of each scope's
path map. -/
inductive Call where
  | admitBatch (key : BookKey) (publisher : Transport) (arrivalNs : Nat)
  | admitSynthesized (key : BookKey) (publisher : Transport)
  | setHealth (key : BookKey) (publisher : Transport) (healthy : Bool)
  | noteRebaselinePoint (key : BookKey) (publisher : Transport)
  | transferScopeTo (scope : ScopeKey) (path : Transport) (atNs : Nat)
  | observeMatchedLead (scope : ScopeKey) (path : Transport) (leadNs : Int)
  | closeWindow (iter : ScopeKey → List Transport) (nowNs : Nat)
  | dropHold (key : BookKey)
  | forgetMarket (key : BookKey)
  | setConfig (cfg : AuthorityConfig)

def step (s : StickyAuthority) : Call → StickyAuthority × Option (Admit Transport)
  | .admitBatch key publisher arrivalNs =>
    ((s.admitBatch key publisher arrivalNs).1, some (s.admitBatch key publisher arrivalNs).2)
  | .admitSynthesized key publisher =>
    ((s.admitSynthesized key publisher).1, some (s.admitSynthesized key publisher).2)
  | .setHealth key publisher healthy => (s.setHealth key publisher healthy, none)
  | .noteRebaselinePoint key publisher => (s.noteRebaselinePoint key publisher, none)
  | .transferScopeTo scope path atNs => (s.transferScopeTo scope path atNs, none)
  | .observeMatchedLead scope path leadNs => (s.observeMatchedLead scope path leadNs, none)
  | .closeWindow iter nowNs => (s.closeWindow iter nowNs, none)
  | .dropHold key => (s.dropHold key, none)
  | .forgetMarket key => (s.forgetMarket key, none)
  | .setConfig cfg => (s.setConfig cfg, none)

/-- The authority as a machine over its operations. -/
def machine : Machine StickyAuthority Call (Option (Admit Transport)) := ⟨step⟩

/-- A call that asks whether `publisher` serves market `key`. -/
inductive Call.Admits (key : BookKey) (publisher : Transport) : Call → Prop
  | batch (arrivalNs : Nat) : Admits key publisher (.admitBatch key publisher arrivalNs)
  | synthesized : Admits key publisher (.admitSynthesized key publisher)

/-- Whether a step let a batch out. -/
def letOut (out : Option (Admit Transport)) : Bool := out.any (·.isEmitted)

/-- A forced transfer goes to a path its scope has recorded. -/
def RecordedTransfer (s : StickyAuthority) : Call → Prop
  | .transferScopeTo scope path _ => s.tracksPath scope path = true
  | _ => True

variable {s s' : StickyAuthority} {key k : BookKey} {publisher : Transport}

/-! ## Frames: what leaves the elections alone -/

/-- The elections, the path numbering and the tunables are the same. -/
structure Scoped (s s' : StickyAuthority) : Prop where
  scopes : s'.scopes = s.scopes
  ordinals : s'.ordinals = s.ordinals
  cfg : s'.cfg = s.cfg

theorem Scoped.refl (s : StickyAuthority) : Scoped s s := ⟨rfl, rfl, rfl⟩

theorem Scoped.trans {s'' : StickyAuthority} (h : Scoped s s') (h' : Scoped s' s'') : Scoped s s'' :=
  ⟨h'.scopes.trans h.scopes, h'.ordinals.trans h.ordinals, h'.cfg.trans h.cfg⟩

theorem Scoped.scopeLeader (h : Scoped s s') (scope : ScopeKey) :
    s'.scopeLeader scope = s.scopeLeader scope := by
  unfold StickyAuthority.scopeLeader
  rw [h.scopes]

theorem updateMarket_scoped (s : StickyAuthority) (key : BookKey) (f : MarketState → MarketState) :
    Scoped s (s.updateMarket key f) := by
  unfold updateMarket
  exact ⟨rfl, rfl, rfl⟩

theorem storeHold_scoped (s : StickyAuthority) (key : BookKey) (stored next : Option RevertHold) :
    Scoped s (s.storeHold key stored next) := by
  unfold storeHold
  split
  · exact updateMarket_scoped _ _ _
  · exact .refl s

theorem refreshHold_scoped (s : StickyAuthority) (key : BookKey) (publisher : Transport) (now : Nat) :
    Scoped s (s.refreshHold key publisher now) := by
  unfold refreshHold
  split
  · exact .refl s
  · simp only
    split
    · exact .refl s
    · split
      · split
        · exact storeHold_scoped _ _ _ _
        · exact storeHold_scoped _ _ _ _
      · refine Scoped.trans ?_ (storeHold_scoped _ _ _ _)
        exact ⟨rfl, rfl, rfl⟩

theorem noteRebaselinePoint_scoped (s : StickyAuthority) (key : BookKey) (publisher : Transport) :
    Scoped s (s.noteRebaselinePoint key publisher) := by
  unfold noteRebaselinePoint
  split
  · exact .refl s
  · exact ⟨rfl, rfl, rfl⟩

theorem dropHold_scoped (s : StickyAuthority) (key : BookKey) : Scoped s (s.dropHold key) := by
  unfold dropHold
  split
  · exact .refl s
  · exact ⟨rfl, rfl, rfl⟩

/-! ## The path numbering -/

/-- What asking for an ordinal does: a labelled path keeps its label, a new one is numbered while the
scope has a label left, and past the cap nothing changes. -/
theorem pathOrdinal_cases (s : StickyAuthority) (scope : ScopeKey) (publisher : Transport) :
    (∃ label, s.pathOrdinal scope publisher = (s, some label) ∧
      s.pathLabel scope publisher = some label) ∨
    (∃ os, s.pathOrdinal scope publisher =
        ({ s with ordinals := s.ordinals.insert scope (os.insert publisher os.size) }, some os.size) ∧
      os = (s.ordinals.get scope).getD ∅ ∧ os.size < MAX_LABELLED_PATHS) ∨
    (s.pathOrdinal scope publisher = (s, none) ∧ s.pathLabel scope publisher = none ∧
      MAX_LABELLED_PATHS ≤ ((s.ordinals.get scope).getD ∅).size) := by
  have hlabel : s.pathLabel scope publisher = ((s.ordinals.get scope).getD ∅).get publisher := by
    unfold pathLabel
    cases s.ordinals.get scope <;> rfl
  unfold pathOrdinal
  simp only
  split
  · rename_i label h
    exact .inl ⟨label, rfl, hlabel.trans h⟩
  · rename_i h
    split
    · rename_i hroom
      exact .inr (.inl ⟨_, rfl, rfl, hroom⟩)
    · rename_i hfull
      exact .inr (.inr ⟨rfl, hlabel.trans h, not_lt.mp hfull⟩)

/-- Every recorded path holds an ordinal, and a scope has at most `MAX_LABELLED_PATHS` of them. -/
structure Labelled (s : StickyAuthority) : Prop where
  bounded : ∀ scope os, s.ordinals.get scope = some os → os.size ≤ MAX_LABELLED_PATHS
  labelled : ∀ scope v p, s.scopes.get scope = some v → v.paths.contains p = true →
    (s.pathLabel scope p).isSome = true

/-- Every scope's leader is one of its recorded paths. -/
def Led (s : StickyAuthority) : Prop :=
  ∀ scope v, s.scopes.get scope = some v → v.paths.contains v.leader = true

theorem Labelled.of_scoped (h : Labelled s) (hs : Scoped s s') : Labelled s' := by
  refine ⟨fun scope os hos => h.bounded scope os (hs.ordinals ▸ hos), fun scope v p hv hp => ?_⟩
  have := h.labelled scope v p (hs.scopes ▸ hv) hp
  unfold pathLabel at this ⊢
  rwa [hs.ordinals]

theorem Led.of_scopes (h : Led s) (hs : s'.scopes = s.scopes) : Led s' := by
  intro scope v hv
  exact h scope v (hs ▸ hv)

/-- No label is ever lost. -/
theorem pathOrdinal_keepsLabel (s : StickyAuthority) (scope : ScopeKey) (publisher : Transport)
    {scope' : ScopeKey} {p : Transport} (h : (s.pathLabel scope' p).isSome = true) :
    ((s.pathOrdinal scope publisher).1.pathLabel scope' p).isSome = true := by
  obtain ⟨_, he, -⟩ | ⟨os, he, hos, -⟩ | ⟨he, -⟩ := pathOrdinal_cases s scope publisher
  · rw [he]; exact h
  · rw [he]
    unfold pathLabel at h ⊢
    simp only [FinMap.get_insert]
    by_cases hsc : scope' = scope
    · subst hsc
      rw [if_pos rfl]
      simp only [Option.bind_some, FinMap.get_insert]
      by_cases hp : p = publisher
      · rw [if_pos hp]; rfl
      · rw [if_neg hp, hos]
        cases hg : s.ordinals.get scope' with
        | none => rw [hg] at h; cases h
        | some os' => rw [hg] at h; exact h
    · rw [if_neg hsc]
      exact h
  · rw [he]; exact h

/-- Asking for an ordinal keeps the numbering bounded, and a path it answers with a label has one. -/
theorem Labelled.pathOrdinal (h : Labelled s) (scope : ScopeKey) (publisher : Transport) :
    Labelled (s.pathOrdinal scope publisher).1 ∧
    (s.pathOrdinal scope publisher).1.scopes = s.scopes ∧
    (s.pathOrdinal scope publisher).1.cfg = s.cfg ∧
    ∀ label, (s.pathOrdinal scope publisher).2 = some label →
      ((s.pathOrdinal scope publisher).1.pathLabel scope publisher).isSome = true := by
  have hkeep : ∀ scope' p, (s.pathLabel scope' p).isSome = true →
      ((s.pathOrdinal scope publisher).1.pathLabel scope' p).isSome = true :=
    fun _ _ => pathOrdinal_keepsLabel s scope publisher
  obtain ⟨label, he, hl⟩ | ⟨os, he, hos, hroom⟩ | ⟨he, -⟩ := pathOrdinal_cases s scope publisher
  · rw [he]
    exact ⟨h, rfl, rfl, fun _ _ => by rw [hl]; rfl⟩
  · rw [he] at hkeep ⊢
    refine ⟨⟨?_, fun scope' v p hv hp => hkeep scope' p (h.labelled scope' v p hv hp)⟩, rfl, rfl, ?_⟩
    · intro scope' os' hos'
      simp only [FinMap.get_insert] at hos'
      split at hos'
      · cases hos'
        rw [FinMap.size_insert]
        split <;> omega
      · exact h.bounded scope' os' hos'
    · intro _ _
      simp [pathLabel]
  · rw [he]
    exact ⟨h, rfl, rfl, by simp⟩

/-- A write to a scope that records only labelled paths. -/
theorem Labelled.insertScope (h : Labelled s) {scope : ScopeKey} {v : ScopeState}
    (hv : ∀ p, v.paths.contains p = true → (s.pathLabel scope p).isSome = true) :
    Labelled { s with scopes := s.scopes.insert scope v } := by
  refine ⟨h.bounded, fun scope' v' p hv' hp => ?_⟩
  simp only [FinMap.get_insert] at hv'
  split at hv'
  · rename_i heq
    cases hv'
    exact heq ▸ hv p hp
  · exact h.labelled scope' v' p hv' hp

theorem Led.insertScope (h : Led s) {scope : ScopeKey} {v : ScopeState}
    (hv : v.paths.contains v.leader = true) :
    Led { s with scopes := s.scopes.insert scope v } := by
  intro scope' v' hv'
  simp only [FinMap.get_insert] at hv'
  split at hv'
  · cases hv'
    exact hv
  · exact h scope' v' hv'

/-! ## The elections -/

theorem contains_mapVals {f : Path → Path} {paths : FinMap Transport Path} {p : Transport} :
    (paths.mapVals f).contains p = paths.contains p := by
  simp only [FinMap.contains, FinMap.get_mapVals]
  cases paths.get p <;> rfl

theorem contains_insert {paths : FinMap Transport Path} {p q : Transport} {path : Path} :
    (paths.insert q path).contains p = true ↔ p = q ∨ paths.contains p = true := by
  simp only [FinMap.contains, FinMap.get_insert]
  by_cases h : p = q
  · simp [h]
  · simp [h]

theorem contains_transferTo (v : ScopeState) (path p : Transport) (atNs : Nat) :
    (v.transferTo path atNs).paths.contains p = v.paths.contains p := by
  unfold ScopeState.transferTo
  split
  · exact contains_mapVals
  · rfl

/-- A forced transfer to a recorded path leaves the scope led by a recorded path. -/
theorem transferTo_led (v : ScopeState) {path : Transport} (atNs : Nat)
    (hp : v.paths.contains path = true) (hl : v.paths.contains v.leader = true) :
    (v.transferTo path atNs).paths.contains (v.transferTo path atNs).leader = true := by
  rw [contains_transferTo]
  unfold ScopeState.transferTo
  split
  · exact hp
  · exact hl

/-- A batch records its publisher and forgets no path. -/
theorem contains_note (v : ScopeState) (publisher p : Transport) (arrivalNs timeout : Nat) :
    (v.note publisher arrivalNs timeout).paths.contains p = true ↔
      p = publisher ∨ v.paths.contains p = true := by
  unfold ScopeState.note
  simp only
  split
  · show ((v.paths.insert _ _).mapVals _).contains p = true ↔ _
    rw [contains_mapVals, contains_insert]
  · exact contains_insert

theorem note_leader (v : ScopeState) (publisher : Transport) (arrivalNs timeout : Nat) :
    (v.note publisher arrivalNs timeout).leader = publisher ∨
      (v.note publisher arrivalNs timeout).leader = v.leader := by
  unfold ScopeState.note
  simp only
  split
  · exact .inl rfl
  · exact .inr rfl

theorem note_led (v : ScopeState) (publisher : Transport) (arrivalNs timeout : Nat)
    (hl : v.paths.contains v.leader = true) :
    (v.note publisher arrivalNs timeout).paths.contains (v.note publisher arrivalNs timeout).leader =
      true := by
  rw [contains_note]
  rcases note_leader v publisher arrivalNs timeout with h | h
  · exact .inl h
  · rw [h]; exact .inr hl

/-- A challenger is a recorded path. -/
theorem bestChallenger_recorded {iter : List Transport} {v : ScopeState} {cfg : AuthorityConfig}
    {p : Transport} (h : bestChallenger iter v cfg = some p) : v.paths.contains p = true := by
  unfold bestChallenger at h
  simp only [Option.map_eq_some_iff] at h
  obtain ⟨⟨q, m⟩, hbest, rfl⟩ := h
  -- along the fold, the best so far is a recorded path
  refine List.foldlRecOn (motive := fun best => ∀ x, best = some x → v.paths.contains x.1 = true)
    iter _ (by simp) ?_ _ hbest
  intro best hb p _ x hx
  split at hx
  · exact hb x hx
  · split at hx
    · exact hb x hx
    · rename_i median hm
      have hp : v.paths.contains p = true := by
        obtain ⟨path, hpath, -⟩ := Option.bind_eq_some_iff.mp hm
        simp [FinMap.contains, hpath]
      split at hx
      · cases hx; exact hp
      · split at hx
        · cases hx; exact hp
        · cases hx; exact hb _ rfl

theorem contains_closeWindow (v : ScopeState) (iter : List Transport) (nowNs : Nat)
    (cfg : AuthorityConfig) (p : Transport) :
    (v.closeWindow iter nowNs cfg).paths.contains p = v.paths.contains p := by
  unfold ScopeState.closeWindow
  simp only
  split
  · rfl
  · cases bestChallenger iter v cfg with
    | none => exact contains_mapVals
    | some c => exact (contains_transferTo _ _ _ _).trans contains_mapVals

theorem closeWindow_led (v : ScopeState) (iter : List Transport) (nowNs : Nat) (cfg : AuthorityConfig)
    (hl : v.paths.contains v.leader = true) :
    (v.closeWindow iter nowNs cfg).paths.contains (v.closeWindow iter nowNs cfg).leader = true := by
  rw [contains_closeWindow]
  unfold ScopeState.closeWindow
  simp only
  split
  · exact hl
  · cases hc : bestChallenger iter v cfg with
    | none => exact hl
    | some c =>
      simp only [Option.elim_some]
      unfold ScopeState.transferTo
      split
      · exact bestChallenger_recorded hc
      · exact hl

/-! ## One admission -/

/-- The authority once a batch has its ordinal: no release is reported yet. -/
def asked (s : StickyAuthority) (key : BookKey) (publisher : Transport) : StickyAuthority :=
  { (s.pathOrdinal (scopeOf key) publisher).1 with holdReleased := none }

/-- The authority once a batch is noted in its scope's election. -/
def noted (s : StickyAuthority) (key : BookKey) (publisher : Transport) (now : Nat) (v : ScopeState) :
    StickyAuthority :=
  { s.asked key publisher with
    scopes := s.scopes.insert (scopeOf key) (v.note publisher now s.cfg.leaderTimeoutNs) }

/-- The scope a first batch opens. -/
def opening (publisher : Transport) (now : Nat) : ScopeState :=
  ⟨publisher, (∅ : FinMap Transport Path).insert publisher ⟨now, []⟩, now⟩

/-- A write to a market that leaves its health and its hold alone. -/
structure Benign (f : MarketState → MarketState) : Prop where
  unhealthy : ∀ m, (f m).unhealthy = m.unhealthy
  reinstalled : ∀ m, (f m).reinstalled = m.reinstalled
  hold : ∀ m, (f m).hold = m.hold

/-- Everything an admission can do. -/
inductive Admission (s : StickyAuthority) (key : BookKey) (publisher : Transport) (now : Nat) :
    StickyAuthority × Admit Transport → Prop
  | ineligible (hp : (s.pathOrdinal (scopeOf key) publisher).2 = none) :
      Admission s key publisher now (s.asked key publisher, .dropped)
  | first (label : Nat) (hp : (s.pathOrdinal (scopeOf key) publisher).2 = some label)
      (hv : s.scopes.get (scopeOf key) = none) (f : MarketState → MarketState) (hf : Benign f) :
      Admission s key publisher now
        ({ s.asked key publisher with
            scopes := s.scopes.insert (scopeOf key) (opening publisher now) }.updateMarket key f,
          .emitted true)
  | refused (label : Nat) (hp : (s.pathOrdinal (scopeOf key) publisher).2 = some label)
      (v : ScopeState) (hv : s.scopes.get (scopeOf key) = some v)
      (hs : ((s.noted key publisher now v).refreshHold key publisher now).serving key ≠ some publisher) :
      Admission s key publisher now ((s.noted key publisher now v).refreshHold key publisher now, .dropped)
  | served (label : Nat) (hp : (s.pathOrdinal (scopeOf key) publisher).2 = some label)
      (v : ScopeState) (hv : s.scopes.get (scopeOf key) = some v)
      (hs : ((s.noted key publisher now v).refreshHold key publisher now).serving key = some publisher)
      (f : MarketState → MarketState) (hf : Benign f) (openedTick : Bool) :
      Admission s key publisher now
        (((s.noted key publisher now v).refreshHold key publisher now).updateMarket key f,
          .emitted openedTick)

theorem asked_eq (s : StickyAuthority) (key : BookKey) (publisher : Transport) :
    { s with holdReleased := none }.pathOrdinal (scopeOf key) publisher =
      (s.asked key publisher, (s.pathOrdinal (scopeOf key) publisher).2) := by
  unfold asked pathOrdinal
  simp only
  split
  · rfl
  · split
    · rfl
    · rfl

theorem pathOrdinal_scopes (s : StickyAuthority) (scope : ScopeKey) (publisher : Transport) :
    (s.pathOrdinal scope publisher).1.scopes = s.scopes ∧
      (s.pathOrdinal scope publisher).1.cfg = s.cfg := by
  obtain ⟨_, he, -⟩ | ⟨_, he, -⟩ | ⟨he, -⟩ := pathOrdinal_cases s scope publisher
  all_goals rw [he]; exact ⟨rfl, rfl⟩

/-- `admit` does one of the things `Admission` lists. -/
theorem admitBatch_admission (s : StickyAuthority) (key : BookKey) (publisher : Transport) (now : Nat) :
    Admission s key publisher now (s.admitBatch key publisher now) := by
  have hscopes : (s.asked key publisher).scopes = s.scopes := (pathOrdinal_scopes s _ _).1
  have htimeout : (s.asked key publisher).cfg.leaderTimeoutNs = s.cfg.leaderTimeoutNs :=
    congrArg (·.leaderTimeoutNs) (pathOrdinal_scopes s _ _).2
  unfold admitBatch
  simp only [asked_eq]
  split
  · rename_i s₁ heq
    obtain ⟨rfl, hp⟩ := Prod.mk.inj heq
    exact .ineligible hp
  · rename_i s₁ label heq
    obtain ⟨rfl, hp⟩ := Prod.mk.inj heq
    rw [hscopes, htimeout]
    split
    · rename_i hv
      exact .first label hp hv (fun m => { m with lastAdmitted := some publisher })
        ⟨fun _ => rfl, fun _ => rfl, fun _ => rfl⟩
    · rename_i v hv
      split
      · rename_i hs
        exact .refused label hp v hv hs
      · rename_i hs
        refine .served label hp v hv (not_not.mp hs) _ ?_ _
        exact ⟨fun _ => rfl, fun _ => rfl, fun _ => rfl⟩

/-! ## Recorded paths along a run -/

theorem Labelled.asked (h : Labelled s) (key : BookKey) (publisher : Transport) :
    Labelled (s.asked key publisher) :=
  (h.pathOrdinal (scopeOf key) publisher).1.of_scoped ⟨rfl, rfl, rfl⟩

theorem Labelled.noted (h : Labelled s) {label : Nat} (now : Nat) {v : ScopeState}
    (hp : (s.pathOrdinal (scopeOf key) publisher).2 = some label)
    (hv : s.scopes.get (scopeOf key) = some v) : Labelled (s.noted key publisher now v) := by
  have hscopes : (s.asked key publisher).scopes = s.scopes := (pathOrdinal_scopes s _ _).1
  have hself := (h.pathOrdinal (scopeOf key) publisher).2.2.2 label hp
  unfold StickyAuthority.noted
  rw [← hscopes]
  refine (h.asked key publisher).insertScope fun p hpath => ?_
  rw [contains_note] at hpath
  rcases hpath with rfl | hpath
  · exact hself
  · exact (h.asked key publisher).labelled _ v p (hscopes ▸ hv) hpath

/-- Every admission keeps the recorded paths labelled. -/
theorem Labelled.admitBatch (h : Labelled s) (key : BookKey) (publisher : Transport) (now : Nat) :
    Labelled (s.admitBatch key publisher now).1 := by
  have ha := admitBatch_admission s key publisher now
  generalize s.admitBatch key publisher now = r at ha
  cases ha with
  | ineligible hp => exact h.asked key publisher
  | first label hp hv f hf =>
    have hscopes : (s.asked key publisher).scopes = s.scopes := (pathOrdinal_scopes s _ _).1
    have hself := (h.pathOrdinal (scopeOf key) publisher).2.2.2 label hp
    refine Labelled.of_scoped ?_ (updateMarket_scoped _ _ _)
    rw [← hscopes]
    refine (h.asked key publisher).insertScope fun p hpath => ?_
    rw [opening, contains_insert] at hpath
    obtain rfl : p = publisher := hpath.resolve_right (by simp [FinMap.contains])
    exact hself
  | refused label hp v hv hs => exact (h.noted now hp hv).of_scoped (refreshHold_scoped _ _ _ _)
  | served label hp v hv hs f hf openedTick =>
    exact (h.noted now hp hv).of_scoped ((refreshHold_scoped _ _ _ _).trans (updateMarket_scoped _ _ _))

/-- Every admission leaves every scope led by a recorded path. -/
theorem Led.admitBatch (h : Led s) (key : BookKey) (publisher : Transport) (now : Nat) :
    Led (s.admitBatch key publisher now).1 := by
  have hscopes : (s.asked key publisher).scopes = s.scopes := (pathOrdinal_scopes s _ _).1
  have hasked : Led (s.asked key publisher) := h.of_scopes hscopes
  have hnoted : ∀ v, s.scopes.get (scopeOf key) = some v → Led (s.noted key publisher now v) := by
    intro v hv
    unfold noted
    rw [← hscopes]
    exact hasked.insertScope (note_led v publisher now _ (h _ v hv))
  have ha := admitBatch_admission s key publisher now
  generalize s.admitBatch key publisher now = r at ha
  cases ha with
  | ineligible hp => exact hasked
  | first label hp hv f hf =>
    refine Led.of_scopes ?_ (updateMarket_scoped _ _ _).scopes
    rw [← hscopes]
    exact hasked.insertScope (by simp [opening, FinMap.contains])
  | refused label hp v hv hs => exact (hnoted v hv).of_scopes (refreshHold_scoped _ _ _ _).scopes
  | served label hp v hv hs f hf openedTick =>
    exact (hnoted v hv).of_scopes
      ((refreshHold_scoped _ _ _ _).trans (updateMarket_scoped _ _ _)).scopes

/-- A health report at most numbers its path. -/
theorem setHealth_scoped (s : StickyAuthority) (key : BookKey) (publisher : Transport) (healthy : Bool) :
    Scoped (s.pathOrdinal (scopeOf key) publisher).1 (s.setHealth key publisher healthy) := by
  unfold setHealth
  generalize s.pathOrdinal (scopeOf key) publisher = r
  obtain ⟨s₁, label⟩ := r
  cases label with
  | none => exact .refl _
  | some label =>
    simp only
    split
    · split
      · exact updateMarket_scoped _ _ _
      · exact .refl _
    · exact updateMarket_scoped _ _ _

/-- A matched lead at most numbers its path and records it in a scope that has a leader. -/
theorem observeMatchedLead_cases (s : StickyAuthority) (scope : ScopeKey) (path : Transport)
    (leadNs : Int) :
    Scoped (s.pathOrdinal scope path).1 (s.observeMatchedLead scope path leadNs) ∨
    ∃ label v samples, (s.pathOrdinal scope path).2 = some label ∧ s.scopes.get scope = some v ∧
      Scoped { (s.pathOrdinal scope path).1 with
          scopes := (s.pathOrdinal scope path).1.scopes.insert scope { v with
            paths := v.paths.insert path { (v.paths.get path).getD .default with samples } } }
        (s.observeMatchedLead scope path leadNs) := by
  have hscopes := (pathOrdinal_scopes s scope path).1
  unfold observeMatchedLead
  generalize s.pathOrdinal scope path = r at hscopes
  obtain ⟨s₁, label⟩ := r
  cases label with
  | none => exact .inl (.refl _)
  | some label =>
    simp only at hscopes ⊢
    split
    · exact .inl (.refl _)
    · rename_i v hv
      split
      · exact .inl (.refl _)
      · rw [hscopes] at hv
        refine .inr ⟨label, v, ?_⟩
        by_cases hroom : ((v.paths.get path).getD .default).samples.length < MAX_WINDOW_SAMPLES
        · refine ⟨((v.paths.get path).getD .default).samples ++ [leadNs], rfl, hv, ?_⟩
          rw [if_pos hroom]
          exact .refl _
        · refine ⟨((v.paths.get path).getD .default).samples, rfl, hv, ?_⟩
          rw [if_neg hroom]
          exact .refl _

theorem Labelled.step (h : Labelled s) (c : Call) : Labelled (machine.step s c).1 := by
  cases c with
  | admitBatch key publisher now => exact h.admitBatch key publisher now
  | admitSynthesized key publisher => exact h.of_scoped ⟨rfl, rfl, rfl⟩
  | setHealth key publisher healthy =>
    exact (h.pathOrdinal _ publisher).1.of_scoped (setHealth_scoped s key publisher healthy)
  | noteRebaselinePoint key publisher => exact h.of_scoped (noteRebaselinePoint_scoped s key publisher)
  | transferScopeTo scope path atNs =>
    show Labelled (s.transferScopeTo scope path atNs)
    unfold StickyAuthority.transferScopeTo
    split
    · exact h
    · rename_i v hv
      refine h.insertScope fun p hp => ?_
      rw [contains_transferTo] at hp
      exact h.labelled scope v p hv hp
  | observeMatchedLead scope path leadNs =>
    have hp := h.pathOrdinal scope path
    obtain hs | ⟨label, v, samples, hlabel, hv, hs⟩ := observeMatchedLead_cases s scope path leadNs
    · exact hp.1.of_scoped hs
    · refine Labelled.of_scoped (hp.1.insertScope fun p hpath => ?_) hs
      rw [contains_insert] at hpath
      rcases hpath with rfl | hpath
      · exact hp.2.2.2 label hlabel
      · exact hp.1.labelled scope v p (hp.2.1 ▸ hv) hpath
  | closeWindow iter nowNs =>
    refine ⟨h.bounded, fun scope v p hv hp => ?_⟩
    simp only [machine, StickyAuthority.step, StickyAuthority.closeWindow, FinMap.get_mapEntries,
      Option.map_eq_some_iff] at hv
    obtain ⟨v₀, hv₀, rfl⟩ := hv
    rw [contains_closeWindow] at hp
    exact h.labelled scope v₀ p hv₀ hp
  | dropHold key => exact h.of_scoped (dropHold_scoped s key)
  | forgetMarket key => exact h.of_scoped ⟨rfl, rfl, rfl⟩
  | setConfig cfg => exact ⟨h.bounded, h.labelled⟩

theorem Led.step (h : Led s) (c : Call) (hc : RecordedTransfer s c) : Led (machine.step s c).1 := by
  cases c with
  | admitBatch key publisher now => exact h.admitBatch key publisher now
  | admitSynthesized key publisher => exact h.of_scopes rfl
  | setHealth key publisher healthy =>
    exact h.of_scopes ((setHealth_scoped s key publisher healthy).scopes.trans (pathOrdinal_scopes s _ _).1)
  | noteRebaselinePoint key publisher =>
    exact h.of_scopes (noteRebaselinePoint_scoped s key publisher).scopes
  | transferScopeTo scope path atNs =>
    show Led (s.transferScopeTo scope path atNs)
    unfold StickyAuthority.transferScopeTo
    split
    · exact h
    · rename_i v hv
      refine h.insertScope (transferTo_led v atNs ?_ (h scope v hv))
      have htracks : s.tracksPath scope path = true := hc
      simpa [tracksPath, hv] using htracks
  | observeMatchedLead scope path leadNs =>
    have hp := pathOrdinal_scopes s scope path
    obtain hs | ⟨label, v, samples, hlabel, hv, hs⟩ := observeMatchedLead_cases s scope path leadNs
    · exact h.of_scopes (hs.scopes.trans hp.1)
    · refine Led.of_scopes (Led.insertScope (h.of_scopes hp.1) ?_) hs.scopes
      rw [contains_insert]
      exact .inr (h scope v hv)
  | closeWindow iter nowNs =>
    intro scope v hv
    simp only [machine, StickyAuthority.step, StickyAuthority.closeWindow, FinMap.get_mapEntries,
      Option.map_eq_some_iff] at hv
    obtain ⟨v₀, hv₀, rfl⟩ := hv
    exact closeWindow_led v₀ _ _ _ (h scope v₀ hv₀)
  | dropHold key => exact h.of_scopes (dropHold_scoped s key).scopes
  | forgetMarket key => exact h.of_scopes rfl
  | setConfig cfg => exact h.of_scopes rfl

theorem labelled_new (cfg : AuthorityConfig) : Labelled (.new cfg) :=
  ⟨by simp [new], by simp [new]⟩

theorem led_new (cfg : AuthorityConfig) : Led (.new cfg) := by simp [Led, new]

/-! ## Who serves a market -/

theorem healthy_of_markets (h : s'.markets = s.markets) (key : BookKey) (p : Transport) :
    s'.healthy key p = s.healthy key p := by
  unfold healthy
  rw [h]

theorem healthy_updateMarket (s : StickyAuthority) {f : MarketState → MarketState}
    (hf : ∀ m, (f m).unhealthy = m.unhealthy) (key : BookKey) (p : Transport) :
    (s.updateMarket key f).healthy key p = s.healthy key p := by
  unfold healthy
  rw [(get_updateMarket s key f).1]
  cases s.markets.get key with
  | none => simp [hf, MarketState.default]
  | some m => simp [hf]

theorem healthy_storeHold (s : StickyAuthority) (key : BookKey) (stored next : Option RevertHold)
    (p : Transport) : (s.storeHold key stored next).healthy key p = s.healthy key p := by
  unfold storeHold
  split
  · refine healthy_updateMarket s ?_ key p
    exact fun _ => rfl
  · rfl

theorem healthy_refreshHold (s : StickyAuthority) (key : BookKey) (publisher : Transport) (now : Nat)
    (p : Transport) : (s.refreshHold key publisher now).healthy key p = s.healthy key p := by
  unfold refreshHold
  split
  · rfl
  · simp only
    split
    · rfl
    · split
      · split
        · exact healthy_storeHold _ _ _ _ _
        · exact healthy_storeHold _ _ _ _ _
      · exact healthy_storeHold _ _ _ _ _

theorem noted_markets (s : StickyAuthority) (key : BookKey) (publisher : Transport) (now : Nat)
    (v : ScopeState) : (s.noted key publisher now v).markets = s.markets :=
  pathOrdinal_markets s _ _

/-- An admission reports on no path's health. -/
theorem healthy_admitBatch (s : StickyAuthority) (key : BookKey) (publisher : Transport) (now : Nat)
    (p : Transport) : (s.admitBatch key publisher now).1.healthy key p = s.healthy key p := by
  have hrefresh : ∀ v, ((s.noted key publisher now v).refreshHold key publisher now).healthy key p =
      s.healthy key p := by
    intro v
    rw [healthy_refreshHold, healthy_of_markets (noted_markets s key publisher now v)]
  have ha := admitBatch_admission s key publisher now
  generalize s.admitBatch key publisher now = r at ha
  cases ha with
  | ineligible hp => exact healthy_of_markets (pathOrdinal_markets s _ _) key p
  | first label hp hv f hf =>
    rw [healthy_updateMarket _ hf.unhealthy]
    exact healthy_of_markets (pathOrdinal_markets s _ _) key p
  | refused label hp v hv hs => exact hrefresh v
  | served label hp v hv hs f hf openedTick =>
    rw [healthy_updateMarket _ hf.unhealthy]
    exact hrefresh v

/-- `p` leads the scope and no other recorded path is healthy on the market. -/
structure LastResort (s : StickyAuthority) (key : BookKey) (p : Transport) : Prop where
  leads : s.scopeLeader (scopeOf key) = some p
  alone : ∀ v q, s.scopes.get (scopeOf key) = some v → v.paths.contains q = true → q ≠ p →
    s.healthy key q = false

theorem LastResort.of_scoped {p : Transport} (h : LastResort s key p) (hs : Scoped s s')
    (hh : ∀ q, s'.healthy key q = s.healthy key q) : LastResort s' key p := by
  refine ⟨hs.scopeLeader _ ▸ h.leads, fun v q hv hq hne => ?_⟩
  rw [hh]
  exact h.alone v q (hs.scopes ▸ hv) hq hne

/-- The leader serves a market it is unhealthy on only when no other recorded path is healthy there;
any other serving path is healthy. -/
theorem serving_unhealthy {p : Transport} (hs : s.serving key = some p)
    (hp : s.healthy key p = false) : LastResort s key p := by
  unfold serving at hs
  split at hs
  · cases hs
  · rename_i leader hleader
    split at hs
    · rename_i h hh
      cases hs
      have := (Option.filter_eq_some_iff.mp hh).2
      simp [hp] at this
    · split at hs
      · rename_i hl
        cases hs
        rw [hp] at hl
        cases hl
      · cases halt : s.alternate key leader with
        | some q =>
          -- an alternate is healthy
          rw [halt, Option.getD_some] at hs
          obtain rfl := Option.some.inj hs
          unfold alternate at halt
          split at halt
          · cases halt
          · obtain ⟨e, he, rfl⟩ := Option.map_eq_some_iff.mp halt
            have := (List.mem_filter.mp (mem_of_maxBy he)).2
            simp [hp] at this
        | none =>
          rw [halt, Option.getD_none] at hs
          obtain rfl := Option.some.inj hs
          refine ⟨hleader, fun v q hv hq hne => ?_⟩
          unfold alternate at halt
          simp only [hv, Option.map_eq_none_iff] at halt
          have hnil := maxBy_eq_none halt
          obtain ⟨path, hpath⟩ := FinMap.contains_eq_true.mp hq
          have hmem := List.filter_eq_nil_iff.mp hnil (q, path) (FinMap.mem_toList.mpr hpath)
          simpa [hne] using hmem

/-- A batch let out of a path that is unhealthy on the market is a last resort. -/
theorem lastResort_of_admitBatch {p : Transport} {now : Nat}
    (hout : (s.admitBatch key p now).2.isEmitted = true) (hp : s.healthy key p = false) :
    LastResort (s.admitBatch key p now).1 key p := by
  have ha := admitBatch_admission s key p now
  generalize s.admitBatch key p now = r at hout ha
  cases ha with
  | ineligible _ => cases hout
  | first label hlabel hv f hf =>
    -- the first path of its scope leads it alone
    refine ⟨by simp [scopeLeader, opening, updateMarket], fun v q hv' hq hne => ?_⟩
    simp only [updateMarket, FinMap.get_insert_self, Option.some.injEq] at hv'
    subst hv'
    rw [opening, contains_insert] at hq
    exact absurd (hq.resolve_right (by simp [FinMap.contains])) hne
  | refused _ _ _ _ _ => cases hout
  | served label hlabel v hv hs f hf openedTick =>
    refine LastResort.of_scoped (serving_unhealthy hs ?_) (updateMarket_scoped _ _ _)
      fun q => healthy_updateMarket _ hf.unhealthy key q
    rwa [healthy_refreshHold, healthy_of_markets (noted_markets s key p now v)]

/-- **An unhealthy path serves only as a last resort.** After any run of operations in which forced
transfers go to recorded paths, an admission that lets out a batch of a path that is unhealthy on the
market was of the scope's leader, with every other path recorded in the scope unhealthy there too; and
every scope's leader is one of its recorded paths, every recorded path holds an ordinal, and a scope
records at most `MAX_LABELLED_PATHS` paths. -/
theorem unhealthy_path_is_last_resort (cfg : AuthorityConfig) (calls : List Call)
    (hcalls : machine.Along RecordedTransfer (.new cfg) calls) :
    (∀ key p c, c.Admits key p → letOut (machine.step (machine.exec (.new cfg) calls) c).2 = true →
      (machine.exec (.new cfg) calls).healthy key p = false →
      LastResort (machine.step (machine.exec (.new cfg) calls) c).1 key p) ∧
    ∀ scope v, (machine.exec (.new cfg) calls).scopes.get scope = some v →
      v.paths.contains v.leader = true ∧
      (∀ p, v.paths.contains p = true →
        ((machine.exec (.new cfg) calls).pathLabel scope p).isSome = true) ∧
      v.paths.size ≤ MAX_LABELLED_PATHS := by
  have hled : Led (machine.exec (.new cfg) calls) :=
    Machine.along_rule (P := Led) (fun _ c hc h => h.step c hc) calls _ hcalls (led_new cfg)
  have hlab : Labelled (machine.exec (.new cfg) calls) :=
    Machine.invariant_rule (P := Labelled) (fun _ c h => h.step c) calls _ (labelled_new cfg)
  generalize machine.exec (.new cfg) calls = s at hled hlab
  refine ⟨?_, fun scope v hv => ⟨hled scope v hv, fun p hp => hlab.labelled scope v p hv hp, ?_⟩⟩
  · intro key p c hc hout hp
    cases hc with
    | batch now =>
      exact lastResort_of_admitBatch hout hp
    | synthesized =>
      have hserves : s.serving key = some p := by
        by_contra hne
        have : (s.admitSynthesized key p).2 = .dropped := by simp [admitSynthesized, hne]
        change letOut (some (s.admitSynthesized key p).2) = true at hout
        rw [this] at hout
        cases hout
      exact (serving_unhealthy hserves hp).of_scoped ⟨rfl, rfl, rfl⟩ fun q => rfl
  · -- the recorded paths are among the numbered ones
    cases ho : s.ordinals.get scope with
    | none =>
      have hl := hlab.labelled scope v v.leader hv (hled scope v hv)
      simp [pathLabel, ho] at hl
    | some os =>
      refine le_trans (Finset.card_le_card fun p hp => ?_) (hlab.bounded scope os ho)
      have hl := hlab.labelled scope v p hv (by simpa [FinMap.contains, v.paths.mem_keys] using hp)
      simpa [pathLabel, ho, os.mem_keys] using hl

/-- A market of a universe. -/
def marketOf (category : String) : BookKey := ⟨⟨1, "S"⟩, category, 0, 7⟩

/-- One universe's leadership is moved to a path it has recorded, and a path is reported unhealthy on a
market of another universe, which nothing has served yet. -/
def darkCalls : List Call :=
  [.admitBatch (marketOf "a") (.edge 1) 0, .admitBatch (marketOf "a") (.edge 2) 1,
    .transferScopeTo (scopeOf (marketOf "a")) (.edge 2) 2, .setHealth (marketOf "b") (.edge 1) false]

theorem unhealthy_path_is_last_resort_darkCalls :
    LastResort (machine.step (machine.exec (.new .DEFAULT) darkCalls)
      (.admitBatch (marketOf "b") (.edge 1) 3)).1 (marketOf "b") (.edge 1) :=
  (unhealthy_path_is_last_resort .DEFAULT darkCalls
    ⟨trivial, trivial, rfl, trivial, trivial⟩).1 _ _ _ (.batch 3) (by decide) (by decide)

end StickyAuthority

end EdgeConnect.Authority
