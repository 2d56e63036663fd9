import EdgeConnect.Ingest.Floor
import EdgeConnect.Ingest.MarketEvents

/-!
# The single-path authority (`StickyAuthority` in `src/ingest/authority.rs`)

Executable model of the election that gives each universe (`ScopeKey`) one leading path and lets a market
override it: a path gapped on one market yields that market only, to a healthy alternate that then holds
it until the leader has recovered.

* `admitBatch` is the decision for one batch, `serving` the path a market is served from, `refreshHold` the
  revert hold, `closeWindow` the sampled election;
* `admitBatch_lastAdmitted`, `setHealth_lastAdmitted` … — what each operation does to `last_admitted`: only
  an emitted batch names a path, and anything else at most forgets one.

A hash map is a `FinMap`; where a result could depend on its iteration order, that order is an argument.
-/

set_option autoImplicit false

namespace EdgeConnect.Authority

open Arbiter

/-! ## Data -/

/-- The arbitration scope: one election per instrument universe. -/
structure ScopeKey where
  source : SourceKey
  category : String
  deriving DecidableEq, Repr

def scopeOf (key : BookKey) : ScopeKey := ⟨key.source, key.category⟩

/-- Paths admitted per scope; one past it is `OTHER_PATH` and neither served nor tracked. -/
def MAX_LABELLED_PATHS : Nat := 8

def MAX_TRACKED_MARKETS : Nat := 2 ^ 16

def MAX_WINDOW_SAMPLES : Nat := 4096

/-- How long a recovered leader that re-installed waits before it takes a held market back. -/
def REVERT_HOLD_NS : Nat := 15000000000

/-- How long any recovered leader waits at most. -/
def REVERT_DEADLINE_NS : Nat := 60000000000

structure AuthorityConfig where
  leaderTimeoutNs : Nat
  sampleIntervalNs : Nat
  transferMarginNs : Nat
  transferWinRate : F64
  minWindowSamples : Nat
  deriving DecidableEq, Repr

def AuthorityConfig.DEFAULT : AuthorityConfig where
  leaderTimeoutNs := 2000000000
  sampleIntervalNs := 300000000000
  transferMarginNs := 1000000
  transferWinRate := ⟨0x3FE999999999999A⟩
  minWindowSamples := 32

/-- One path of a scope: when it last delivered, and its matched leads over the leader. -/
structure Path where
  lastSeenNs : Nat
  samples : List Int
  deriving DecidableEq, Repr

def Path.default : Path := ⟨0, []⟩

structure ScopeState where
  leader : Transport
  paths : FinMap Transport Path
  windowOpenedNs : Nat

/-- `take_authority`: a new leader opens a fresh sampling window. -/
def ScopeState.takeAuthority (v : ScopeState) (leader : Transport) (arrivalNs : Nat) : ScopeState where
  leader := leader
  windowOpenedNs := arrivalNs
  paths := v.paths.mapVals fun p => { p with samples := [] }

/-- The scope after a batch of `publisher`: the batch is noted, and a leader silent for longer than the
timeout loses the scope to it. -/
def ScopeState.note (v : ScopeState) (publisher : Transport) (arrivalNs timeout : Nat) : ScopeState :=
  let v := { v with
    paths := v.paths.insert publisher
      { (v.paths.get publisher).getD .default with lastSeenNs := arrivalNs } }
  let leaderLast := (v.paths.get v.leader).elim 0 (·.lastSeenNs)
  if v.leader ≠ publisher ∧ arrivalNs - leaderLast > timeout then v.takeAuthority publisher arrivalNs
  else v

/-- The median lead of a path that qualifies as a challenger. -/
def challenge (cfg : AuthorityConfig) (margin : Int) (p : Path) : Option Int :=
  if p.samples.length < max cfg.minWindowSamples 1 then none
  else
    let wins := p.samples.countP fun l => l < -margin
    if (F64.ofRatio wins p.samples.length).lt cfg.transferWinRate then none
    else
      let median := (p.samples.mergeSort (· ≤ ·)).getD (p.samples.length / 2) 0
      if median > -margin then none else some median

/-- `best_challenger`: the challenger with the smallest median; `iter` is the iteration order of the
path map, which breaks ties. -/
def bestChallenger (iter : List Transport) (v : ScopeState) (cfg : AuthorityConfig) :
    Option Transport :=
  let margin : Int := min cfg.transferMarginNs (2 ^ 63 - 1)
  let best := iter.foldl (fun best p =>
    if p = v.leader then best
    else
      match (v.paths.get p).bind (challenge cfg margin) with
      | none => best
      | some median =>
        match best with
        | none => some (p, median)
        | some (q, m) => if median < m then some (p, median) else some (q, m))
    (none : Option (Transport × Int))
  best.map (·.1)

/-- `transfer_scope_to` on one scope. -/
def ScopeState.transferTo (v : ScopeState) (path : Transport) (atNs : Nat) : ScopeState :=
  if v.leader ≠ path then v.takeAuthority path atNs else v

/-- `close_window` on one scope. -/
def ScopeState.closeWindow (v : ScopeState) (iter : List Transport) (nowNs : Nat)
    (cfg : AuthorityConfig) : ScopeState :=
  if nowNs - v.windowOpenedNs < cfg.sampleIntervalNs then v
  else
    let winner := bestChallenger iter v cfg
    let v := { v with
      paths := v.paths.mapVals fun p => { p with samples := [] }
      windowOpenedNs := nowNs }
    winner.elim v fun c => v.transferTo c nowNs

/-- A market held by `holder` while `leader` recovers on it. -/
structure RevertHold where
  holder : Transport
  leader : Transport
  leaderHealthySinceNs : Option Nat
  deriving DecidableEq, Repr

/-- Why a hold ended. -/
inductive HoldRelease where
  | natural
  | deadline
  deriving DecidableEq, Repr

structure MarketState where
  unhealthy : Finset Transport
  reinstalled : Finset Transport
  hold : Option RevertHold
  lastAdmitted : Option Transport
  overriddenFrom : Option Transport
  deriving DecidableEq

def MarketState.default : MarketState := ⟨∅, ∅, none, none, none⟩

structure StickyAuthority where
  scopes : FinMap ScopeKey ScopeState
  markets : FinMap BookKey MarketState
  marketOrder : List BookKey
  ordinals : FinMap ScopeKey (FinMap Transport Nat)
  cfg : AuthorityConfig
  holdReleased : Option HoldRelease

/-- A fixed order on paths, in which their maps are traversed. -/
def pathRank : Transport → Nat
  | .publicWs => 0
  | .edge addr => addr + 1

theorem pathRank_injective : Function.Injective pathRank := by
  intro p q h
  cases p <;> cases q <;> simp_all [pathRank]

instance : LinearOrder Transport := LinearOrder.lift' pathRank pathRank_injective

/-- `Iterator::max_by_key`: the last of the largest elements. -/
def maxBy {α : Type*} (less : α → α → Bool) : List α → Option α
  | [] => none
  | a :: l =>
    match maxBy less l with
    | none => some a
    | some b => if less b a then some a else some b

namespace StickyAuthority

def new (cfg : AuthorityConfig) : StickyAuthority := ⟨∅, ∅, [], ∅, cfg, none⟩

/-! ## Markets -/

/-- The loop of `market_mut`: make room in the market queue, oldest first. -/
def evictOldest (markets : FinMap BookKey MarketState) :
    List BookKey → FinMap BookKey MarketState × List BookKey
  | [] => (markets, [])
  | old :: rest =>
    if (old :: rest).length ≥ MAX_TRACKED_MARKETS then evictOldest (markets.erase old) rest
    else (markets, old :: rest)

/-- `market_mut` and a write through it. -/
def updateMarket (s : StickyAuthority) (key : BookKey) (f : MarketState → MarketState) :
    StickyAuthority :=
  let (markets, order) :=
    if s.markets.contains key then (s.markets, s.marketOrder)
    else
      let (markets, order) := evictOldest s.markets s.marketOrder
      (markets, order ++ [key])
  { s with
    markets := markets.insert key (f ((markets.get key).getD .default))
    marketOrder := order }

/-- `forget_market`: a forgotten market's queue entry stays. -/
def forgetMarket (s : StickyAuthority) (key : BookKey) : StickyAuthority :=
  { s with markets := s.markets.erase key }

def healthy (s : StickyAuthority) (key : BookKey) (publisher : Transport) : Bool :=
  (s.markets.get key).all fun m => publisher ∉ m.unhealthy

def lastAdmitted (s : StickyAuthority) (key : BookKey) : Option Transport :=
  (s.markets.get key).bind (·.lastAdmitted)

def overriddenFrom (s : StickyAuthority) (key : BookKey) : Option Transport :=
  (s.markets.get key).bind (·.overriddenFrom)

def hold (s : StickyAuthority) (key : BookKey) : Option RevertHold := (s.markets.get key).bind (·.hold)

/-! ## Paths and leaders -/

/-- `path_ordinal`: the path's label, admitting it while the scope has one left; `none` is
`OTHER_PATH`. -/
def pathOrdinal (s : StickyAuthority) (scope : ScopeKey) (publisher : Transport) :
    StickyAuthority × Option Nat :=
  let paths := (s.ordinals.get scope).getD ∅
  match paths.get publisher with
  | some label => (s, some label)
  | none =>
    if paths.size < MAX_LABELLED_PATHS then
      ({ s with ordinals := s.ordinals.insert scope (paths.insert publisher paths.size) },
        some paths.size)
    else (s, none)

/-- `path_label`: the label a path already has. -/
def pathLabel (s : StickyAuthority) (scope : ScopeKey) (publisher : Transport) : Option Nat :=
  (s.ordinals.get scope).bind (·.get publisher)

def scopeLeader (s : StickyAuthority) (scope : ScopeKey) : Option Transport :=
  (s.scopes.get scope).map (·.leader)

/-- The order `alternate` prefers paths in: last seen, then label (`"other"` before `"path0"`). -/
def lessRecent (s : StickyAuthority) (scope : ScopeKey) (x y : Transport × Path) : Bool :=
  x.2.lastSeenNs < y.2.lastSeenNs ∨ x.2.lastSeenNs = y.2.lastSeenNs ∧
    (s.pathLabel scope x.1).elim 0 (· + 1) < (s.pathLabel scope y.1).elim 0 (· + 1)

/-- `alternate`: the most recently seen path that is healthy on the market, other than the leader. -/
def alternate (s : StickyAuthority) (key : BookKey) (leader : Transport) : Option Transport :=
  match s.scopes.get (scopeOf key) with
  | none => none
  | some v =>
    (maxBy (s.lessRecent (scopeOf key))
      (v.paths.toList.filter fun e => e.1 ≠ leader ∧ s.healthy key e.1)).map (·.1)

/-- `serving`: the path a market is served from. -/
def serving (s : StickyAuthority) (key : BookKey) : Option Transport :=
  match s.scopeLeader (scopeOf key) with
  | none => none
  | some leader =>
    match (s.hold key).filter fun h => h.leader = leader ∧ s.healthy key h.holder with
    | some h => some h.holder
    | none =>
      if s.healthy key leader then some leader
      else some ((s.alternate key leader).getD leader)

def tracksPath (s : StickyAuthority) (scope : ScopeKey) (path : Transport) : Bool :=
  (s.scopes.get scope).any fun v => v.paths.contains path

/-! ## Reports -/

/-- `set_health`: one path's book health on one market. -/
def setHealth (s : StickyAuthority) (key : BookKey) (publisher : Transport) (healthy : Bool) :
    StickyAuthority :=
  match s.pathOrdinal (scopeOf key) publisher with
  | (s, none) => s
  | (s, some _) =>
    if healthy then
      if s.markets.contains key then
        s.updateMarket key fun m => { m with unhealthy := m.unhealthy.erase publisher }
      else s
    else
      s.updateMarket key fun m =>
        { m with
          unhealthy := insert publisher m.unhealthy
          reinstalled := m.reinstalled.erase publisher
          hold := m.hold.map fun h =>
            if h.leader = publisher then { h with leaderHealthySinceNs := none } else h }

/-- `note_rebaseline_point`: the path re-installed its book on a tracked market. -/
def noteRebaselinePoint (s : StickyAuthority) (key : BookKey) (publisher : Transport) :
    StickyAuthority :=
  match s.markets.get key with
  | none => s
  | some m =>
    { s with markets := s.markets.insert key { m with reinstalled := insert publisher m.reinstalled } }

/-- `holding_revert`: the market waits for a leader that is healthy again. -/
def holdingRevert (s : StickyAuthority) (key : BookKey) : Bool :=
  match s.scopeLeader (scopeOf key) with
  | none => false
  | some leader => ((s.hold key).any fun h => h.leader = leader) && s.healthy key leader

/-- `drop_hold`: end a market's hold. -/
def dropHold (s : StickyAuthority) (key : BookKey) : StickyAuthority :=
  match s.markets.get key with
  | none => s
  | some m => { s with markets := s.markets.insert key { m with hold := none } }

/-! ## Admission -/

/-- Whether a hold ends on a batch of the recovered leader. -/
def release (s : StickyAuthority) (key : BookKey) (publisher leader : Transport) (now : Nat)
    (h : RevertHold) : Option HoldRelease :=
  match h.leaderHealthySinceNs with
  | none => none
  | some since =>
    if publisher = leader then
      let reinstalled := (s.markets.get key).any fun m => leader ∈ m.reinstalled
      if reinstalled ∧ now - since ≥ REVERT_HOLD_NS then some .natural
      else if now - since ≥ REVERT_DEADLINE_NS then some .deadline
      else none
    else none

/-- Store the next hold; a market that had none and gets none is left alone. -/
def storeHold (s : StickyAuthority) (key : BookKey) (stored next : Option RevertHold) :
    StickyAuthority :=
  if stored.isSome || next.isSome then s.updateMarket key fun m => { m with hold := next } else s

/-- `refresh_hold`: open, keep or release the market's hold as `publisher`'s batch arrives. -/
def refreshHold (s : StickyAuthority) (key : BookKey) (publisher : Transport) (now : Nat) :
    StickyAuthority :=
  match s.scopeLeader (scopeOf key) with
  | none => s
  | some leader =>
    let leaderHealthy := s.healthy key leader
    let stored := s.hold key
    if stored.isNone && leaderHealthy then s
    else
      let holderLive (h : RevertHold) : Bool :=
        ((s.scopes.get (scopeOf key)).bind (·.paths.get h.holder)).any fun p =>
          now - p.lastSeenNs ≤ s.cfg.leaderTimeoutNs
      match stored.filter fun h => h.leader = leader ∧ s.healthy key h.holder ∧ holderLive h with
      | none =>
        if leaderHealthy ∨ publisher = leader ∨ s.healthy key publisher = false then
          s.storeHold key stored none
        else s.storeHold key stored (some ⟨publisher, leader, none⟩)
      | some h =>
        let h := { h with
          leaderHealthySinceNs :=
            if leaderHealthy then some (h.leaderHealthySinceNs.getD now) else none }
        let released := s.release key publisher leader now h
        { s with holdReleased := released }.storeHold key stored
          (if released.isNone then some h else none)

/-- `admit`: the decision for one batch. -/
def admitBatch (s : StickyAuthority) (key : BookKey) (publisher : Transport) (arrivalNs : Nat) :
    StickyAuthority × Admit Transport :=
  let scope := scopeOf key
  match { s with holdReleased := none }.pathOrdinal scope publisher with
  | (s, none) => (s, .dropped)
  | (s, some _) =>
    match s.scopes.get scope with
    | none =>
      let v : ScopeState := ⟨publisher, (∅ : FinMap Transport Path).insert publisher ⟨arrivalNs, []⟩,
        arrivalNs⟩
      ({ s with scopes := s.scopes.insert scope v }.updateMarket key fun m =>
        { m with lastAdmitted := some publisher }, .emitted true)
    | some v =>
      let v := v.note publisher arrivalNs s.cfg.leaderTimeoutNs
      let s := { s with scopes := s.scopes.insert scope v }.refreshHold key publisher arrivalNs
      if s.serving key ≠ some publisher then (s, .dropped)
      else
        let overriddenFrom := (s.scopeLeader scope).filter fun l => l ≠ publisher
        (s.updateMarket key fun m => { m with lastAdmitted := some publisher, overriddenFrom },
          .emitted (s.lastAdmitted key ≠ some publisher))

/-- `admit_synthesized`: a batch the producer built itself goes out only from the path the consumer
follows. -/
def admitSynthesized (s : StickyAuthority) (key : BookKey) (publisher : Transport) :
    StickyAuthority × Admit Transport :=
  ({ s with holdReleased := none },
    if s.serving key = some publisher ∧ s.lastAdmitted key = some publisher then .emitted false
    else .dropped)

/-! ## The sampled election -/

/-- `observe_matched_lead`: a matched trade's lead over the leader, kept while the window has room. -/
def observeMatchedLead (s : StickyAuthority) (scope : ScopeKey) (path : Transport) (leadNs : Int) :
    StickyAuthority :=
  match s.pathOrdinal scope path with
  | (s, none) => s
  | (s, some _) =>
    match s.scopes.get scope with
    | none => s
    | some v =>
      if path = v.leader then s
      else
        let p := (v.paths.get path).getD .default
        let p := if p.samples.length < MAX_WINDOW_SAMPLES then { p with samples := p.samples ++ [leadNs] }
          else p
        { s with scopes := s.scopes.insert scope { v with paths := v.paths.insert path p } }

/-- `close_window`: judge every elapsed window and transfer the scopes a challenger won. -/
def closeWindow (s : StickyAuthority) (iter : ScopeKey → List Transport) (nowNs : Nat) :
    StickyAuthority :=
  { s with scopes := s.scopes.mapEntries fun scope v => v.closeWindow (iter scope) nowNs s.cfg }

/-! ## What each operation does to `last_admitted` -/

variable {s s' : StickyAuthority} {key k : BookKey} {publisher : Transport}

/-- Every market keeps the path it was last admitted from, or forgets it. -/
def Keeps (s s' : StickyAuthority) : Prop :=
  ∀ k, s'.lastAdmitted k = s.lastAdmitted k ∨ s'.lastAdmitted k = none

/-- `Keeps`, and market `key` keeps its path for certain. -/
structure KeepsAt (key : BookKey) (s s' : StickyAuthority) : Prop where
  self : s'.lastAdmitted key = s.lastAdmitted key
  others : Keeps s s'

theorem Keeps.of_eq (h : ∀ k, s'.lastAdmitted k = s.lastAdmitted k) : Keeps s s' := fun k => Or.inl (h k)

theorem Keeps.trans {s'' : StickyAuthority} (h : Keeps s s') (h' : Keeps s' s'') : Keeps s s'' := by
  intro k
  rcases h' k with hk | hk
  · rw [hk]; exact h k
  · exact Or.inr hk

theorem lastAdmitted_of_markets (h : s'.markets = s.markets) (k : BookKey) :
    s'.lastAdmitted k = s.lastAdmitted k := by
  unfold lastAdmitted
  rw [h]

theorem Keeps.of_markets (h : s'.markets = s.markets) : Keeps s s' :=
  .of_eq fun k => lastAdmitted_of_markets h k

theorem KeepsAt.of_markets (h : s'.markets = s.markets) : KeepsAt key s s' :=
  ⟨lastAdmitted_of_markets h key, .of_markets h⟩

theorem KeepsAt.trans {s'' : StickyAuthority} (h : KeepsAt key s s') (h' : KeepsAt key s' s'') :
    KeepsAt key s s'' := ⟨h'.self.trans h.self, h.others.trans h'.others⟩

theorem pathOrdinal_markets (s : StickyAuthority) (scope : ScopeKey) (publisher : Transport) :
    (s.pathOrdinal scope publisher).1.markets = s.markets := by
  unfold pathOrdinal
  simp only
  split
  · rfl
  · split
    · rfl
    · rfl

theorem get_evictOldest : ∀ (order : List BookKey) (markets : FinMap BookKey MarketState),
    (evictOldest markets order).1.get k = markets.get k ∨ (evictOldest markets order).1.get k = none
  | [], _ => Or.inl rfl
  | old :: rest, markets => by
    unfold evictOldest
    split
    · rcases get_evictOldest rest (markets.erase old) with h | h
      · rw [h, FinMap.get_erase]
        split
        · exact Or.inr rfl
        · exact Or.inl rfl
      · exact Or.inr h
    · exact Or.inl rfl

/-- A write through `market_mut` sets its market and evicts others at most. -/
theorem get_updateMarket (s : StickyAuthority) (key : BookKey) (f : MarketState → MarketState) :
    (s.updateMarket key f).markets.get key = some (f ((s.markets.get key).getD .default)) ∧
    ∀ k, k ≠ key → (s.updateMarket key f).markets.get k = s.markets.get k ∨
      (s.updateMarket key f).markets.get k = none := by
  unfold updateMarket
  by_cases hc : s.markets.contains key = true
  · rw [if_pos hc]
    exact ⟨FinMap.get_insert_self _ _ _, fun k hk => Or.inl (FinMap.get_insert_of_ne _ _ hk)⟩
  · rw [if_neg hc]
    rw [Bool.not_eq_true, FinMap.contains_eq_false] at hc
    have hnone : (evictOldest s.markets s.marketOrder).1.get key = none := by
      rcases get_evictOldest (k := key) s.marketOrder s.markets with h | h
      · rw [h, hc]
      · exact h
    simp only
    refine ⟨?_, fun k hk => ?_⟩
    · rw [FinMap.get_insert_self, hnone, hc]
    · rw [FinMap.get_insert_of_ne _ _ hk]
      exact get_evictOldest _ _

theorem updateMarket_others (f : MarketState → MarketState) (hk : k ≠ key) :
    (s.updateMarket key f).lastAdmitted k = s.lastAdmitted k ∨
      (s.updateMarket key f).lastAdmitted k = none := by
  unfold lastAdmitted
  rcases (get_updateMarket s key f).2 k hk with h | h
  · rw [h]; exact Or.inl rfl
  · rw [h]; exact Or.inr rfl

theorem keeps_updateMarket (h : Keeps s s') (f : MarketState → MarketState) (hk : k ≠ key) :
    (s'.updateMarket key f).lastAdmitted k = s.lastAdmitted k ∨
      (s'.updateMarket key f).lastAdmitted k = none := by
  rcases updateMarket_others (s := s') f hk with h' | h'
  · rw [h']; exact h k
  · exact Or.inr h'

theorem updateMarket_self (f : MarketState → MarketState) :
    (s.updateMarket key f).lastAdmitted key = (f ((s.markets.get key).getD .default)).lastAdmitted := by
  unfold lastAdmitted
  rw [(get_updateMarket s key f).1]
  rfl

theorem KeepsAt.updateMarket {f : MarketState → MarketState}
    (hf : ∀ m, (f m).lastAdmitted = m.lastAdmitted) : KeepsAt key s (s.updateMarket key f) := by
  have hself : (s.updateMarket key f).lastAdmitted key = s.lastAdmitted key := by
    rw [updateMarket_self, hf]
    unfold lastAdmitted
    cases s.markets.get key <;> rfl
  refine ⟨hself, fun k => ?_⟩
  by_cases hk : k = key
  · rw [hk]; exact Or.inl hself
  · exact updateMarket_others f hk

/-- A write to a market in place. -/
theorem KeepsAt.insert {m m' : MarketState} (hm : s.markets.get k = some m)
    (hl : m'.lastAdmitted = m.lastAdmitted) :
    KeepsAt key s { s with markets := s.markets.insert k m' } := by
  have heq : ∀ k', ({ s with markets := s.markets.insert k m' } : StickyAuthority).lastAdmitted k' =
      s.lastAdmitted k' := by
    intro k'
    unfold lastAdmitted
    by_cases hk : k' = k
    · rw [hk, FinMap.get_insert_self, hm]; exact hl
    · rw [FinMap.get_insert_of_ne _ _ hk]
  exact ⟨heq key, .of_eq heq⟩

theorem setHealth_keeps (s : StickyAuthority) (key : BookKey) (publisher : Transport) (healthy : Bool) :
    Keeps s (s.setHealth key publisher healthy) := by
  have hord : KeepsAt key s (s.pathOrdinal (scopeOf key) publisher).1 :=
    .of_markets (pathOrdinal_markets s _ _)
  suffices h : KeepsAt key s (s.setHealth key publisher healthy) from h.others
  unfold setHealth
  split
  · rename_i s' h
    rw [h] at hord; exact hord
  · rename_i s' label h
    rw [h] at hord
    split
    · split
      · exact hord.trans (.updateMarket fun _ => rfl)
      · exact hord
    · exact hord.trans (.updateMarket fun _ => rfl)

theorem noteRebaselinePoint_keeps (key : BookKey) (s : StickyAuthority) (k : BookKey) (publisher : Transport) :
    KeepsAt key s (s.noteRebaselinePoint k publisher) := by
  unfold noteRebaselinePoint
  split
  · exact .of_markets rfl
  · rename_i m hm
    exact .insert hm rfl

theorem dropHold_keeps (key : BookKey) (s : StickyAuthority) (k : BookKey) : KeepsAt key s (s.dropHold k) := by
  unfold dropHold
  split
  · exact .of_markets rfl
  · rename_i m hm
    exact .insert hm rfl

theorem storeHold_keeps (s : StickyAuthority) (key : BookKey) (stored next : Option RevertHold) :
    KeepsAt key s (s.storeHold key stored next) := by
  unfold storeHold
  split
  · exact .updateMarket fun _ => rfl
  · exact .of_markets rfl

theorem refreshHold_keeps (s : StickyAuthority) (key : BookKey) (publisher : Transport) (now : Nat) :
    KeepsAt key s (s.refreshHold key publisher now) := by
  unfold refreshHold
  split
  · exact .of_markets rfl
  · simp only
    split
    · exact .of_markets rfl
    · split
      · split
        · exact storeHold_keeps _ _ _ _
        · exact storeHold_keeps _ _ _ _
      · refine KeepsAt.trans ?_ (storeHold_keeps _ _ _ _)
        exact .of_markets rfl

/-- **One admission**: an emitted batch names its path on its market, a dropped one leaves its market's
path alone, and every other market keeps its path or forgets it. -/
theorem admitBatch_lastAdmitted (s : StickyAuthority) (key : BookKey) (publisher : Transport)
    (arrivalNs : Nat) :
    ((s.admitBatch key publisher arrivalNs).2.isEmitted = true →
      (s.admitBatch key publisher arrivalNs).1.lastAdmitted key = some publisher) ∧
    ((s.admitBatch key publisher arrivalNs).2.isEmitted = false →
      (s.admitBatch key publisher arrivalNs).1.lastAdmitted key = s.lastAdmitted key) ∧
    ∀ k, k ≠ key → (s.admitBatch key publisher arrivalNs).1.lastAdmitted k = s.lastAdmitted k ∨
      (s.admitBatch key publisher arrivalNs).1.lastAdmitted k = none := by
  have hord : KeepsAt key s ({ s with holdReleased := none }.pathOrdinal (scopeOf key) publisher).1 :=
    .of_markets (pathOrdinal_markets _ _ _)
  unfold admitBatch
  simp only
  split
  · rename_i s' h
    rw [h] at hord
    exact ⟨nofun, fun _ => hord.self, fun k _ => hord.others k⟩
  · rename_i s' label h
    rw [h] at hord
    have hscopes : ∀ scopes, KeepsAt key s { s' with scopes := scopes } :=
      fun _ => ⟨hord.self, hord.others⟩
    split
    · refine ⟨fun _ => updateMarket_self _, nofun, fun k hk => ?_⟩
      exact keeps_updateMarket (hscopes _).others _ hk
    · rename_i v hv
      have hkeep := (hscopes (s'.scopes.insert (scopeOf key)
        (v.note publisher arrivalNs s'.cfg.leaderTimeoutNs))).trans
          (refreshHold_keeps _ key publisher arrivalNs)
      split
      · exact ⟨nofun, fun _ => hkeep.self, fun k _ => hkeep.others k⟩
      · exact ⟨fun _ => updateMarket_self _, nofun, fun k hk => keeps_updateMarket hkeep.others _ hk⟩

theorem admitSynthesized_lastAdmitted (s : StickyAuthority) (key : BookKey) (publisher : Transport) :
    (∀ k, (s.admitSynthesized key publisher).1.lastAdmitted k = s.lastAdmitted k) ∧
    ((s.admitSynthesized key publisher).2.isEmitted = true → s.lastAdmitted key = some publisher) := by
  refine ⟨fun _ => rfl, fun h => ?_⟩
  unfold admitSynthesized at h
  by_cases hs : s.serving key = some publisher ∧ s.lastAdmitted key = some publisher
  · exact hs.2
  · simp only [if_neg hs] at h
    cases h

theorem observeMatchedLead_markets (s : StickyAuthority) (scope : ScopeKey) (path : Transport)
    (leadNs : Int) : (s.observeMatchedLead scope path leadNs).markets = s.markets := by
  have hord := pathOrdinal_markets s scope path
  unfold observeMatchedLead
  split
  · rename_i s' h
    rw [h] at hord; exact hord
  · rename_i s' label h
    rw [h] at hord
    split
    · exact hord
    · split
      · exact hord
      · exact hord

theorem forgetMarket_lastAdmitted (s : StickyAuthority) (key k : BookKey) :
    (s.forgetMarket key).lastAdmitted k = if k = key then none else s.lastAdmitted k := by
  unfold forgetMarket lastAdmitted
  simp only [FinMap.get_erase]
  split
  · rfl
  · rfl

end StickyAuthority

end EdgeConnect.Authority
