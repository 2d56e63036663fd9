import EdgeConnect.Ingest.AuthorityRuns

/-!
# A held market does not ping-pong

A health override pins its market to the path that took it (`RevertHold`).  This module follows one
such hold along a run of the authority.

* `override_holds` — a batch let out by a path other than the scope's leader leaves a hold behind;
* `Lapses` — what ends a hold before the leader has recovered, and `Held.next` — one step of a hold
  that does not lapse;
* `HealthySince`, `ClearedSince` — what the hold's clock and the re-install marks say of the history;
* `held_market_does_not_ping_pong` — the leader is let out again only after it recovered or the hold
  lapsed, and a third path only after the hold lapsed.
-/

set_option autoImplicit false

namespace EdgeConnect.Authority.StickyAuthority

open Arbiter

variable {s s' : StickyAuthority} {key k : BookKey} {publisher : Transport}

/-! ## Holds under one operation -/

theorem hold_of_get {m : MarketState} (h : s.markets.get key = some m) : s.hold key = m.hold := by
  unfold hold
  rw [h]
  rfl

theorem hold_of_markets (h : s'.markets = s.markets) (key : BookKey) : s'.hold key = s.hold key := by
  unfold hold
  rw [h]

theorem hold_updateMarket (s : StickyAuthority) (key : BookKey) (f : MarketState → MarketState) :
    (s.updateMarket key f).hold key = (f ((s.markets.get key).getD .default)).hold :=
  hold_of_get (get_updateMarket s key f).1

theorem hold_benign (s : StickyAuthority) (key : BookKey) {f : MarketState → MarketState}
    (hf : Benign f) : (s.updateMarket key f).hold key = s.hold key := by
  rw [hold_updateMarket, hf.hold]
  unfold hold
  cases s.markets.get key <;> rfl

theorem hold_storeHold (s : StickyAuthority) (key : BookKey) (next : Option RevertHold) :
    (s.storeHold key (s.hold key) next).hold key = next := by
  unfold storeHold
  split
  · rw [hold_updateMarket]
  · rename_i h
    cases next with
    | none => simpa using h
    | some n => simp at h

/-- The last time a path of a scope delivered. -/
def lastSeen (s : StickyAuthority) (scope : ScopeKey) (p : Transport) : Option Nat :=
  ((s.scopes.get scope).bind (·.paths.get p)).map (·.lastSeenNs)

/-- A hold whose conditions are met at `now`: taken from the current leader, its holder healthy and
not silent. -/
structure Standing (s : StickyAuthority) (key : BookKey) (now : Nat) (h : RevertHold) : Prop where
  leader : s.scopeLeader (scopeOf key) = some h.leader
  healthy : s.healthy key h.holder = true
  live : ∃ seen, s.lastSeen (scopeOf key) h.holder = some seen ∧ now - seen ≤ s.cfg.leaderTimeoutNs

/-- The hold with its clock stamped for a batch at `now`. -/
def stamped (s : StickyAuthority) (key : BookKey) (now : Nat) (h : RevertHold) : RevertHold :=
  { h with
    leaderHealthySinceNs :=
      if s.healthy key h.leader then some (h.leaderHealthySinceNs.getD now) else none }

/-- What a batch does to the hold of its market. -/
inductive Refreshed (s : StickyAuthority) (key : BookKey) (publisher : Transport) (now : Nat) :
    Option RevertHold → Prop
  | idle (hs : s.hold key = none)
      (hl : ∀ l, s.scopeLeader (scopeOf key) = some l → s.healthy key l = true) :
      Refreshed s key publisher now none
  | discarded (l : Transport) (hl : s.scopeLeader (scopeOf key) = some l)
      (hs : ∀ h, s.hold key = some h → ¬ Standing s key now h)
      (hp : s.healthy key l = true ∨ publisher = l ∨ s.healthy key publisher = false) :
      Refreshed s key publisher now none
  | taken (l : Transport) (hl : s.scopeLeader (scopeOf key) = some l)
      (hs : ∀ h, s.hold key = some h → ¬ Standing s key now h)
      (hu : s.healthy key l = false) (hne : publisher ≠ l) (hp : s.healthy key publisher = true) :
      Refreshed s key publisher now (some ⟨publisher, l, none⟩)
  | kept (h : RevertHold) (hs : s.hold key = some h) (hst : Standing s key now h)
      (hr : s.release key publisher h.leader now (s.stamped key now h) = none) :
      Refreshed s key publisher now (some (s.stamped key now h))
  | released (h : RevertHold) (r : HoldRelease) (hs : s.hold key = some h) (hst : Standing s key now h)
      (hr : s.release key publisher h.leader now (s.stamped key now h) = some r) :
      Refreshed s key publisher now none

/-- The guard `refresh_hold` tests a stored hold with is `Standing`. -/
theorem standing_iff {leader : Transport} {now : Nat} {h : RevertHold}
    (hl : s.scopeLeader (scopeOf key) = some leader) :
    (h.leader = leader ∧ s.healthy key h.holder = true ∧
      (((s.scopes.get (scopeOf key)).bind (·.paths.get h.holder)).any fun p =>
        now - p.lastSeenNs ≤ s.cfg.leaderTimeoutNs) = true) ↔ Standing s key now h := by
  have hlive : ((((s.scopes.get (scopeOf key)).bind (·.paths.get h.holder)).any fun p =>
      now - p.lastSeenNs ≤ s.cfg.leaderTimeoutNs) = true) ↔
      ∃ seen, s.lastSeen (scopeOf key) h.holder = some seen ∧ now - seen ≤ s.cfg.leaderTimeoutNs := by
    unfold lastSeen
    cases (s.scopes.get (scopeOf key)).bind (·.paths.get h.holder) with
    | none => simp
    | some p => simp
  rw [hlive]
  constructor
  · rintro ⟨rfl, hh, hv⟩
    exact ⟨hl, hh, hv⟩
  · rintro ⟨hl', hh, hv⟩
    exact ⟨Option.some.inj (hl'.symm.trans hl), hh, hv⟩

/-- `refresh_hold` does one of the things `Refreshed` lists, once the scope has a leader. -/
theorem refreshHold_refreshed (s : StickyAuthority) (key : BookKey) (publisher : Transport) (now : Nat)
    {l : Transport} (hl : s.scopeLeader (scopeOf key) = some l) :
    Refreshed s key publisher now ((s.refreshHold key publisher now).hold key) := by
  unfold refreshHold
  rw [hl]
  simp only
  split
  · rename_i hidle
    simp only [Bool.and_eq_true, Option.isNone_iff_eq_none] at hidle
    rw [hidle.1]
    refine .idle hidle.1 fun l' hl' => ?_
    rw [hl] at hl'
    cases hl'
    exact hidle.2
  · split
    · rename_i hfilter
      have hnot : ∀ h, s.hold key = some h → ¬ Standing s key now h := by
        intro h hh hst
        rw [hh, Option.filter_some, if_pos (by simpa using (standing_iff hl).mpr hst)] at hfilter
        cases hfilter
      split
      · rename_i hp
        rw [hold_storeHold]
        exact .discarded l hl hnot hp
      · rename_i hp
        rw [hold_storeHold]
        simp only [not_or, Bool.not_eq_true, Bool.not_eq_false] at hp
        exact .taken l hl hnot hp.1 hp.2.1 hp.2.2
    · rename_i h hfilter
      obtain ⟨hh, hguard⟩ := Option.filter_eq_some_iff.mp hfilter
      have hst : Standing s key now h := (standing_iff hl).mp (by simpa using hguard)
      obtain rfl : h.leader = l := Option.some.inj (hst.leader.symm.trans hl)
      have hstore : ∀ released next, ({ s with holdReleased := released }.storeHold key (s.hold key)
          next).hold key = next := fun released next => hold_storeHold _ key next
      rw [hstore]
      show Refreshed s key publisher now (if (s.release key publisher h.leader now
        (s.stamped key now h)).isNone then some (s.stamped key now h) else none)
      cases hr : s.release key publisher h.leader now (s.stamped key now h) with
      | none => exact .kept h hh hst hr
      | some r => exact .released h r hh hst hr

/-! ## Taking a hold -/

theorem hold_noted (s : StickyAuthority) (key : BookKey) (publisher : Transport) (now : Nat)
    (v : ScopeState) : (s.noted key publisher now v).hold key = s.hold key :=
  hold_of_markets (noted_markets s key publisher now v) key

theorem healthy_noted (s : StickyAuthority) (key : BookKey) (publisher : Transport) (now : Nat)
    (v : ScopeState) (p : Transport) :
    (s.noted key publisher now v).healthy key p = s.healthy key p :=
  healthy_of_markets (noted_markets s key publisher now v) key p

/-- The path that serves a market while its hold is in force. -/
theorem serving_of_hold {h : RevertHold} (hl : s.scopeLeader (scopeOf key) = some h.leader)
    (hh : s.hold key = some h) (hp : s.healthy key h.holder = true) : s.serving key = some h.holder := by
  unfold serving
  rw [hl]
  simp only
  rw [hh, Option.filter_some, if_pos (by simpa using hp)]

theorem serving_of_no_hold {l : Transport} (hl : s.scopeLeader (scopeOf key) = some l)
    (hh : s.hold key = none) (hp : s.healthy key l = true) : s.serving key = some l := by
  unfold serving
  rw [hl]
  simp only
  rw [hh, Option.filter_none, if_pos hp]

/-- A path that serves a market from another's scope is healthy there, and the leader is not unless a
hold is in force. -/
theorem override_of_serving {h l : Transport} (hl : s.scopeLeader (scopeOf key) = some l)
    (hs : s.serving key = some h) (hne : h ≠ l) :
    (∃ since, s.hold key = some ⟨h, l, since⟩) ∨ s.healthy key l = false ∧ s.healthy key h = true := by
  have hhealthy : s.healthy key h = true := by
    by_contra hu
    have hres := (serving_unhealthy hs (Bool.eq_false_iff.mpr hu)).leads
    exact hne (Option.some.inj (hres.symm.trans hl))
  unfold serving at hs
  rw [hl] at hs
  simp only at hs
  split at hs
  · rename_i hd hfilter
    obtain ⟨hh, hguard⟩ := Option.filter_eq_some_iff.mp hfilter
    obtain ⟨holder, leader, since⟩ := hd
    simp only [Bool.decide_and, Bool.decide_eq_true, Bool.and_eq_true, decide_eq_true_eq] at hguard
    obtain rfl : holder = h := Option.some.inj hs
    exact .inl ⟨since, by rw [hh, hguard.1]⟩
  · split at hs
    · exact absurd (Option.some.inj hs).symm hne
    · rename_i hu
      exact .inr ⟨Bool.eq_false_iff.mpr hu, hhealthy⟩

/-- **An override leaves a hold behind**: a path that is let out on a market whose scope another path
leads holds that market. -/
theorem override_holds {h l : Transport} {now : Nat}
    (hout : (s.admitBatch key h now).2.isEmitted = true)
    (hl : (s.admitBatch key h now).1.scopeLeader (scopeOf key) = some l) (hne : h ≠ l) :
    ∃ since, (s.admitBatch key h now).1.hold key = some ⟨h, l, since⟩ := by
  have ha := admitBatch_admission s key h now
  generalize s.admitBatch key h now = r at hout hl ha
  cases ha with
  | ineligible _ => cases hout
  | first label hp hv f hf =>
    simp only [scopeLeader, updateMarket, FinMap.get_insert_self, Option.map_some, opening,
      Option.some.injEq] at hl
    exact absurd hl hne
  | refused _ _ _ _ _ => cases hout
  | served label hp v hv hs f hf openedTick =>
    rw [(updateMarket_scoped _ _ _).scopeLeader] at hl
    rw [hold_benign _ _ hf]
    rcases override_of_serving hl hs hne with hheld | ⟨hu, hh⟩
    · exact hheld
    · -- the leader is unhealthy and the publisher is not, so the batch took or kept a hold
      rw [(refreshHold_scoped _ _ _ _).scopeLeader] at hl
      rw [healthy_refreshHold] at hu hh
      have href := refreshHold_refreshed (s.noted key h now v) key h now hl
      generalize hh' : (s.noted key h now v).refreshHold key h now = s₃ at hs href
      have hl₃ : s₃.scopeLeader (scopeOf key) = some l := by
        rw [← hh', (refreshHold_scoped _ _ _ _).scopeLeader, hl]
      have hhealth₃ : ∀ p, s₃.healthy key p = (s.noted key h now v).healthy key p := by
        intro p
        rw [← hh', healthy_refreshHold]
      generalize hg : s₃.hold key = next at href
      cases href with
      | idle _ hidle => rw [hidle l hl] at hu; cases hu
      | discarded l' hl' _ hp =>
        rw [hl] at hl'
        cases hl'
        simp [hu, hh, hne] at hp
      | taken l' hl' _ _ _ _ =>
        rw [hl] at hl'
        cases hl'
        exact ⟨none, rfl⟩
      | kept hd _ hst hr =>
        obtain rfl : hd.leader = l := Option.some.inj (hst.leader.symm.trans hl)
        have hserve := serving_of_hold (h := (s.noted key h now v).stamped key now hd) hl₃ hg
          (by rw [hhealth₃]; exact hst.healthy)
        rw [hserve] at hs
        exact ⟨_, by rw [← Option.some.inj hs]; rfl⟩
      | released hd r _ hst hr =>
        -- only the leader's own batch releases a hold
        obtain rfl : hd.leader = l := Option.some.inj (hst.leader.symm.trans hl)
        simp [release, stamped, hu] at hr

/-! ## Markets a call does not name -/

/-- The market a call writes to. -/
def Call.market : Call → Option BookKey
  | .admitBatch key _ _ => some key
  | .setHealth key _ _ => some key
  | .noteRebaselinePoint key _ => some key
  | .dropHold key => some key
  | .forgetMarket key => some key
  | _ => none

/-- A market is as it was, or evicted. -/
def Fades (s s' : StickyAuthority) (k : BookKey) : Prop :=
  s'.markets.get k = s.markets.get k ∨ s'.markets.get k = none

theorem Fades.of_markets (h : s'.markets = s.markets) : Fades s s' k := .inl (by rw [h])

theorem Fades.trans {s'' : StickyAuthority} (h : Fades s s' k) (h' : Fades s' s'' k) : Fades s s'' k := by
  rcases h' with h' | h'
  · rw [Fades, h']
    exact h
  · exact .inr h'

theorem fades_updateMarket (s : StickyAuthority) (f : MarketState → MarketState) (hk : k ≠ key) :
    Fades s (s.updateMarket key f) k := (get_updateMarket s key f).2 k hk

theorem fades_refreshHold (s : StickyAuthority) (publisher : Transport) (now : Nat) (hk : k ≠ key) :
    Fades s (s.refreshHold key publisher now) k := by
  have hstore : ∀ (s : StickyAuthority) stored next, Fades s (s.storeHold key stored next) k := by
    intro s stored next
    unfold storeHold
    split
    · exact fades_updateMarket s _ hk
    · exact .inl rfl
  unfold refreshHold
  split
  · exact .inl rfl
  · simp only
    split
    · exact .inl rfl
    · split
      · split
        · exact hstore _ _ _
        · exact hstore _ _ _
      · exact (Fades.of_markets rfl).trans (hstore _ _ _)

theorem fades_admitBatch (s : StickyAuthority) (publisher : Transport) (now : Nat) (hk : k ≠ key) :
    Fades s (s.admitBatch key publisher now).1 k := by
  have hasked : Fades s (s.asked key publisher) k := .of_markets (pathOrdinal_markets s _ _)
  have hnoted : ∀ v, Fades s (s.noted key publisher now v) k := fun v => .of_markets (noted_markets s _ _ _ v)
  have ha := admitBatch_admission s key publisher now
  generalize s.admitBatch key publisher now = r at ha
  cases ha with
  | ineligible _ => exact hasked
  | first label hp hv f hf => exact hasked.trans ((Fades.of_markets rfl).trans (fades_updateMarket _ f hk))
  | refused label hp v hv hs => exact (hnoted v).trans (fades_refreshHold _ publisher now hk)
  | served label hp v hv hs f hf openedTick =>
    exact (hnoted v).trans ((fades_refreshHold _ publisher now hk).trans (fades_updateMarket _ f hk))

/-- A market that a call does not name is as it was, or evicted. -/
theorem fades_step (c : Call) (hc : c.market ≠ some k) : Fades s (machine.step s c).1 k := by
  have hne : ∀ {key : BookKey}, some key ≠ some k → k ≠ key := fun h he => h (congrArg some he.symm)
  cases c with
  | admitBatch key publisher now => exact fades_admitBatch s publisher now (hne hc)
  | admitSynthesized key publisher => exact .inl rfl
  | setHealth key publisher healthy =>
    have hord : Fades s (s.pathOrdinal (scopeOf key) publisher).1 k :=
      .of_markets (pathOrdinal_markets s _ _)
    show Fades s (s.setHealth key publisher healthy) k
    unfold setHealth
    generalize s.pathOrdinal (scopeOf key) publisher = r at hord
    obtain ⟨s₁, label⟩ := r
    cases label with
    | none => exact hord
    | some label =>
      simp only
      split
      · split
        · exact hord.trans (fades_updateMarket _ _ (hne hc))
        · exact hord
      · exact hord.trans (fades_updateMarket _ _ (hne hc))
  | noteRebaselinePoint key publisher =>
    show Fades s (s.noteRebaselinePoint key publisher) k
    unfold noteRebaselinePoint
    split
    · exact .inl rfl
    · exact .inl (FinMap.get_insert_of_ne _ _ (hne hc))
  | transferScopeTo scope path atNs =>
    show Fades s (s.transferScopeTo scope path atNs) k
    unfold transferScopeTo
    split
    · exact .inl rfl
    · exact .inl rfl
  | observeMatchedLead scope path leadNs => exact .of_markets (observeMatchedLead_markets s _ _ _)
  | closeWindow iter nowNs => exact .inl rfl
  | dropHold key =>
    show Fades s (s.dropHold key) k
    unfold dropHold
    split
    · exact .inl rfl
    · exact .inl (FinMap.get_insert_of_ne _ _ (hne hc))
  | forgetMarket key => exact .inl (FinMap.get_erase_of_ne _ (hne hc))
  | setConfig cfg => exact .inl rfl

/-! ## The silence clock -/

/-- The stamp of a path's latest batch in a scope, after a call. -/
def Call.stamp (scope : ScopeKey) (p : Transport) (seen : Nat) : Call → Nat
  | .admitBatch key publisher now => if scopeOf key = scope ∧ publisher = p then now else seen
  | _ => seen

/-- The stamp of a path's latest batch in a scope, after a run. -/
def lastSent (scope : ScopeKey) (p : Transport) (seen : Nat) (calls : List Call) : Nat :=
  calls.foldl (fun seen c => c.stamp scope p seen) seen

theorem lastSeen_insert (s : StickyAuthority) (scope scope' : ScopeKey) (p : Transport) (v : ScopeState)
    (s₁ : StickyAuthority) (h : s₁.scopes = s.scopes.insert scope' v) :
    s₁.lastSeen scope p =
      if scope = scope' then (v.paths.get p).map (·.lastSeenNs) else s.lastSeen scope p := by
  unfold lastSeen
  rw [h, FinMap.get_insert]
  split
  · rfl
  · rfl

theorem lastSeen_of_scopes (h : s'.scopes = s.scopes) (scope : ScopeKey) (p : Transport) :
    s'.lastSeen scope p = s.lastSeen scope p := by
  unfold lastSeen
  rw [h]

theorem lastSeen_of_get {scope : ScopeKey} {v : ScopeState} (h : s.scopes.get scope = some v)
    (p : Transport) : s.lastSeen scope p = (v.paths.get p).map (·.lastSeenNs) := by
  unfold lastSeen
  rw [h]
  rfl

theorem lastSeen_emptied (paths : FinMap Transport Path) (p : Transport) :
    ((paths.mapVals fun p => { p with samples := [] }).get p).map (·.lastSeenNs) =
      (paths.get p).map (·.lastSeenNs) := by
  rw [FinMap.get_mapVals, Option.map_map]
  cases paths.get p <;> rfl

theorem lastSeen_transferTo (v : ScopeState) (path p : Transport) (atNs : Nat) :
    ((v.transferTo path atNs).paths.get p).map (·.lastSeenNs) = (v.paths.get p).map (·.lastSeenNs) := by
  unfold ScopeState.transferTo
  split
  · exact lastSeen_emptied _ _
  · rfl

theorem lastSeen_note (v : ScopeState) (publisher p : Transport) (now timeout : Nat) :
    ((v.note publisher now timeout).paths.get p).map (·.lastSeenNs) =
      if p = publisher then some now else (v.paths.get p).map (·.lastSeenNs) := by
  have hins : ((v.paths.insert publisher
      { (v.paths.get publisher).getD .default with lastSeenNs := now }).get p).map (·.lastSeenNs) =
      if p = publisher then some now else (v.paths.get p).map (·.lastSeenNs) := by
    rw [FinMap.get_insert]
    split
    · rfl
    · rfl
  unfold ScopeState.note
  simp only
  split
  · exact (lastSeen_emptied _ _).trans hins
  · exact hins

theorem lastSeen_closeWindow (v : ScopeState) (iter : List Transport) (nowNs : Nat)
    (cfg : AuthorityConfig) (p : Transport) :
    ((v.closeWindow iter nowNs cfg).paths.get p).map (·.lastSeenNs) =
      (v.paths.get p).map (·.lastSeenNs) := by
  unfold ScopeState.closeWindow
  simp only
  split
  · rfl
  · cases bestChallenger iter v cfg with
    | none => exact lastSeen_emptied _ _
    | some c => exact (lastSeen_transferTo _ _ _ _).trans (lastSeen_emptied _ _)

theorem lastSeen_admitBatch (hlab : Labelled s) {scope : ScopeKey} {p : Transport} {seen : Nat}
    (h : s.lastSeen scope p = some seen) (key : BookKey) (publisher : Transport) (now : Nat) :
    (s.admitBatch key publisher now).1.lastSeen scope p =
      some ((Call.admitBatch key publisher now).stamp scope p seen) := by
  have hscopes : (s.asked key publisher).scopes = s.scopes := (pathOrdinal_scopes s _ _).1
  obtain ⟨v₀, hv₀⟩ : ∃ v, s.scopes.get scope = some v := by
    cases hv : s.scopes.get scope with
    | none => simp [lastSeen, hv] at h
    | some v => exact ⟨v, rfl⟩
  have hpath : v₀.paths.contains p = true := by
    rw [lastSeen_of_get hv₀] at h
    obtain ⟨path, hp, -⟩ := Option.map_eq_some_iff.mp h
    simp [FinMap.contains, hp]
  have hnoted : ∀ v, s.scopes.get (scopeOf key) = some v →
      (s.noted key publisher now v).lastSeen scope p =
        some ((Call.admitBatch key publisher now).stamp scope p seen) := by
    intro v hv
    rw [lastSeen_insert s scope (scopeOf key) p _ _ rfl, lastSeen_note, Call.stamp]
    by_cases hsc : scope = scopeOf key
    · rw [hsc] at h
      rw [lastSeen_of_get hv] at h
      rw [if_pos hsc, h]
      by_cases hp : p = publisher
      · rw [if_pos hp, if_pos ⟨hsc.symm, hp.symm⟩]
      · rw [if_neg hp, if_neg fun hc => hp hc.2.symm]
    · rw [if_neg hsc, h, if_neg fun hc => hsc hc.1.symm]
  have ha := admitBatch_admission s key publisher now
  generalize s.admitBatch key publisher now = r at ha
  cases ha with
  | ineligible hp =>
    rw [lastSeen_of_scopes hscopes, h, Call.stamp, if_neg]
    -- a path the scope has recorded is eligible
    rintro ⟨rfl, rfl⟩
    have hlabel := hlab.labelled _ v₀ publisher hv₀ hpath
    obtain ⟨_, he, -⟩ | ⟨_, he, -⟩ | ⟨-, hnone, -⟩ := pathOrdinal_cases s (scopeOf key) publisher
    · rw [he] at hp; cases hp
    · rw [he] at hp; cases hp
    · rw [hnone] at hlabel; cases hlabel
  | first label hp hv f hf =>
    have hne : scope ≠ scopeOf key := by
      rintro rfl
      rw [hv] at hv₀
      cases hv₀
    rw [lastSeen_of_scopes (updateMarket_scoped _ _ _).scopes,
      lastSeen_insert s scope (scopeOf key) p _ _ rfl, if_neg hne, h, Call.stamp,
      if_neg fun hc => hne hc.1.symm]
  | refused label hp v hv hs =>
    rw [lastSeen_of_scopes (refreshHold_scoped _ _ _ _).scopes, hnoted v hv]
  | served label hp v hv hs f hf openedTick =>
    rw [lastSeen_of_scopes ((refreshHold_scoped _ _ _ _).trans (updateMarket_scoped _ _ _)).scopes,
      hnoted v hv]

/-- A path that is let out was seen just now. -/
theorem lastSeen_emitted {now : Nat} (hout : (s.admitBatch key publisher now).2.isEmitted = true) :
    (s.admitBatch key publisher now).1.lastSeen (scopeOf key) publisher = some now := by
  have ha := admitBatch_admission s key publisher now
  generalize s.admitBatch key publisher now = r at hout ha
  cases ha with
  | ineligible _ => cases hout
  | first label hp hv f hf =>
    rw [lastSeen_of_scopes (updateMarket_scoped _ _ _).scopes,
      lastSeen_insert s (scopeOf key) (scopeOf key) publisher _ _ rfl, if_pos rfl]
    simp [opening]
  | refused _ _ _ _ _ => cases hout
  | served label hp v hv hs f hf openedTick =>
    rw [lastSeen_of_scopes ((refreshHold_scoped _ _ _ _).trans (updateMarket_scoped _ _ _)).scopes,
      lastSeen_insert s (scopeOf key) (scopeOf key) publisher _ _ rfl, if_pos rfl, lastSeen_note,
      if_pos rfl]

/-- The silence clock of a recorded path is the stamp of its latest batch in the scope. -/
theorem lastSeen_step (hlab : Labelled s) {scope : ScopeKey} {p : Transport} {seen : Nat}
    (h : s.lastSeen scope p = some seen) (c : Call) :
    (machine.step s c).1.lastSeen scope p = some (c.stamp scope p seen) := by
  cases c with
  | admitBatch key publisher now => exact lastSeen_admitBatch hlab h key publisher now
  | admitSynthesized key publisher => exact h
  | setHealth key publisher healthy =>
    exact (lastSeen_of_scopes ((setHealth_scoped s key publisher healthy).scopes.trans
      (pathOrdinal_scopes s _ _).1) _ _).trans h
  | noteRebaselinePoint key publisher =>
    exact (lastSeen_of_scopes (noteRebaselinePoint_scoped s key publisher).scopes _ _).trans h
  | transferScopeTo scope' path atNs =>
    show (s.transferScopeTo scope' path atNs).lastSeen scope p = _
    unfold transferScopeTo
    split
    · exact h
    · rename_i v hv
      rw [lastSeen_insert s scope scope' p _ _ rfl, lastSeen_transferTo]
      split
      · rename_i heq
        rw [heq, lastSeen_of_get hv] at h
        exact h
      · exact h
  | observeMatchedLead scope' path leadNs =>
    have hord := (pathOrdinal_scopes s scope' path).1
    obtain hs | ⟨label, v, samples, hlabel, hv, hs⟩ := observeMatchedLead_cases s scope' path leadNs
    · exact (lastSeen_of_scopes (hs.scopes.trans hord) _ _).trans h
    · show (s.observeMatchedLead scope' path leadNs).lastSeen scope p = _
      rw [hord] at hs
      rw [lastSeen_insert s scope scope' p _ _ hs.scopes]
      split
      · rename_i heq
        rw [heq, lastSeen_of_get hv] at h
        simp only [FinMap.get_insert]
        split
        · rename_i hp
          rw [hp] at h
          obtain ⟨path', hpath, hseen⟩ := Option.map_eq_some_iff.mp h
          rw [hpath]
          exact congrArg some hseen
        · exact h
      · exact h
  | closeWindow iter nowNs =>
    refine Eq.trans ?_ h
    show ((((s.scopes.mapEntries _).get scope).bind _).map _) = _
    rw [FinMap.get_mapEntries]
    unfold lastSeen
    cases s.scopes.get scope with
    | none => rfl
    | some v => exact lastSeen_closeWindow v _ _ _ p
  | dropHold key =>
    exact (lastSeen_of_scopes (dropHold_scoped s key).scopes _ _).trans h
  | forgetMarket key => exact h
  | setConfig cfg => exact h

/-! ## One step of a hold -/

/-- What ends the hold of `h` over leader `l` before `l` has recovered: `h` is reported unhealthy or is
found silent, the scope's leader changes, the hold is dropped, or the market is forgotten or evicted.
`seen` is the stamp of `h`'s latest batch in the scope. -/
inductive Lapses (key : BookKey) (h l : Transport) (seen : Nat) (s : StickyAuthority) : Call → Prop
  | unhealthy : Lapses key h l seen s (.setHealth key h false)
  | silent (p : Transport) (now : Nat) (hne : p ≠ h) (ht : s.cfg.leaderTimeoutNs < now - seen) :
      Lapses key h l seen s (.admitBatch key p now)
  | leader (c : Call) (hl : (machine.step s c).1.scopeLeader (scopeOf key) ≠ some l) :
      Lapses key h l seen s c
  | dropped : Lapses key h l seen s (.dropHold key)
  | gone (c : Call) (hg : (machine.step s c).1.markets.get key = none) : Lapses key h l seen s c

/-- `h` holds the market over leader `l`, and last delivered at `seen`. -/
structure Held (key : BookKey) (h l : Transport) (seen : Nat) (s : StickyAuthority) : Prop where
  leader : s.scopeLeader (scopeOf key) = some l
  hold : ∃ since, s.hold key = some ⟨h, l, since⟩
  healthy : s.healthy key h = true
  seen : s.lastSeen (scopeOf key) h = some seen

/-- The leader's batch at `now` finds its hold's clock run out. -/
structure Recovers (key : BookKey) (h l : Transport) (now : Nat) (s : StickyAuthority) : Prop where
  healthy : s.healthy key l = true
  clock : ∃ since, s.hold key = some ⟨h, l, some since⟩ ∧
    ((∃ m, s.markets.get key = some m ∧ l ∈ m.reinstalled) ∧ since + REVERT_HOLD_NS ≤ now ∨
      since + REVERT_DEADLINE_NS ≤ now)

theorem Recovers.of_release {h : RevertHold} {now : Nat} {r : HoldRelease}
    (hh : s.hold key = some h)
    (hr : s.release key publisher h.leader now (s.stamped key now h) = some r) :
    publisher = h.leader ∧ Recovers key h.holder h.leader now s := by
  unfold release stamped at hr
  by_cases hl : s.healthy key h.leader = true
  · rw [if_pos hl] at hr
    simp only at hr
    split at hr
    · rename_i hp
      refine ⟨hp, hl, ?_⟩
      obtain ⟨holder, leader, since⟩ := h
      cases since with
      | none =>
        -- a clock stamped by this very batch has not run
        simp [REVERT_HOLD_NS, REVERT_DEADLINE_NS] at hr
      | some since =>
        refine ⟨since, hh, ?_⟩
        simp only [Option.getD_some] at hr
        split at hr
        · rename_i hnat
          have hm : ∃ m, s.markets.get key = some m ∧ leader ∈ m.reinstalled := by
            have := hnat.1
            cases hm : s.markets.get key with
            | none => simp [hm] at this
            | some m => exact ⟨m, rfl, by simpa [hm] using this⟩
          have := hnat.2
          unfold REVERT_HOLD_NS at this ⊢
          exact .inl ⟨hm, by omega⟩
        · split at hr
          · rename_i hdead
            unfold REVERT_DEADLINE_NS at hdead ⊢
            exact .inr (by omega)
          · cases hr
    · cases hr
  · rw [if_neg hl] at hr
    cases hr

theorem Held.of_market {h l : Transport} {seen seen' : Nat} (hd : Held key h l seen s)
    (hm : s'.markets.get key = s.markets.get key)
    (hl : s'.scopeLeader (scopeOf key) = some l) (hs : s'.lastSeen (scopeOf key) h = some seen') :
    Held key h l seen' s' := by
  refine ⟨hl, ?_, ?_, hs⟩
  · obtain ⟨since, hh⟩ := hd.hold
    exact ⟨since, by unfold StickyAuthority.hold at hh ⊢; rw [hm]; exact hh⟩
  · have hh := hd.healthy
    unfold StickyAuthority.healthy at hh ⊢
    rw [hm]
    exact hh

/-- One batch on a held market: the hold is kept and only the holder is let out, or the batch is the
recovered leader's and is let out. -/
theorem Held.admitBatch {h l : Transport} {seen : Nat} (hlab : Labelled s) (hd : Held key h l seen s)
    (p : Transport) (now : Nat) (hlapse : ¬ Lapses key h l seen s (.admitBatch key p now)) :
    (Held key h l ((Call.admitBatch key p now).stamp (scopeOf key) h seen) (s.admitBatch key p now).1 ∧
      ((s.admitBatch key p now).2.isEmitted = true → p = h)) ∨
    p = l ∧ (s.admitBatch key p now).2.isEmitted = true ∧ Recovers key h l now s := by
  have hleader : (s.admitBatch key p now).1.scopeLeader (scopeOf key) = some l := by
    by_contra hl
    exact hlapse (.leader _ hl)
  have hseen := lastSeen_admitBatch hlab hd.seen key p now
  have hhealth : (s.admitBatch key p now).1.healthy key h = true :=
    (healthy_admitBatch s key p now h).trans hd.healthy
  obtain ⟨since, hhold⟩ := hd.hold
  have ha := admitBatch_admission s key p now
  generalize s.admitBatch key p now = r at hleader hseen hhealth ha
  -- the hold as the batch finds it, once it is noted
  have hstanding : ∀ v s₃, s₃ = (s.noted key p now v).refreshHold key p now →
      s₃.scopeLeader (scopeOf key) = some l →
      s₃.lastSeen (scopeOf key) h = some ((Call.admitBatch key p now).stamp (scopeOf key) h seen) →
      Standing (s.noted key p now v) key now ⟨h, l, since⟩ := by
    rintro v s₃ rfl hl hs
    rw [(refreshHold_scoped _ _ _ _).scopeLeader] at hl
    rw [lastSeen_of_scopes (refreshHold_scoped _ _ _ _).scopes] at hs
    refine ⟨hl, (healthy_noted s key p now v h).trans hd.healthy, _, hs, ?_⟩
    have hcfg : (s.noted key p now v).cfg = s.cfg := (pathOrdinal_scopes s _ _).2
    rw [hcfg, Call.stamp]
    by_cases hp : p = h
    · rw [if_pos ⟨rfl, hp⟩]
      omega
    · rw [if_neg fun hc => hp hc.2]
      by_contra ht
      exact hlapse (.silent p now hp (by omega))
  have hrefreshed : ∀ v s₃, s₃ = (s.noted key p now v).refreshHold key p now →
      s₃.scopeLeader (scopeOf key) = some l →
      s₃.lastSeen (scopeOf key) h = some ((Call.admitBatch key p now).stamp (scopeOf key) h seen) →
      (∃ since', s₃.hold key = some ⟨h, l, since'⟩ ∧ s₃.serving key = some h) ∨
        p = l ∧ s₃.serving key = some l ∧ Recovers key h l now s := by
    intro v s₃ hs₃ hl hs
    have hst := hstanding v s₃ hs₃ hl hs
    have hhold₂ : (s.noted key p now v).hold key = some ⟨h, l, since⟩ := (hold_noted s key p now v).trans hhold
    have href := refreshHold_refreshed (s.noted key p now v) key p now hst.leader
    rw [← hs₃] at href
    have hhealth₃ : ∀ q, s₃.healthy key q = s.healthy key q := by
      intro q
      rw [hs₃, healthy_refreshHold, healthy_noted]
    generalize hg : s₃.hold key = next at href
    cases href with
    | idle hnone _ => rw [hhold₂] at hnone; cases hnone
    | discarded l' _ hnot _ => exact absurd hst (hnot _ hhold₂)
    | taken l' _ hnot _ _ _ => exact absurd hst (hnot _ hhold₂)
    | kept hd' hh' hst' hr =>
      rw [hhold₂] at hh'
      obtain rfl := (Option.some.inj hh').symm
      refine .inl ⟨_, rfl, ?_⟩
      exact serving_of_hold (h := (s.noted key p now v).stamped key now ⟨h, l, since⟩) hl hg
        ((hhealth₃ h).trans hd.healthy)
    | released hd' r hh' hst' hr =>
      rw [hhold₂] at hh'
      obtain rfl := (Option.some.inj hh').symm
      obtain ⟨hp, hrec⟩ := Recovers.of_release hhold₂ hr
      have hrec' : Recovers key h l now s := by
        refine ⟨(healthy_noted s key p now v l).symm.trans hrec.healthy, ?_⟩
        obtain ⟨since', hs', hclock⟩ := hrec.clock
        rw [hold_noted] at hs'
        rw [noted_markets] at hclock
        exact ⟨since', hs', hclock⟩
      exact .inr ⟨hp, serving_of_no_hold hl hg ((hhealth₃ l).trans hrec'.healthy), hrec'⟩
  cases ha with
  | ineligible _ =>
    exact .inl ⟨⟨hleader, ⟨since, (hold_of_markets (pathOrdinal_markets s _ _) key).trans hhold⟩,
      hhealth, hseen⟩, by simp [Admit.isEmitted]⟩
  | first label hp hv f hf =>
    have := hd.leader
    simp [scopeLeader, hv] at this
  | refused label hp v hv hs =>
    rcases hrefreshed v _ rfl hleader hseen with ⟨since', hh, -⟩ | ⟨rfl, hserve, -⟩
    · exact .inl ⟨⟨hleader, ⟨since', hh⟩, hhealth, hseen⟩, by simp [Admit.isEmitted]⟩
    · exact absurd hserve hs
  | served label hp v hv hs f hf openedTick =>
    rw [(updateMarket_scoped _ _ _).scopeLeader] at hleader
    have hseen' := hseen
    rw [lastSeen_of_scopes (updateMarket_scoped _ _ _).scopes] at hseen'
    rcases hrefreshed v _ rfl hleader hseen' with ⟨since', hh, hserve⟩ | ⟨rfl, hserve, hrec⟩
    · refine .inl ⟨⟨((updateMarket_scoped _ _ _).scopeLeader _).trans hleader,
        ⟨since', (hold_benign _ _ hf).trans hh⟩, hhealth, hseen⟩, fun _ => ?_⟩
      exact Option.some.inj (hs.symm.trans hserve)
    · exact .inr ⟨rfl, rfl, hrec⟩

theorem healthy_of_get {m m' : MarketState} {p : Transport} (hm : s.markets.get key = some m)
    (hm' : s'.markets.get key = some m') (h : p ∈ m'.unhealthy → p ∈ m.unhealthy)
    (hs : s.healthy key p = true) : s'.healthy key p = true := by
  unfold healthy at hs ⊢
  rw [hm] at hs
  rw [hm']
  simp only [Option.all_some, decide_eq_true_eq] at hs ⊢
  exact fun hp => hs (h hp)

/-- **One step of a hold that does not lapse.** The hold is kept and on its market only the holder is
let out, or the step is a batch of the recovered leader, which is let out. -/
theorem Held.next {h l : Transport} {seen : Nat} (hlab : Labelled s) (hd : Held key h l seen s)
    (c : Call) (hlapse : ¬ Lapses key h l seen s c) :
    (Held key h l (c.stamp (scopeOf key) h seen) (machine.step s c).1 ∧
      ∀ p, c.Admits key p → letOut (machine.step s c).2 = true → p = h) ∨
    ∃ now, c = .admitBatch key l now ∧ letOut (machine.step s c).2 = true ∧ Recovers key h l now s := by
  have hleader : (machine.step s c).1.scopeLeader (scopeOf key) = some l := by
    by_contra hl
    exact hlapse (.leader c hl)
  have htracked : (machine.step s c).1.markets.get key ≠ none := fun hg => hlapse (.gone c hg)
  have hseen := lastSeen_step hlab hd.seen c
  -- a call that leaves the market as it was keeps the hold
  have hsame : (machine.step s c).1.markets.get key = s.markets.get key →
      Held key h l (c.stamp (scopeOf key) h seen) (machine.step s c).1 :=
    fun hm => hd.of_market hm hleader hseen
  by_cases hc : c.market = some key
  · obtain ⟨since, hhold⟩ := hd.hold
    obtain ⟨m, hm, hmhold⟩ : ∃ m, s.markets.get key = some m ∧ m.hold = some ⟨h, l, since⟩ :=
      Option.bind_eq_some_iff.mp hhold
    cases c with
    | admitBatch k p now =>
      cases hc
      rcases hd.admitBatch hlab p now hlapse with ⟨hheld, honly⟩ | ⟨rfl, hout, hrec⟩
      · refine .inl ⟨hheld, fun q hq hout => ?_⟩
        cases hq with
        | batch _ => exact honly hout
      · exact .inr ⟨now, rfl, hout, hrec⟩
    | setHealth k p healthy =>
      cases hc
      refine .inl ⟨?_, fun q hq => by cases hq⟩
      show Held key h l seen (s.setHealth key p healthy)
      have hmark := pathOrdinal_markets s (scopeOf key) p
      change (s.setHealth key p healthy).scopeLeader (scopeOf key) = some l at hleader
      change (s.setHealth key p healthy).lastSeen (scopeOf key) h = some seen at hseen
      unfold setHealth at hleader hseen ⊢
      generalize s.pathOrdinal (scopeOf key) p = r at hleader hseen hmark
      obtain ⟨s₁, label⟩ := r
      have hm₁ : s₁.markets.get key = some m := by rw [← hm]; exact congrArg (·.get key) hmark
      cases label with
      | none => exact hd.of_market (hm₁.trans hm.symm) hleader hseen
      | some label =>
        cases healthy with
        | true =>
          have hcon : s₁.markets.contains key = true := by simp [FinMap.contains, hm₁]
          simp only [if_true, hcon] at hleader hseen ⊢
          have hget := (get_updateMarket s₁ key fun m => { m with unhealthy := m.unhealthy.erase p }).1
          rw [hm₁, Option.getD_some] at hget
          refine ⟨hleader, ⟨since, (hold_of_get hget).trans hmhold⟩, ?_, hseen⟩
          exact healthy_of_get hm hget (fun hp => (Finset.mem_erase.mp hp).2) hd.healthy
        | false =>
          have hne : p ≠ h := by
            rintro rfl
            exact hlapse .unhealthy
          simp only [Bool.false_eq_true, if_false] at hleader hseen ⊢
          have hget := (get_updateMarket s₁ key fun m =>
            { m with
              unhealthy := insert p m.unhealthy
              reinstalled := m.reinstalled.erase p
              hold := m.hold.map fun h =>
                if h.leader = p then { h with leaderHealthySinceNs := none } else h }).1
          rw [hm₁, Option.getD_some] at hget
          refine ⟨hleader, ⟨if l = p then none else since, (hold_of_get hget).trans ?_⟩, ?_, hseen⟩
          · rw [hmhold, Option.map_some]
            split
            · rfl
            · rfl
          · refine healthy_of_get hm hget (fun hp => ?_) hd.healthy
            exact (Finset.mem_insert.mp hp).resolve_left hne.symm
    | noteRebaselinePoint k p =>
      cases hc
      refine .inl ⟨?_, fun q hq => by cases hq⟩
      have hget : (machine.step s (.noteRebaselinePoint key p)).1.markets.get key =
          some { m with reinstalled := insert p m.reinstalled } := by
        simp [machine, step, noteRebaselinePoint, hm]
      refine ⟨hleader, ⟨since, (hold_of_get hget).trans hmhold⟩, ?_, hseen⟩
      exact healthy_of_get hm hget id hd.healthy
    | dropHold k =>
      cases hc
      exact absurd .dropped hlapse
    | forgetMarket k =>
      cases hc
      exact absurd (FinMap.get_erase_self _ _) htracked
    | admitSynthesized _ _ => cases hc
    | transferScopeTo _ _ _ => cases hc
    | observeMatchedLead _ _ _ => cases hc
    | closeWindow _ _ => cases hc
    | setConfig _ => cases hc
  · have hkeep := hsame ((fades_step c hc).resolve_right htracked)
    refine .inl ⟨hkeep, fun p hp hout => ?_⟩
    cases hp with
    | batch now => exact absurd rfl hc
    | synthesized =>
      -- a synthesized batch goes out only from the path that serves the market
      obtain ⟨since, hhold⟩ := hd.hold
      have hserve : s.serving key = some h := serving_of_hold hd.leader hhold hd.healthy
      by_contra hne
      have hdrop : (s.admitSynthesized key p).2 = .dropped := by
        simp [admitSynthesized, hserve, Ne.symm hne]
      change letOut (some (s.admitSynthesized key p).2) = true at hout
      rw [hdrop] at hout
      cases hout

/-! ## A hold along a run -/

/-- Somewhere along the run the hold lapses. -/
def Lapsed (key : BookKey) (h l : Transport) (seen : Nat) (s : StickyAuthority) (calls : List Call) :
    Prop :=
  ∃ before c after, calls = before ++ c :: after ∧
    Lapses key h l (lastSent (scopeOf key) h seen before) (machine.exec s before) c

theorem Lapsed.cons {h l : Transport} {seen : Nat} {c : Call} {calls : List Call}
    (hl : Lapsed key h l (c.stamp (scopeOf key) h seen) (machine.step s c).1 calls) :
    Lapsed key h l seen s (c :: calls) := by
  obtain ⟨before, d, after, rfl, hlapse⟩ := hl
  exact ⟨c :: before, d, after, rfl, hlapse⟩

/-- A hold that never lapses, over a run that never lets the leader out, is kept. -/
theorem held_run {h l : Transport} : ∀ (calls : List Call) (s : StickyAuthority) (seen : Nat),
    Labelled s → Held key h l seen s →
    (∀ e ∈ machine.trace s calls, e.1.Admits key l → letOut e.2 = false) →
    ¬ Lapsed key h l seen s calls →
    Held key h l (lastSent (scopeOf key) h seen calls) (machine.exec s calls) ∧
      Labelled (machine.exec s calls)
  | [], _, _, hlab, hd, _, _ => ⟨hd, hlab⟩
  | c :: calls, s, seen, hlab, hd, hquiet, hlapse => by
    have hnow : ¬ Lapses key h l seen s c := fun hl => hlapse ⟨[], c, calls, rfl, hl⟩
    rcases hd.next hlab c hnow with ⟨hd', -⟩ | ⟨now, rfl, hout, -⟩
    · exact held_run calls _ _ (hlab.step c) hd'
        (fun e he => hquiet e (List.mem_cons_of_mem _ he)) fun hl => hlapse hl.cons
    · have := hquiet _ List.mem_cons_self (.batch now)
      change letOut (machine.step s (.admitBatch key l now)).2 = false at this
      rw [hout] at this
      cases this

/-! ## What the state says of the history -/

/-- Since a batch on the market stamped `t`, the path has been healthy there in every state. -/
def HealthySince (cfg : AuthorityConfig) (hist : List Call) (key : BookKey) (l : Transport) (t : Nat) :
    Prop :=
  ∃ before p after, hist = before ++ .admitBatch key p t :: after ∧
    ∀ d, d <+: .admitBatch key p t :: after →
      (machine.exec (.new cfg) (before ++ d)).healthy key l = true

/-- The path sent the market a clear-led batch and was not reported unhealthy there since. -/
def ClearedSince (hist : List Call) (key : BookKey) (l : Transport) : Prop :=
  ∃ before after, hist = before ++ .noteRebaselinePoint key l :: after ∧ .setHealth key l false ∉ after

theorem HealthySince.snoc {cfg : AuthorityConfig} {hist : List Call} {l : Transport} {t : Nat} {c : Call}
    (h : HealthySince cfg hist key l t)
    (hc : (machine.exec (.new cfg) (hist ++ [c])).healthy key l = true) :
    HealthySince cfg (hist ++ [c]) key l t := by
  obtain ⟨before, p, after, rfl, hd⟩ := h
  refine ⟨before, p, after ++ [c], by simp, fun d hpre => ?_⟩
  rw [← List.cons_append, List.prefix_concat_iff] at hpre
  rcases hpre with rfl | hpre
  · rw [← List.append_assoc]
    exact hc
  · exact hd d hpre

theorem ClearedSince.snoc {hist : List Call} {l : Transport} {c : Call} (h : ClearedSince hist key l)
    (hc : c ≠ .setHealth key l false) : ClearedSince (hist ++ [c]) key l := by
  obtain ⟨before, after, rfl, hnot⟩ := h
  refine ⟨before, after ++ [c], by simp, fun hmem => ?_⟩
  rcases List.mem_append.mp hmem with hmem | hmem
  · exact hnot hmem
  · exact hc (List.mem_singleton.mp hmem).symm

/-- Only a report makes a path unhealthy. -/
theorem healthy_step {p : Transport} (h : s.healthy k p = true) (c : Call)
    (hc : c ≠ .setHealth k p false) : (machine.step s c).1.healthy k p = true := by
  have hgone : ∀ s' : StickyAuthority, s'.markets.get k = none → s'.healthy k p = true := by
    intro s' hs'
    simp [healthy, hs']
  by_cases hm : c.market = some k
  · cases c with
    | admitBatch key publisher now =>
      cases hm
      exact (healthy_admitBatch s k publisher now p).trans h
    | setHealth key q b =>
      cases hm
      show (s.setHealth k q b).healthy k p = true
      have h₁ : (s.pathOrdinal (scopeOf k) q).1.healthy k p = true := by
        rw [healthy_of_markets (pathOrdinal_markets s _ _)]
        exact h
      unfold setHealth
      generalize s.pathOrdinal (scopeOf k) q = r at h₁
      obtain ⟨s₁, label⟩ := r
      cases label with
      | none => exact h₁
      | some label =>
        have hget := fun f => (get_updateMarket s₁ k f).1
        simp only at h₁ ⊢
        unfold healthy at h₁ ⊢
        split
        · split
          · rw [hget]
            cases hg : s₁.markets.get k with
            | none => simp [MarketState.default]
            | some m =>
              rw [hg] at h₁
              simp only [Option.all_some, decide_eq_true_eq] at h₁
              simp [h₁]
          · exact h₁
        · rename_i hb
          have hne : p ≠ q := by
            rintro rfl
            exact hc (by rw [Bool.eq_false_iff.mpr hb])
          rw [hget]
          cases hg : s₁.markets.get k with
          | none => simp [MarketState.default, hne]
          | some m =>
            rw [hg] at h₁
            simp only [Option.all_some, decide_eq_true_eq] at h₁
            simp [h₁, hne]
    | noteRebaselinePoint key q =>
      cases hm
      show (s.noteRebaselinePoint k q).healthy k p = true
      unfold noteRebaselinePoint
      split
      · exact h
      · rename_i m hg
        exact healthy_of_get hg (FinMap.get_insert_self _ _ _) id h
    | dropHold key =>
      cases hm
      show (s.dropHold k).healthy k p = true
      unfold dropHold
      split
      · exact h
      · rename_i m hg
        exact healthy_of_get hg (FinMap.get_insert_self _ _ _) id h
    | forgetMarket key =>
      cases hm
      exact hgone _ (FinMap.get_erase_self _ _)
    | admitSynthesized _ _ => cases hm
    | transferScopeTo _ _ _ => cases hm
    | observeMatchedLead _ _ _ => cases hm
    | closeWindow _ _ => cases hm
    | setConfig _ => cases hm
  · rcases fades_step (s := s) c hm with hf | hf
    · unfold healthy at h ⊢
      rw [hf]
      exact h
    · exact hgone _ hf

/-- A clock found on a hold was there before, or is the stamp of the batch that found the leader
healthy. -/
theorem clock_admitBatch {hd' : RevertHold} {t now : Nat}
    (hh : (s.admitBatch k publisher now).1.hold k = some hd') (ht : hd'.leaderHealthySinceNs = some t) :
    (∃ hd, s.hold k = some hd ∧ hd.leader = hd'.leader ∧ hd.leaderHealthySinceNs = some t) ∨
      t = now ∧ s.healthy k hd'.leader = true := by
  have hsame : s.hold k = some hd' → (∃ hd, s.hold k = some hd ∧ hd.leader = hd'.leader ∧
      hd.leaderHealthySinceNs = some t) := fun h => ⟨hd', h, rfl, ht⟩
  have hrefresh : ∀ v, ((s.noted k publisher now v).refreshHold k publisher now).hold k = some hd' →
      (∃ hd, s.hold k = some hd ∧ hd.leader = hd'.leader ∧ hd.leaderHealthySinceNs = some t) ∨
        t = now ∧ s.healthy k hd'.leader = true := by
    intro v hv
    have hl : (s.noted k publisher now v).scopeLeader (scopeOf k) =
        some (v.note publisher now s.cfg.leaderTimeoutNs).leader := by
      simp [scopeLeader, noted]
    have href := refreshHold_refreshed (s.noted k publisher now v) k publisher now hl
    rw [hv] at href
    cases href with
    | taken l _ _ _ _ _ => cases ht
    | kept hd hold hst hr =>
      rw [hold_noted] at hold
      unfold stamped at ht ⊢
      rw [healthy_noted] at ht
      split at ht
      · rename_i hhealth
        cases hsince : hd.leaderHealthySinceNs with
        | none =>
          rw [hsince] at ht
          exact .inr ⟨(Option.some.inj ht).symm, hhealth⟩
        | some since =>
          rw [hsince] at ht
          exact .inl ⟨hd, hold, rfl, hsince.trans ht⟩
      · cases ht
  have ha := admitBatch_admission s k publisher now
  generalize s.admitBatch k publisher now = r at hh ha
  cases ha with
  | ineligible _ => exact .inl (hsame ((hold_of_markets (pathOrdinal_markets s _ _) k).symm.trans hh))
  | first label hp hv f hf =>
    rw [hold_benign _ _ hf] at hh
    exact .inl (hsame ((hold_of_markets (pathOrdinal_markets s _ _) k).symm.trans hh))
  | refused label hp v hv hs => exact hrefresh v hh
  | served label hp v hv hs f hf openedTick =>
    rw [hold_benign _ _ hf] at hh
    exact hrefresh v hh

/-- One step of a hold's clock. -/
theorem clock_step {hd' : RevertHold} {t : Nat} (c : Call)
    (hh : (machine.step s c).1.hold k = some hd') (ht : hd'.leaderHealthySinceNs = some t) :
    (∃ hd, s.hold k = some hd ∧ hd.leader = hd'.leader ∧ hd.leaderHealthySinceNs = some t ∧
        (s.healthy k hd'.leader = true → (machine.step s c).1.healthy k hd'.leader = true)) ∨
      ∃ p, c = .admitBatch k p t ∧ s.healthy k hd'.leader = true := by
  by_cases hm : c.market = some k
  · cases c with
    | admitBatch key publisher now =>
      cases hm
      rcases clock_admitBatch hh ht with ⟨hd, hold, hl, hs⟩ | ⟨rfl, hhealth⟩
      · exact .inl ⟨hd, hold, hl, hs, fun h => (healthy_admitBatch s k publisher now _).trans h⟩
      · exact .inr ⟨publisher, rfl, hhealth⟩
    | setHealth key q b =>
      cases hm
      left
      by_cases hreset : b = false ∧ hd'.leader = q
      · -- the report of a path that is not eligible changes nothing; any other resets the clock
        obtain ⟨rfl, rfl⟩ := hreset
        change (s.setHealth k hd'.leader false).hold k = some hd' at hh
        show ∃ hd, s.hold k = some hd ∧ _ ∧ _ ∧ (_ → (s.setHealth k hd'.leader false).healthy k _ = true)
        have hmark := pathOrdinal_markets s (scopeOf k) hd'.leader
        unfold setHealth at hh ⊢
        generalize s.pathOrdinal (scopeOf k) hd'.leader = r at hh hmark
        obtain ⟨s₁, label⟩ := r
        cases label with
        | none =>
          exact ⟨hd', (hold_of_markets hmark k).symm.trans hh, rfl, ht,
            fun h => (healthy_of_markets hmark k _).trans h⟩
        | some label =>
          simp only [Bool.false_eq_true, if_false] at hh
          rw [hold_updateMarket] at hh
          obtain ⟨hd, -, hdeq⟩ := Option.map_eq_some_iff.mp hh
          by_cases hl : hd.leader = hd'.leader
          · rw [if_pos hl] at hdeq
            rw [← hdeq] at ht
            cases ht
          · rw [if_neg hl] at hdeq
            exact absurd (congrArg (·.leader) hdeq) hl
      · have hhealth : s.healthy k hd'.leader = true →
            (machine.step s (.setHealth k q b)).1.healthy k hd'.leader = true := by
          intro h
          refine healthy_step h _ fun heq => hreset ?_
          cases heq
          exact ⟨rfl, rfl⟩
        have hmark := pathOrdinal_markets s (scopeOf k) q
        change (s.setHealth k q b).hold k = some hd' at hh
        unfold setHealth at hh
        generalize s.pathOrdinal (scopeOf k) q = r at hh hmark
        obtain ⟨s₁, label⟩ := r
        have hold₁ : s₁.hold k = s.hold k := hold_of_markets hmark k
        cases label with
        | none => exact ⟨hd', hold₁.symm.trans hh, rfl, ht, hhealth⟩
        | some label =>
          simp only at hh
          split at hh
          · split at hh
            · rw [hold_updateMarket] at hh
              refine ⟨hd', hold₁.symm.trans ?_, rfl, ht, hhealth⟩
              rw [← hh]
              unfold hold
              cases s₁.markets.get k <;> rfl
            · exact ⟨hd', hold₁.symm.trans hh, rfl, ht, hhealth⟩
          · rw [hold_updateMarket] at hh
            obtain ⟨hd, hold, hdeq⟩ := Option.map_eq_some_iff.mp hh
            have hheld : s₁.hold k = some hd := by
              unfold StickyAuthority.hold
              cases hg : s₁.markets.get k with
              | none => rw [hg] at hold; cases hold
              | some m => rw [hg] at hold; exact hold
            refine ⟨hd, hold₁.symm.trans hheld, ?_, ?_, hhealth⟩
            · rw [← hdeq]
              split <;> rfl
            · split at hdeq
              · rw [← hdeq] at ht
                cases ht
              · rw [hdeq]
                exact ht
    | noteRebaselinePoint key q =>
      cases hm
      left
      have hold : s.hold k = some hd' := by
        rw [← hh]
        show _ = (s.noteRebaselinePoint k q).hold k
        cases hg : s.markets.get k with
        | none => simp [hold, noteRebaselinePoint, hg]
        | some m => simp [hold, noteRebaselinePoint, hg]
      exact ⟨hd', hold, rfl, ht, fun h => healthy_step h _ nofun⟩
    | dropHold key =>
      cases hm
      have hnone : (machine.step s (.dropHold k)).1.hold k = none := by
        show (s.dropHold k).hold k = none
        cases hg : s.markets.get k with
        | none => simp [hold, dropHold, hg]
        | some m => simp [hold, dropHold, hg]
      rw [hnone] at hh
      cases hh
    | forgetMarket key =>
      cases hm
      simp [machine, step, forgetMarket, hold] at hh
    | admitSynthesized _ _ => cases hm
    | transferScopeTo _ _ _ => cases hm
    | observeMatchedLead _ _ _ => cases hm
    | closeWindow _ _ => cases hm
    | setConfig _ => cases hm
  · left
    rcases fades_step (s := s) c hm with hf | hf
    · refine ⟨hd', ?_, rfl, ht, fun h => ?_⟩
      · rw [← hh]
        unfold hold
        rw [hf]
      · unfold healthy at h ⊢
        rw [hf]
        exact h
    · simp [hold, hf] at hh

/-- The paths that re-installed their book on a market since they were last reported unhealthy there. -/
def reinstalledAt (s : StickyAuthority) (k : BookKey) : Finset Transport :=
  (s.markets.get k).elim ∅ (·.reinstalled)

theorem reinstalledAt_of_get {m : MarketState} (h : s.markets.get k = some m) :
    s.reinstalledAt k = m.reinstalled := by
  unfold reinstalledAt
  rw [h]
  rfl

theorem reinstalledAt_of_markets (h : s'.markets = s.markets) (k : BookKey) :
    s'.reinstalledAt k = s.reinstalledAt k := by
  unfold reinstalledAt
  rw [h]

theorem reinstalledAt_updateMarket (s : StickyAuthority) (k : BookKey) {f : MarketState → MarketState}
    (hf : ∀ m, (f m).reinstalled = m.reinstalled) :
    (s.updateMarket k f).reinstalledAt k = s.reinstalledAt k := by
  rw [reinstalledAt_of_get (get_updateMarket s k f).1, hf]
  unfold reinstalledAt
  cases s.markets.get k <;> rfl

theorem reinstalledAt_refreshHold (s : StickyAuthority) (k : BookKey) (publisher : Transport)
    (now : Nat) : (s.refreshHold k publisher now).reinstalledAt k = s.reinstalledAt k := by
  have hstore : ∀ (s : StickyAuthority) stored next,
      (s.storeHold k stored next).reinstalledAt k = s.reinstalledAt k := by
    intro s stored next
    unfold storeHold
    split
    · refine reinstalledAt_updateMarket s k ?_
      exact fun _ => rfl
    · rfl
  unfold refreshHold
  split
  · rfl
  · simp only
    split
    · rfl
    · split
      · split
        · exact hstore _ _ _
        · exact hstore _ _ _
      · exact hstore _ _ _

theorem reinstalledAt_admitBatch (s : StickyAuthority) (k : BookKey) (publisher : Transport) (now : Nat) :
    (s.admitBatch k publisher now).1.reinstalledAt k = s.reinstalledAt k := by
  have hrefresh : ∀ v, ((s.noted k publisher now v).refreshHold k publisher now).reinstalledAt k =
      s.reinstalledAt k := fun v =>
    (reinstalledAt_refreshHold _ _ _ _).trans (reinstalledAt_of_markets (noted_markets s _ _ _ v) k)
  have ha := admitBatch_admission s k publisher now
  generalize s.admitBatch k publisher now = r at ha
  cases ha with
  | ineligible _ => exact reinstalledAt_of_markets (pathOrdinal_markets s _ _) k
  | first label hp hv f hf =>
    rw [reinstalledAt_updateMarket _ k hf.reinstalled]
    exact reinstalledAt_of_markets (pathOrdinal_markets s _ _) k
  | refused label hp v hv hs => exact hrefresh v
  | served label hp v hv hs f hf openedTick =>
    rw [reinstalledAt_updateMarket _ k hf.reinstalled]
    exact hrefresh v

/-- The scope has no label left and the path holds none: it is never eligible again. -/
structure Shut (s : StickyAuthority) (scope : ScopeKey) (p : Transport) : Prop where
  unlabelled : s.pathLabel scope p = none
  full : MAX_LABELLED_PATHS ≤ ((s.ordinals.get scope).getD ∅).size

theorem Shut.of_ordinals {scope : ScopeKey} {p : Transport} (h : Shut s scope p)
    (ho : s'.ordinals = s.ordinals) : Shut s' scope p := by
  refine ⟨?_, ho ▸ h.full⟩
  have := h.unlabelled
  unfold pathLabel at this ⊢
  rwa [ho]

theorem Shut.pathOrdinal {scope : ScopeKey} {p : Transport} (h : Shut s scope p) (scope' : ScopeKey)
    (q : Transport) : Shut (s.pathOrdinal scope' q).1 scope p := by
  obtain ⟨_, he, -⟩ | ⟨os, he, hos, hroom⟩ | ⟨he, -⟩ := pathOrdinal_cases s scope' q
  · rw [he]; exact h
  · have hne : scope ≠ scope' := by
      rintro rfl
      have := h.full
      rw [← hos] at this
      omega
    rw [he]
    refine ⟨?_, ?_⟩
    · have := h.unlabelled
      unfold pathLabel at this ⊢
      simp only
      rwa [FinMap.get_insert_of_ne _ _ hne]
    · simp only
      rw [FinMap.get_insert_of_ne _ _ hne]
      exact h.full
  · rw [he]; exact h

theorem Shut.step {scope : ScopeKey} {p : Transport} (h : Shut s scope p) (c : Call) :
    Shut (machine.step s c).1 scope p := by
  cases c with
  | admitBatch key publisher now =>
    have hasked : Shut (s.asked key publisher) scope p := (h.pathOrdinal (scopeOf key) publisher).of_ordinals rfl
    show Shut (s.admitBatch key publisher now).1 scope p
    have ha := admitBatch_admission s key publisher now
    generalize s.admitBatch key publisher now = r at ha
    cases ha with
    | ineligible _ => exact hasked
    | first label hp hv f hf => exact hasked.of_ordinals (updateMarket_scoped _ _ _).ordinals
    | refused label hp v hv hs => exact hasked.of_ordinals (refreshHold_scoped _ _ _ _).ordinals
    | served label hp v hv hs f hf openedTick =>
      exact hasked.of_ordinals ((refreshHold_scoped _ _ _ _).trans (updateMarket_scoped _ _ _)).ordinals
  | admitSynthesized key publisher => exact h.of_ordinals rfl
  | setHealth key publisher healthy =>
    exact (h.pathOrdinal _ publisher).of_ordinals (setHealth_scoped s key publisher healthy).ordinals
  | noteRebaselinePoint key publisher =>
    exact h.of_ordinals (noteRebaselinePoint_scoped s key publisher).ordinals
  | transferScopeTo scope' path atNs =>
    show Shut (s.transferScopeTo scope' path atNs) scope p
    unfold transferScopeTo
    split
    · exact h
    · exact h.of_ordinals rfl
  | observeMatchedLead scope' path leadNs =>
    obtain hs | ⟨label, v, samples, hlabel, hv, hs⟩ := observeMatchedLead_cases s scope' path leadNs
    · exact (h.pathOrdinal scope' path).of_ordinals hs.ordinals
    · exact (h.pathOrdinal scope' path).of_ordinals hs.ordinals
  | closeWindow iter nowNs => exact h.of_ordinals rfl
  | dropHold key => exact h.of_ordinals (dropHold_scoped s key).ordinals
  | forgetMarket key => exact h.of_ordinals rfl
  | setConfig cfg => exact h.of_ordinals rfl

theorem Shut.ineligible {scope : ScopeKey} {p : Transport} (h : Shut s scope p) :
    (s.pathOrdinal scope p).2 = none := by
  obtain ⟨_, -, hl⟩ | ⟨os, -, hos, hroom⟩ | ⟨he, -⟩ := pathOrdinal_cases s scope p
  · rw [h.unlabelled] at hl; cases hl
  · have := h.full
    rw [← hos] at this
    omega
  · rw [he]

/-- One step of the re-install marks: a mark is new with a clear-led batch, and gone with a report that
the path is unhealthy, unless the path is not eligible. -/
theorem reinstalledAt_step {p : Transport} (c : Call) (hp : p ∈ (machine.step s c).1.reinstalledAt k) :
    c = .noteRebaselinePoint k p ∨
      p ∈ s.reinstalledAt k ∧ (c = .setHealth k p false → Shut (machine.step s c).1 (scopeOf k) p) := by
  by_cases hm : c.market = some k
  · cases c with
    | admitBatch key publisher now =>
      cases hm
      refine .inr ⟨?_, fun he => by cases he⟩
      rw [← reinstalledAt_admitBatch s k publisher now]
      exact hp
    | setHealth key q b =>
      cases hm
      right
      have hmark := pathOrdinal_markets s (scopeOf k) q
      have hcases := pathOrdinal_cases s (scopeOf k) q
      change p ∈ (s.setHealth k q b).reinstalledAt k at hp
      show _ ∧ (_ → Shut (s.setHealth k q b) (scopeOf k) p)
      unfold setHealth at hp ⊢
      generalize s.pathOrdinal (scopeOf k) q = r at hp hmark hcases
      obtain ⟨s₁, label⟩ := r
      have hre : s₁.reinstalledAt k = s.reinstalledAt k := reinstalledAt_of_markets hmark k
      cases label with
      | none =>
        refine ⟨hre ▸ hp, ?_⟩
        rintro ⟨⟩
        obtain ⟨_, he, -⟩ | ⟨_, he, -⟩ | ⟨he, hnone, hfull⟩ := hcases
        · cases he
        · cases he
        · cases he
          exact ⟨hnone, hfull⟩
      | some label =>
        simp only at hp ⊢
        split at hp
        · rename_i hb
          refine ⟨?_, fun he => by cases he; cases hb⟩
          split at hp
          · have hkeep := reinstalledAt_updateMarket s₁ k
              (f := fun m => { m with unhealthy := m.unhealthy.erase q }) fun _ => rfl
            rwa [hkeep, hre] at hp
          · exact hre ▸ hp
        · rename_i hb
          rw [reinstalledAt_of_get (get_updateMarket s₁ k _).1] at hp
          obtain ⟨hne, hp⟩ := Finset.mem_erase.mp hp
          refine ⟨?_, fun he => by cases he; exact absurd rfl hne⟩
          rw [← hre]
          unfold reinstalledAt
          cases hg : s₁.markets.get k with
          | none => rw [hg] at hp; simp [MarketState.default] at hp
          | some m => rw [hg] at hp; exact hp
    | noteRebaselinePoint key q =>
      cases hm
      change p ∈ (s.noteRebaselinePoint k q).reinstalledAt k at hp
      cases hg : s.markets.get k with
      | none => simp [reinstalledAt, noteRebaselinePoint, hg] at hp
      | some m =>
        simp only [reinstalledAt, noteRebaselinePoint, hg, FinMap.get_insert_self, Option.elim_some,
          Finset.mem_insert] at hp
        rcases hp with rfl | hp
        · exact .inl rfl
        · exact .inr ⟨by rw [reinstalledAt_of_get hg]; exact hp, fun he => by cases he⟩
    | dropHold key =>
      cases hm
      change p ∈ (s.dropHold k).reinstalledAt k at hp
      refine .inr ⟨?_, fun he => by cases he⟩
      cases hg : s.markets.get k with
      | none => simp [reinstalledAt, dropHold, hg] at hp
      | some m =>
        rw [reinstalledAt_of_get hg]
        simpa [reinstalledAt, dropHold, hg] using hp
    | forgetMarket key =>
      cases hm
      simp [machine, step, forgetMarket, reinstalledAt] at hp
    | admitSynthesized _ _ => cases hm
    | transferScopeTo _ _ _ => cases hm
    | observeMatchedLead _ _ _ => cases hm
    | closeWindow _ _ => cases hm
    | setConfig _ => cases hm
  · refine .inr ⟨?_, fun he => absurd (by rw [he]; rfl) hm⟩
    rcases fades_step (s := s) c hm with hf | hf
    · unfold reinstalledAt at hp ⊢
      rwa [hf] at hp
    · simp [reinstalledAt, hf] at hp

/-- The clocks and the re-install marks of a state are true to its history. -/
structure Traced (cfg : AuthorityConfig) (hist : List Call) (s : StickyAuthority) : Prop where
  clock : ∀ k hd t, s.hold k = some hd → hd.leaderHealthySinceNs = some t →
    HealthySince cfg hist k hd.leader t
  marks : ∀ k p, p ∈ s.reinstalledAt k → ClearedSince hist k p ∨ Shut s (scopeOf k) p

theorem HealthySince.now {cfg : AuthorityConfig} {hist : List Call} {l : Transport} {t : Nat}
    (h : HealthySince cfg hist key l t) : (machine.exec (.new cfg) hist).healthy key l = true := by
  obtain ⟨before, p, after, rfl, hd⟩ := h
  exact hd _ List.prefix_rfl

theorem traced_run (cfg : AuthorityConfig) (hist : List Call) :
    Traced cfg hist (machine.exec (.new cfg) hist) := by
  induction hist using List.reverseRecOn with
  | nil => exact ⟨by simp [Machine.exec, new, hold], by simp [Machine.exec, new, reinstalledAt]⟩
  | append_singleton hist c ih =>
    have hexec : machine.exec (.new cfg) (hist ++ [c]) = (machine.step (machine.exec (.new cfg) hist) c).1 := by
      rw [Machine.exec_append]
      rfl
    have hlast : ∀ {k l}, (machine.step (machine.exec (.new cfg) hist) c).1.healthy k l = true →
        (machine.exec (.new cfg) (hist ++ [c])).healthy k l = true := by
      intro k l h
      rw [hexec]
      exact h
    refine ⟨fun k hd' t hh ht => ?_, fun k p hp => ?_⟩
    · rw [hexec] at hh
      rcases clock_step c hh ht with ⟨hd, hold, hl, hs, hkeep⟩ | ⟨p, rfl, hhealth⟩
      · have hsince := ih.clock k hd t hold hs
        rw [hl] at hsince
        exact hsince.snoc (hlast (hkeep hsince.now))
      · -- the batch that stamps the clock
        refine ⟨hist, p, [], rfl, fun d hd => ?_⟩
        have hprefix : d = [] ∨ d = [.admitBatch k p t] := by
          rcases List.prefix_cons_iff.mp hd with rfl | ⟨d', rfl, hd'⟩
          · exact .inl rfl
          · rw [List.prefix_nil] at hd'
            exact .inr (by rw [hd'])
        rcases hprefix with rfl | rfl
        · rw [List.append_nil]
          exact hhealth
        · exact hlast ((healthy_admitBatch _ k p t _).trans hhealth)
    · rw [hexec] at hp ⊢
      rcases reinstalledAt_step c hp with rfl | ⟨hmem, hreport⟩
      · exact .inl ⟨hist, [], rfl, by simp⟩
      · by_cases hc : c = .setHealth k p false
        · exact .inr (hreport hc)
        · exact (ih.marks k p hmem).imp (fun h => h.snoc hc) fun h => h.step c

/-- **No ping-pong on a held market.** Let `h` be let out on a market whose scope `l` leads: then `h`
holds the market over `l`.  After any further run in which `l` was not let out there, a call lets out a
path `p` other than `h` only if the hold lapsed on the way (`h` was reported unhealthy or found silent
past the timeout, the scope's leader changed, the hold was dropped or the market forgotten or evicted),
or `p` is `l`, healthy there in every state since a batch stamped `since`, with `since` at least
`REVERT_HOLD_NS` ago and a clear-led batch of `l` since it was last reported unhealthy, or at least
`REVERT_DEADLINE_NS` ago. -/
theorem held_market_does_not_ping_pong (cfg : AuthorityConfig) (before : List Call) (key : BookKey)
    (h l : Transport) (t : Nat)
    (hout : letOut (machine.step (machine.exec (.new cfg) before) (.admitBatch key h t)).2 = true)
    (hl : (machine.exec (.new cfg) (before ++ [.admitBatch key h t])).scopeLeader (scopeOf key) = some l)
    (hne : h ≠ l) :
    (∃ since, (machine.exec (.new cfg) (before ++ [.admitBatch key h t])).hold key =
      some ⟨h, l, since⟩) ∧
    ∀ (calls : List Call) (c : Call) (p : Transport),
      (∀ e ∈ machine.trace (machine.exec (.new cfg) (before ++ [.admitBatch key h t])) calls,
        e.1.Admits key l → letOut e.2 = false) →
      c.Admits key p → p ≠ h →
      letOut (machine.step
        (machine.exec (.new cfg) (before ++ .admitBatch key h t :: calls)) c).2 = true →
      Lapsed key h l t (machine.exec (.new cfg) (before ++ [.admitBatch key h t])) (calls ++ [c]) ∨
      p = l ∧ ∃ now since, c = .admitBatch key l now ∧
        HealthySince cfg (before ++ .admitBatch key h t :: calls) key l since ∧
        (since + REVERT_HOLD_NS ≤ now ∧ ClearedSince (before ++ .admitBatch key h t :: calls) key l ∨
          since + REVERT_DEADLINE_NS ≤ now) := by
  have hexec : machine.exec (.new cfg) (before ++ [.admitBatch key h t]) =
      ((machine.exec (.new cfg) before).admitBatch key h t).1 := by
    rw [Machine.exec_append]
    rfl
  have hlab₀ : Labelled (machine.exec (.new cfg) before) :=
    Machine.invariant_rule (P := Labelled) (fun _ c h => h.step c) before _ (labelled_new cfg)
  have hhold : ∃ since, (machine.exec (.new cfg) (before ++ [.admitBatch key h t])).hold key =
      some ⟨h, l, since⟩ := by
    rw [hexec] at hl ⊢
    exact override_holds hout hl hne
  refine ⟨hhold, fun calls c p hquiet hc hp houtc => ?_⟩
  have happ : machine.exec (.new cfg) (before ++ .admitBatch key h t :: calls) =
      machine.exec (machine.exec (.new cfg) (before ++ [.admitBatch key h t])) calls := by
    rw [← Machine.exec_append, List.append_assoc]
    rfl
  have htraced := traced_run cfg (before ++ .admitBatch key h t :: calls)
  rw [happ] at houtc htraced
  have hheld : Held key h l t (machine.exec (.new cfg) (before ++ [.admitBatch key h t])) := by
    refine ⟨hl, hhold, ?_, ?_⟩
    · rw [hexec] at hl ⊢
      rw [healthy_admitBatch]
      by_contra hu
      have hlead := (lastResort_of_admitBatch hout (Bool.eq_false_iff.mpr hu)).leads
      exact hne (Option.some.inj (hlead.symm.trans hl))
    · rw [hexec]
      exact lastSeen_emitted hout
  have hlab : Labelled (machine.exec (.new cfg) (before ++ [.admitBatch key h t])) := by
    rw [hexec]
    exact hlab₀.admitBatch key h t
  generalize machine.exec (.new cfg) (before ++ [.admitBatch key h t]) = s₀ at *
  by_cases hlapse : Lapsed key h l t s₀ (calls ++ [c])
  · exact .inl hlapse
  have hbefore : ¬ Lapsed key h l t s₀ calls := by
    rintro ⟨b, d, a, rfl, hd⟩
    exact hlapse ⟨b, d, a ++ [c], by simp, hd⟩
  obtain ⟨hheld', hlab'⟩ := held_run calls s₀ t hlab hheld hquiet hbefore
  have hnow : ¬ Lapses key h l (lastSent (scopeOf key) h t calls) (machine.exec s₀ calls) c :=
    fun hd => hlapse ⟨calls, c, [], rfl, hd⟩
  rcases hheld'.next hlab' c hnow with ⟨-, honly⟩ | ⟨now, rfl, -, hrec⟩
  · exact absurd (honly p hc houtc) hp
  · cases hc with
    | batch _ =>
      obtain ⟨since, hclock, hrun⟩ := hrec.clock
      refine .inr ⟨rfl, now, since, rfl, htraced.clock key _ since hclock rfl, ?_⟩
      rcases hrun with ⟨⟨m, hm, hmem⟩, hlong⟩ | hlong
      · left
        refine ⟨hlong, (htraced.marks key l ?_).resolve_right fun hshut => ?_⟩
        · rw [reinstalledAt_of_get hm]
          exact hmem
        · -- a path that was let out holds a label
          have ha := admitBatch_admission (machine.exec s₀ calls) key l now
          change letOut (some ((machine.exec s₀ calls).admitBatch key l now).2) = true at houtc
          generalize (machine.exec s₀ calls).admitBatch key l now = r at houtc ha
          cases ha with
          | ineligible _ => cases houtc
          | first label hlabel _ _ _ => rw [hshut.ineligible] at hlabel; cases hlabel
          | refused _ _ _ _ _ => cases houtc
          | served label hlabel _ _ _ _ _ _ => rw [hshut.ineligible] at hlabel; cases hlabel
      · exact .inr hlong

/-- The leader of a universe loses its book on a market. -/
def lostCalls : List Call :=
  [.admitBatch (marketOf "a") (.edge 1) 0, .setHealth (marketOf "a") (.edge 1) false]

/-- It recovers and re-installs while another path keeps the market, and speaks on another one. -/
def recoveryCalls : List Call :=
  [.setHealth (marketOf "a") (.edge 1) true, .noteRebaselinePoint (marketOf "a") (.edge 1),
    .admitBatch (marketOf "a") (.edge 2) 2,
    .admitBatch { marketOf "a" with instrumentId := 8 } (.edge 1) 14000000000,
    .admitBatch (marketOf "a") (.edge 2) 15000000000]

theorem held_market_does_not_ping_pong_recoveryCalls :
    Lapsed (marketOf "a") (.edge 2) (.edge 1) 1
        (machine.exec (.new .DEFAULT) (lostCalls ++ [.admitBatch (marketOf "a") (.edge 2) 1]))
        (recoveryCalls ++ [.admitBatch (marketOf "a") (.edge 1) 15000000002]) ∨
      Transport.edge 1 = .edge 1 ∧ ∃ now since,
        Call.admitBatch (marketOf "a") (.edge 1) 15000000002 = .admitBatch (marketOf "a") (.edge 1) now ∧
        HealthySince .DEFAULT (lostCalls ++ .admitBatch (marketOf "a") (.edge 2) 1 :: recoveryCalls)
          (marketOf "a") (.edge 1) since ∧
        (since + REVERT_HOLD_NS ≤ now ∧
            ClearedSince (lostCalls ++ .admitBatch (marketOf "a") (.edge 2) 1 :: recoveryCalls)
              (marketOf "a") (.edge 1) ∨
          since + REVERT_DEADLINE_NS ≤ now) := by
  refine (held_market_does_not_ping_pong .DEFAULT lostCalls (marketOf "a") (.edge 2) (.edge 1) 1
    (by decide) (by decide) (by decide)).2 recoveryCalls _ (.edge 1) ?_ (.batch _) (by decide) (by decide)
  -- no call of the recovery offers a batch of the leader
  intro e he ha
  have hmem := List.mem_map_of_mem (f := Prod.fst) he
  rw [Machine.map_fst_trace] at hmem
  generalize e.1 = c at ha hmem
  cases ha with
  | batch now => simp [recoveryCalls, marketOf] at hmem
  | synthesized => simp [recoveryCalls] at hmem

end EdgeConnect.Authority.StickyAuthority
