import EdgeConnect.Ingest.Authority

/-!
# Who leads a trade tape (`Arbiter::tape_path_admits` in `src/ingest/arbiter.rs`)

Executable model of the gate that lets one path of a single-path universe print a tape: a tracked path displaces an
untracked one, the elected path takes over once per election, and any path takes over from a silent one.

* `tapePathAdmits` — one print, over the map of all tapes;
* `Steady` — a run of prints under one election, from tracked paths and a clock that does not go back;
* `tape_does_not_sawtooth` — in such a run at most one change of path is due to the election, and every other one comes
  after a silence.
-/

set_option autoImplicit false

namespace EdgeConnect.Arbiter

open Authority

/-! ## The model -/

/-- How long a path may be silent before another takes its tape over. -/
def NO_ID_TAPE_HANDOVER_NS : Nat := 5000000000

/-- Who serves one tape. -/
structure TapeLead where
  path : Transport
  lastNs : Nat
  honoredElection : Option Transport
  deriving DecidableEq, Repr

/-- A tape: its universe, and its channel where the channels have tapes of their own. -/
abbrev TapeKey := ScopeKey × Option Nat

/-- One print: what the gate reads of the trade, its path and its row, and the authority as it stands. -/
structure Print where
  sourceId : Nat
  venue : String
  channel : Nat
  recvTsNs : Nat
  publisher : Transport
  category : String
  perChannel : Bool
  books : StickyAuthority

namespace Print

def scope (t : Print) : ScopeKey := ⟨.new t.sourceId t.venue, t.category⟩

def key (t : Print) : TapeKey := (t.scope, if t.perChannel then some t.channel else none)

end Print

def tapePathAdmits (tapeLeader : FinMap TapeKey TapeLead) (t : Print) : FinMap TapeKey TapeLead × Bool :=
  let elected := t.books.scopeLeader t.scope
  let tracked := t.books.tracksPath t.scope t.publisher
  match tapeLeader.get t.key with
  | none => (tapeLeader.insert t.key ⟨t.publisher, t.recvTsNs, none⟩, true)
  | some lead =>
    if lead.path ≠ t.publisher then
      let displacesUncorroborated := tracked && !t.books.tracksPath t.scope lead.path
      let newElection := decide (elected = some t.publisher) && decide (lead.honoredElection ≠ elected)
      let silent := decide (t.recvTsNs - lead.lastNs > NO_ID_TAPE_HANDOVER_NS)
      if displacesUncorroborated || newElection || silent then
        (tapeLeader.insert t.key ⟨t.publisher, t.recvTsNs, elected⟩, true)
      else (tapeLeader, false)
    else (tapeLeader.insert t.key { lead with lastNs := t.recvTsNs }, true)

/-- The tapes as a machine over the prints. -/
def tapeMachine : Machine (FinMap TapeKey TapeLead) Print Bool := ⟨tapePathAdmits⟩

/-! ## One print -/

variable {m : FinMap TapeKey TapeLead} {t : Print} {key : TapeKey} {elected : Option Transport} {lead : TapeLead}

/-- A print moves no tape but its own. -/
theorem tape_others (hkey : t.key ≠ key) : (tapePathAdmits m t).1.get key = m.get key := by
  unfold tapePathAdmits
  simp only
  split
  · exact FinMap.get_insert_of_ne _ _ hkey.symm
  · split
    · split
      · exact FinMap.get_insert_of_ne _ _ hkey.symm
      · rfl
    · exact FinMap.get_insert_of_ne _ _ hkey.symm

/-- The print is by the path of an election that the tape has not deferred to yet. -/
def ByElection (m : FinMap TapeKey TapeLead) (t : Print) : Prop :=
  ∃ lead, m.get t.key = some lead ∧ lead.path ≠ t.publisher ∧
    t.books.scopeLeader t.scope = some t.publisher ∧ lead.honoredElection ≠ t.books.scopeLeader t.scope

/-- What a print does to its own tape, its path and the leading one tracked. -/
inductive Offered (m : FinMap TapeKey TapeLead) (t : Print) (elected : Option Transport) : Prop where
  /-- the first print leads -/
  | first (before : m.get t.key = none) (admitted : (tapePathAdmits m t).2 = true)
      (after : (tapePathAdmits m t).1.get t.key = some ⟨t.publisher, t.recvTsNs, none⟩)
  /-- the leading path prints again -/
  | again (lead : TapeLead) (before : m.get t.key = some lead) (path : lead.path = t.publisher)
      (admitted : (tapePathAdmits m t).2 = true)
      (after : (tapePathAdmits m t).1.get t.key = some { lead with lastNs := t.recvTsNs })
  /-- another path takes over -/
  | taken (lead : TapeLead) (before : m.get t.key = some lead) (path : lead.path ≠ t.publisher)
      (why : ByElection m t ∨ t.recvTsNs - lead.lastNs > NO_ID_TAPE_HANDOVER_NS)
      (admitted : (tapePathAdmits m t).2 = true)
      (after : (tapePathAdmits m t).1.get t.key = some ⟨t.publisher, t.recvTsNs, elected⟩)
  /-- another path is refused -/
  | refused (lead : TapeLead) (before : m.get t.key = some lead) (path : lead.path ≠ t.publisher)
      (why : ¬ ByElection m t) (admitted : (tapePathAdmits m t).2 = false)
      (after : (tapePathAdmits m t).1.get t.key = some lead)

theorem offered (helected : t.books.scopeLeader t.scope = elected)
    (htracked : ∀ lead, m.get t.key = some lead → t.books.tracksPath t.scope lead.path = true) : Offered m t elected := by
  cases hget : m.get t.key with
  | none =>
    have heq : tapePathAdmits m t = (m.insert t.key ⟨t.publisher, t.recvTsNs, none⟩, true) := by
      unfold tapePathAdmits
      rw [hget]
    exact .first hget (by rw [heq]) (by rw [heq]; exact FinMap.get_insert_self _ _ _)
  | some lead =>
    by_cases hpath : lead.path = t.publisher
    · have heq : tapePathAdmits m t = (m.insert t.key { lead with lastNs := t.recvTsNs }, true) := by
        unfold tapePathAdmits
        rw [hget]
        simp only
        rw [if_neg (not_not.mpr hpath)]
      exact .again lead hget hpath (by rw [heq]) (by rw [heq]; exact FinMap.get_insert_self _ _ _)
    · have hdisplaces : (!t.books.tracksPath t.scope lead.path) = false := by rw [htracked lead hget]; rfl
      have helection : ByElection m t ↔
          elected = some t.publisher ∧ lead.honoredElection ≠ elected := by
        unfold ByElection
        rw [helected, hget]
        constructor
        · rintro ⟨l, hl, -, hnew⟩
          cases hl
          exact hnew
        · exact fun hnew => ⟨lead, rfl, hpath, hnew⟩
      have heq : tapePathAdmits m t = if (decide (elected = some t.publisher) && decide (lead.honoredElection ≠ elected) ||
          decide (t.recvTsNs - lead.lastNs > NO_ID_TAPE_HANDOVER_NS)) = true then
            (m.insert t.key ⟨t.publisher, t.recvTsNs, elected⟩, true) else (m, false) := by
        unfold tapePathAdmits
        rw [hget, helected]
        simp only
        rw [if_pos hpath, hdisplaces, Bool.and_false, Bool.false_or]
      by_cases hwhy : ByElection m t ∨ t.recvTsNs - lead.lastNs > NO_ID_TAPE_HANDOVER_NS
      · rw [if_pos (by rw [helection] at hwhy; simpa using hwhy)] at heq
        exact .taken lead hget hpath hwhy (by rw [heq]) (by rw [heq]; exact FinMap.get_insert_self _ _ _)
      · rw [if_neg (by rw [helection] at hwhy; simpa using hwhy)] at heq
        exact .refused lead hget hpath (fun h => hwhy (.inl h)) (by rw [heq]) (by rw [heq]; exact hget)

/-! ## Runs of prints -/

/-- The path leads the tape at first, or is the path of a print of it. -/
def Printing (m₀ : FinMap TapeKey TapeLead) (key : TapeKey) (calls : List Print) (p : Transport) : Prop :=
  (∃ lead, m₀.get key = some lead ∧ lead.path = p) ∨ ∃ t ∈ calls, t.key = key ∧ t.publisher = p

/-- The prints of one tape under one election, from tracked paths and a clock that does not go back. -/
structure Steady (m₀ : FinMap TapeKey TapeLead) (key : TapeKey) (elected : Option Transport) (calls : List Print) :
    Prop where
  elected : ∀ t ∈ calls, t.key = key → t.books.scopeLeader t.scope = elected
  tracked : ∀ t ∈ calls, t.key = key → ∀ p, Printing m₀ key calls p → t.books.tracksPath t.scope p = true
  forward : (calls.filter fun t => t.key = key).Pairwise fun t t' => t.recvTsNs ≤ t'.recvTsNs

variable {m₀ : FinMap TapeKey TapeLead} {calls u v : List Print}

theorem exec_snoc (u : List Print) (t : Print) :
    tapeMachine.exec m₀ (u ++ [t]) = (tapePathAdmits (tapeMachine.exec m₀ u) t).1 := by
  rw [Machine.exec_append]
  rfl

theorem trace_snoc (u : List Print) (t : Print) : tapeMachine.trace m₀ (u ++ [t]) =
    tapeMachine.trace m₀ u ++ [(t, (tapePathAdmits (tapeMachine.exec m₀ u) t).2)] := by
  rw [Machine.trace_append]
  rfl

/-- What is known of the leading path after the prints `u`. -/
structure Leads (m₀ : FinMap TapeKey TapeLead) (key : TapeKey) (calls u : List Print) : Prop where
  path : ∀ lead, (tapeMachine.exec m₀ u).get key = some lead → Printing m₀ key calls lead.path
  /-- no print was admitted after its last one -/
  last : ∀ lead, (tapeMachine.exec m₀ u).get key = some lead →
    ∀ e ∈ tapeMachine.trace m₀ u, e.1.key = key → e.2 = true → e.1.recvTsNs ≤ lead.lastNs

theorem Leads.offered (h : Leads m₀ key calls u) (hsteady : Steady m₀ key elected calls) (hcalls : calls = u ++ t :: v)
    (hkey : t.key = key) : Offered (tapeMachine.exec m₀ u) t elected := by
  have hmem : t ∈ calls := by rw [hcalls]; simp
  refine Arbiter.offered (hsteady.elected t hmem hkey) fun lead hlead => ?_
  exact hsteady.tracked t hmem hkey _ (h.path lead (hkey ▸ hlead))

theorem Leads.step (h : Leads m₀ key calls u) (hsteady : Steady m₀ key elected calls) (hcalls : calls = u ++ t :: v) :
    Leads m₀ key calls (u ++ [t]) := by
  by_cases hkey : t.key = key
  · have hmem : t ∈ calls := by rw [hcalls]; simp
    have hprints : Printing m₀ key calls t.publisher := .inr ⟨t, hmem, hkey, rfl⟩
    -- no earlier print is younger than this one
    have hpast : ∀ e ∈ tapeMachine.trace m₀ u, e.1.key = key → e.1.recvTsNs ≤ t.recvTsNs := by
      intro e he hek
      have hforward := hsteady.forward
      rw [hcalls, List.filter_append, List.pairwise_append] at hforward
      have hu : e.1 ∈ u := by
        rw [← Machine.map_fst_trace tapeMachine u m₀]
        exact List.mem_map_of_mem he
      exact hforward.2.2 e.1 (List.mem_filter.mpr ⟨hu, by simpa using hek⟩) t
        (List.mem_filter.mpr ⟨List.mem_cons_self, by simpa using hkey⟩)
    have hlater : ∀ lead : TapeLead, lead.lastNs = t.recvTsNs → ∀ e ∈ tapeMachine.trace m₀ (u ++ [t]),
        e.1.key = key → e.2 = true → e.1.recvTsNs ≤ lead.lastNs := by
      intro lead hlast e he hek _
      rw [trace_snoc, List.mem_append, List.mem_singleton] at he
      rcases he with he | rfl
      · exact hlast ▸ hpast e he hek
      · exact Nat.le_of_eq hlast.symm
    have hafter : ∀ lead, (tapePathAdmits (tapeMachine.exec m₀ u) t).1.get t.key = some lead →
        (tapeMachine.exec m₀ (u ++ [t])).get key = some lead := by
      intro lead hlead
      rw [exec_snoc, ← hkey]
      exact hlead
    rcases h.offered hsteady hcalls hkey with ⟨-, -, after⟩ | ⟨lead, before, path, -, after⟩ | ⟨lead, -, -, -, -, after⟩ |
      ⟨lead, before, path, -, refused, after⟩
    · have hget := hafter _ after
      refine ⟨fun l hl => ?_, fun l hl => ?_⟩ <;> rw [hget] at hl <;> cases hl
      · exact hprints
      · exact hlater _ rfl
    · have hget := hafter _ after
      refine ⟨fun l hl => ?_, fun l hl => ?_⟩ <;> rw [hget] at hl <;> cases hl
      · exact h.path lead (hkey ▸ before)
      · exact hlater _ rfl
    · have hget := hafter _ after
      refine ⟨fun l hl => ?_, fun l hl => ?_⟩ <;> rw [hget] at hl <;> cases hl
      · exact hprints
      · exact hlater _ rfl
    · have hget := hafter _ after
      refine ⟨fun l hl => ?_, fun l hl => ?_⟩ <;> rw [hget] at hl <;> cases hl
      · exact h.path lead (hkey ▸ before)
      · intro e he hek hadmitted
        rw [trace_snoc, List.mem_append, List.mem_singleton] at he
        rcases he with he | rfl
        · exact h.last lead (hkey ▸ before) e he hek hadmitted
        · rw [refused] at hadmitted
          cases hadmitted
  · have hget : (tapeMachine.exec m₀ (u ++ [t])).get key = (tapeMachine.exec m₀ u).get key := by
      rw [exec_snoc]
      exact tape_others hkey
    refine ⟨fun lead hlead => h.path lead (hget ▸ hlead), fun lead hlead e he hek hadmitted => ?_⟩
    rw [trace_snoc, List.mem_append, List.mem_singleton] at he
    rcases he with he | rfl
    · exact h.last lead (hget ▸ hlead) e he hek hadmitted
    · exact absurd hek hkey

theorem leads_run (hsteady : Steady m₀ key elected calls) : ∀ u v, calls = u ++ v → Leads m₀ key calls u := by
  intro u
  induction u using List.reverseRecOn with
  | nil => exact fun _ _ => ⟨fun lead hlead => .inl ⟨lead, hlead, rfl⟩, fun _ _ _ he => by cases he⟩
  | append_singleton u t ih =>
    intro v hcalls
    have hsplit : calls = u ++ t :: v := by rw [hcalls, List.append_assoc]; rfl
    exact (ih (t :: v) hsplit).step hsteady hsplit

/-- The election in force has been deferred to. -/
def Spent (m : FinMap TapeKey TapeLead) (key : TapeKey) (elected : Option Transport) : Prop :=
  ∃ lead, m.get key = some lead ∧ lead.honoredElection = elected

/-- An election once deferred to stays so. -/
theorem spent_run (hsteady : Steady m₀ key elected calls) : ∀ v u w, calls = u ++ v ++ w →
    Spent (tapeMachine.exec m₀ u) key elected → Spent (tapeMachine.exec m₀ (u ++ v)) key elected
  | [], u, _, _, h => by rw [List.append_nil]; exact h
  | t :: v, u, w, hcalls, h => by
    have hsplit : calls = u ++ t :: (v ++ w) := by rw [hcalls]; simp
    have hnext : Spent (tapeMachine.exec m₀ (u ++ [t])) key elected := by
      rw [exec_snoc]
      obtain ⟨lead, hget, hspent⟩ := h
      by_cases hkey : t.key = key
      · subst hkey
        rcases (leads_run hsteady u _ hsplit).offered hsteady hsplit rfl with ⟨before, -, -⟩ | ⟨l, before, -, -, after⟩ |
          ⟨l, -, -, -, -, after⟩ | ⟨l, before, -, -, -, after⟩
        · rw [hget] at before
          cases before
        · obtain rfl : lead = l := Option.some.inj (hget.symm.trans before)
          exact ⟨_, after, hspent⟩
        · exact ⟨_, after, rfl⟩
        · obtain rfl : lead = l := Option.some.inj (hget.symm.trans before)
          exact ⟨_, after, hspent⟩
      · exact ⟨lead, (tape_others hkey).trans hget, hspent⟩
    have hrest := spent_run hsteady v (u ++ [t]) w (by rw [hcalls]; simp) hnext
    rwa [List.append_assoc] at hrest

/-- The path that leads a tape. -/
def leadingPath (m : FinMap TapeKey TapeLead) (key : TapeKey) : Option Transport := (m.get key).map (·.path)

/-- A print is admitted exactly when its path leads afterwards. -/
theorem admitted_iff (hoffered : Offered m t elected) :
    (tapePathAdmits m t).2 = true ↔ leadingPath (tapePathAdmits m t).1 t.key = some t.publisher := by
  unfold leadingPath
  rcases hoffered with ⟨-, admitted, after⟩ | ⟨lead, -, path, admitted, after⟩ | ⟨lead, -, -, -, admitted, after⟩ |
    ⟨lead, -, path, -, admitted, after⟩ <;> rw [admitted, after]
  · exact ⟨fun _ => rfl, fun _ => rfl⟩
  · exact ⟨fun _ => congrArg some path, fun _ => rfl⟩
  · exact ⟨fun _ => rfl, fun _ => rfl⟩
  · exact ⟨nofun, fun h => absurd (Option.some.inj h) path⟩

/-- Within the handover time of its last print a path keeps the tape, but for the election. -/
theorem leads_until (hsteady : Steady m₀ key elected calls) {p : Transport} {since : Nat} :
    ∀ v u w, calls = u ++ v ++ w →
    (∃ lead, (tapeMachine.exec m₀ u).get key = some lead ∧ lead.path = p ∧ since ≤ lead.lastNs) →
    (∀ t ∈ v, t.key = key → since ≤ t.recvTsNs ∧ t.recvTsNs - since ≤ NO_ID_TAPE_HANDOVER_NS) →
    (∀ x t y, v = x ++ t :: y → t.key = key → ¬ ByElection (tapeMachine.exec m₀ (u ++ x)) t) →
    leadingPath (tapeMachine.exec m₀ (u ++ v)) key = some p
  | [], u, _, _, ⟨lead, hget, hpath, _⟩, _, _ => by
    rw [List.append_nil]
    unfold leadingPath
    rw [hget]
    exact congrArg some hpath
  | t :: v, u, w, hcalls, ⟨lead, hget, hpath, hsince⟩, htimes, hnone => by
    have hsplit : calls = u ++ t :: (v ++ w) := by rw [hcalls]; simp
    have hnext : ∃ lead, (tapeMachine.exec m₀ (u ++ [t])).get key = some lead ∧ lead.path = p ∧ since ≤ lead.lastNs := by
      rw [exec_snoc]
      by_cases hkey : t.key = key
      · obtain ⟨hfrom, hto⟩ := htimes t List.mem_cons_self hkey
        have helection := hnone [] t v rfl hkey
        rw [List.append_nil] at helection
        subst hkey
        rcases (leads_run hsteady u _ hsplit).offered hsteady hsplit rfl with ⟨before, -, -⟩ | ⟨l, before, -, -, after⟩ |
          ⟨l, before, -, why, -, after⟩ | ⟨l, before, -, -, -, after⟩ <;> rw [hget] at before <;> cases before
        · exact ⟨_, after, hpath, hfrom⟩
        · rcases why with why | why
          · exact absurd why helection
          · omega
        · exact ⟨_, after, hpath, hsince⟩
      · exact ⟨lead, (tape_others hkey).trans hget, hpath, hsince⟩
    have hrest := leads_until hsteady v (u ++ [t]) w (by rw [hcalls]; simp) hnext
      (fun t' ht' => htimes t' (List.mem_cons_of_mem _ ht'))
      (fun x t' y hv => by
        rw [List.append_assoc]
        exact hnone (t :: x) t' y (by rw [hv]; rfl))
    rwa [List.append_assoc] at hrest

/-- **The tape does not sawtooth.**  In the prints of one tape under one election, from tracked paths: the election moves
the tape at most once; every other move comes when the last admitted print is past the handover time; a print is admitted
exactly when its path leads after it; so prints of two paths within that time of each other have that one move between
them. -/
theorem tape_does_not_sawtooth (m₀ : FinMap TapeKey TapeLead) (key : TapeKey) (elected : Option Transport)
    (calls : List Print) (hsteady : Steady m₀ key elected calls) :
    (∀ u t v t' w, calls = u ++ t :: (v ++ t' :: w) → t.key = key → t'.key = key →
        ByElection (tapeMachine.exec m₀ u) t → ¬ ByElection (tapeMachine.exec m₀ (u ++ t :: v)) t') ∧
      (∀ u t v lead, calls = u ++ t :: v → t.key = key → (tapeMachine.exec m₀ u).get key = some lead →
        leadingPath (tapeMachine.exec m₀ (u ++ [t])) key ≠ some lead.path → ByElection (tapeMachine.exec m₀ u) t ∨
          t.recvTsNs - lead.lastNs > NO_ID_TAPE_HANDOVER_NS ∧
            ∀ e ∈ tapeMachine.trace m₀ u, e.1.key = key → e.2 = true → e.1.recvTsNs ≤ lead.lastNs) ∧
      (∀ u t v, calls = u ++ t :: v → t.key = key → ((tapePathAdmits (tapeMachine.exec m₀ u) t).2 = true ↔
        leadingPath (tapeMachine.exec m₀ (u ++ [t])) key = some t.publisher)) ∧
      ∀ u t v t' w, calls = u ++ t :: (v ++ t' :: w) → t.key = key → t'.key = key →
        (tapePathAdmits (tapeMachine.exec m₀ u) t).2 = true →
        (tapePathAdmits (tapeMachine.exec m₀ (u ++ t :: v)) t').2 = true → t.publisher ≠ t'.publisher →
        t'.recvTsNs - t.recvTsNs ≤ NO_ID_TAPE_HANDOVER_NS →
        ∃ x d y, v ++ [t'] = x ++ d :: y ∧ d.key = key ∧ ByElection (tapeMachine.exec m₀ (u ++ t :: x)) d := by
  have hoffered : ∀ u t v, calls = u ++ t :: v → t.key = key → Offered (tapeMachine.exec m₀ u) t elected :=
    fun u t v hcalls hkey => (leads_run hsteady u _ hcalls).offered hsteady hcalls hkey
  refine ⟨?_, ?_, ?_, ?_⟩
  · rintro u t v t' w hcalls hkey hkey' ⟨l, hget, hpath, hnew⟩ ⟨l', hget', -, -, hnew'⟩
    -- the move spends the election, so no later print is by a new one
    have hspent : Spent (tapeMachine.exec m₀ (u ++ [t])) key elected := by
      rw [exec_snoc]
      subst hkey
      rcases hoffered u t _ hcalls rfl with ⟨before, -, -⟩ | ⟨_, before, path, -, -⟩ | ⟨_, -, -, -, -, after⟩ |
        ⟨_, -, -, why, -, -⟩
      · rw [hget] at before
        cases before
      · rw [hget] at before
        cases before
        exact absurd path hpath
      · exact ⟨_, after, rfl⟩
      · exact absurd ⟨l, hget, hpath, hnew⟩ why
    have hspent' := spent_run hsteady v (u ++ [t]) (t' :: w) (by rw [hcalls]; simp) hspent
    rw [List.append_assoc] at hspent'
    obtain ⟨l'', hget'', hhonored⟩ := hspent'
    have hmem : t' ∈ calls := by rw [hcalls]; simp
    obtain rfl : l' = l'' := Option.some.inj ((hkey' ▸ hget').symm.trans hget'')
    exact hnew' (hhonored.trans (hsteady.elected t' hmem hkey').symm)
  · intro u t v lead hcalls hkey hget hmoved
    have hlast := (leads_run hsteady u _ hcalls).last lead hget
    rw [exec_snoc] at hmoved
    unfold leadingPath at hmoved
    subst hkey
    rcases hoffered u t v hcalls rfl with ⟨before, -, -⟩ | ⟨_, before, -, -, after⟩ | ⟨_, before, -, why, -, -⟩ |
      ⟨_, before, -, -, -, after⟩ <;> rw [hget] at before <;> cases before
    · exact absurd (by rw [after]; rfl) hmoved
    · exact why.imp_right fun hsilent => ⟨hsilent, hlast⟩
    · exact absurd (by rw [after]; rfl) hmoved
  · intro u t v hcalls hkey
    rw [exec_snoc, ← hkey]
    exact admitted_iff (hoffered u t v hcalls hkey)
  · intro u t v t' w hcalls hkey hkey' hadmitted hadmitted' hne hclose
    by_contra hnone
    push Not at hnone
    have hsplit : calls = (u ++ t :: v) ++ t' :: w := by rw [hcalls]; simp
    have hlead : ∃ lead, (tapeMachine.exec m₀ (u ++ [t])).get key = some lead ∧ lead.path = t.publisher ∧
        t.recvTsNs ≤ lead.lastNs := by
      rw [exec_snoc]
      subst hkey
      rcases hoffered u t _ hcalls rfl with ⟨-, -, after⟩ | ⟨_, -, path, -, after⟩ | ⟨_, -, -, -, -, after⟩ |
        ⟨_, -, -, -, refused, -⟩
      · exact ⟨_, after, rfl, Nat.le_refl _⟩
      · exact ⟨_, after, path, Nat.le_refl _⟩
      · exact ⟨_, after, rfl, Nat.le_refl _⟩
      · rw [refused] at hadmitted
        cases hadmitted
    -- the prints between the two are between them in time
    have htimes : ∀ d ∈ v ++ [t'], d.key = key → t.recvTsNs ≤ d.recvTsNs ∧
        d.recvTsNs - t.recvTsNs ≤ NO_ID_TAPE_HANDOVER_NS := by
      intro d hd hdk
      have hforward := hsteady.forward
      rw [hcalls, List.filter_append, List.pairwise_append, List.filter_cons_of_pos (by simpa using hkey),
        List.pairwise_cons] at hforward
      have hfrom := hforward.2.1.1
      have hto := hforward.2.1.2
      rw [List.filter_append, List.pairwise_append] at hto
      have hle : d.recvTsNs ≤ t'.recvTsNs := by
        rcases List.mem_append.mp hd with hd | hd
        · exact hto.2.2 d (List.mem_filter.mpr ⟨hd, by simpa using hdk⟩) t'
            (List.mem_filter.mpr ⟨List.mem_cons_self, by simpa using hkey'⟩)
        · rw [List.mem_singleton.mp hd]
      refine ⟨hfrom d (List.mem_filter.mpr ⟨?_, by simpa using hdk⟩), by omega⟩
      rcases List.mem_append.mp hd with hd | hd
      · exact List.mem_append_left _ hd
      · rw [List.mem_singleton.mp hd]
        simp
    have hkept := leads_until hsteady (v ++ [t']) (u ++ [t]) w (by rw [hcalls]; simp) hlead htimes
      (fun x d y hv hdk helection => hnone x d y hv hdk (by rwa [List.append_assoc] at helection))
    have hmine := (admitted_iff (hoffered (u ++ t :: v) t' w hsplit hkey')).mp hadmitted'
    rw [← exec_snoc, hkey'] at hmine
    have heq : u ++ [t] ++ (v ++ [t']) = u ++ t :: v ++ [t'] := by simp
    rw [heq, hmine] at hkept
    exact hne (Option.some.inj hkept).symm

/-- An authority that elected one path and tracks another. -/
def twoTracked : StickyAuthority :=
  (((StickyAuthority.new .DEFAULT).admitBatch ⟨.new 1 "KALSHI", "sports", 0, 7⟩ (.edge 1) 1).1.admitBatch
    ⟨.new 1 "KALSHI", "sports", 0, 7⟩ (.edge 2) 2).1

def printOf (path recvTsNs : Nat) : Print := ⟨1, "KALSHI", 0, recvTsNs, .edge path, "sports", false, twoTracked⟩

/-- The elected path takes the tape once, and is refused after the other path's handover. -/
theorem tape_does_not_sawtooth_twoTracked :
    ByElection (tapeMachine.exec ∅ [printOf 2 10]) (printOf 1 20) ∧
      ¬ ByElection (tapeMachine.exec ∅ [printOf 2 10, printOf 1 20, printOf 2 6000000000]) (printOf 1 6000000001) := by
  have hsteady : Steady ∅ (printOf 2 10).key (some (.edge 1))
      [printOf 2 10, printOf 1 20, printOf 2 6000000000, printOf 1 6000000001] := by
    refine ⟨by decide +kernel, fun t ht _ p hp => ?_, by decide +kernel⟩
    have hall : ∀ t ∈ [printOf 2 10, printOf 1 20, printOf 2 6000000000, printOf 1 6000000001],
        ∀ t' ∈ [printOf 2 10, printOf 1 20, printOf 2 6000000000, printOf 1 6000000001],
          t.books.tracksPath t.scope t'.publisher = true := by decide +kernel
    rcases hp with ⟨_, hnone, -⟩ | ⟨t', ht', -, rfl⟩
    · cases hnone
    · exact hall t ht t' ht'
  have helection : ByElection (tapeMachine.exec ∅ [printOf 2 10]) (printOf 1 20) :=
    ⟨⟨.edge 2, 10, none⟩, by decide +kernel⟩
  exact ⟨helection, (tape_does_not_sawtooth ∅ _ _ _ hsteady).1 [printOf 2 10] (printOf 1 20) [printOf 2 6000000000]
    (printOf 1 6000000001) [] rfl (by decide +kernel) (by decide +kernel) helection⟩

end EdgeConnect.Arbiter
