import EdgeConnect.Ingest.ArbiterView
import EdgeConnect.Ingest.Floor

/-!
# The paths of a Source ID (`src/ingest/arbiter.rs`)

Which paths have revealed a market under its Source ID, and when what is kept of the market is purged.

* `noteSourcePath`, `releaseSourceMarket`, `forgetSourcePath` — the three calls, and `purgeSourceMarket`, which they
  share;
* `serving`, `owed` — the paths a history leaves on a market, and the release it has not carried out;
* `Told` — the tracked paths of a market are those its history leaves (`told_run`);
* `purged_when_left` — a call purges a market exactly when its last path has left.
-/

set_option autoImplicit false

namespace EdgeConnect.Arbiter

open Authority StickyAuthority

/-! ## The model -/

/-- The paths that serve a market, and the symbol of a purge owed once the last of them leaves.  A market that no path
serves has no entry. -/
structure SourcePaths where
  paths : Finset Transport
  released : Option (Option String)
  served : paths.Nonempty

/-- What is kept of the markets: the arbiter's books, the definitions, and the latched depth of each symbol. -/
structure Stores (I D V : Type*) where
  book : Arbiter
  instrumentCatalog : Option (FinMap BookKey I)
  depths : StalenessFloor (SourceKey × String) V Transport
  depthReplay : Option (FinMap (SourceKey × String) D)

/-- The stores with the paths that serve each market. -/
structure PathArbiter (I D V : Type*) where
  stores : Stores I D V
  sourcePaths : FinMap BookKey SourcePaths

variable {I D V : Type*}

namespace Stores

/-- `reset_depth_floor_for_symbol`. -/
def resetDepthFloorForSymbol (s : Stores I D V) (source : SourceKey) (symbol : String) : Stores I D V :=
  { s with
    depths := (s.depths.resetWhere fun k => k.1 = source ∧ k.2 = symbol).1
    depthReplay := s.depthReplay.map fun replay => replay.erase (source, symbol) }

/-- `purge_source_market`. -/
def purgeSourceMarket (s : Stores I D V) (market : BookKey) (symbol : Option String) : Stores I D V :=
  let s : Stores I D V := { s with instrumentCatalog := s.instrumentCatalog.map fun catalog => catalog.erase market }
  let s :=
    match symbol with
    | some symbol => s.resetDepthFloorForSymbol market.source symbol
    | none => s
  { s with book := s.book.resetBooksForMarkets [market] }

/-- A purge that may be owed, carried out. -/
def purgeOwed (s : Stores I D V) (market : BookKey) : Option (Option String) → Stores I D V
  | some symbol => s.purgeSourceMarket market symbol
  | none => s

end Stores

namespace PathArbiter

/-- `note_source_path`: a path serves the market; it withdraws an earlier release. -/
def noteSourcePath (a : PathArbiter I D V) (market : BookKey) (path : Transport) : PathArbiter I D V :=
  match a.sourcePaths.get market with
  | some entry =>
    { a with sourcePaths := a.sourcePaths.insert market ⟨insert path entry.paths, none, Finset.insert_nonempty _ _⟩ }
  | none =>
    if a.sourcePaths.size < MAX_BOOK_MARKETS then
      { a with sourcePaths := a.sourcePaths.insert market ⟨{path}, none, Finset.singleton_nonempty _⟩ }
    else a

/-- `release_source_market`: an instrument moved off the market on `releasing`.  While other paths serve it the purge
waits for them. -/
def releaseSourceMarket (a : PathArbiter I D V) (market : BookKey) (symbol : Option String) (releasing : Transport) :
    PathArbiter I D V :=
  match a.sourcePaths.get market with
  | some entry =>
    if h : (entry.paths.erase releasing).Nonempty then
      { a with sourcePaths := a.sourcePaths.insert market ⟨entry.paths.erase releasing, some symbol, h⟩ }
    else
      ⟨a.stores.purgeSourceMarket market symbol, a.sourcePaths.erase market⟩
  | none => { a with stores := a.stores.purgeSourceMarket market symbol }

/-- `forget_source_path`: a path no longer carries the market; the last one carries out a release that waited. -/
def forgetSourcePath (a : PathArbiter I D V) (market : BookKey) (path : Transport) : PathArbiter I D V :=
  match a.sourcePaths.get market with
  | none => a
  | some entry =>
    if h : (entry.paths.erase path).Nonempty then
      { a with sourcePaths := a.sourcePaths.insert market ⟨entry.paths.erase path, entry.released, h⟩ }
    else
      let a := { a with sourcePaths := a.sourcePaths.erase market }
      match entry.released with
      | some symbol => { a with stores := a.stores.purgeSourceMarket market symbol }
      | none => a

/-- A call on the paths of a market; `others` stands for whatever else moves the stores between two of them. -/
inductive Call (I D V : Type*) where
  | noteSourcePath (market : BookKey) (path : Transport)
  | releaseSourceMarket (market : BookKey) (symbol : Option String) (releasing : Transport)
  | forgetSourcePath (market : BookKey) (path : Transport)
  | others (stores : Stores I D V)

def Call.market : Call I D V → Option BookKey
  | .noteSourcePath market _ | .releaseSourceMarket market _ _ | .forgetSourcePath market _ => some market
  | .others _ => none

def step (a : PathArbiter I D V) : Call I D V → PathArbiter I D V
  | .noteSourcePath market path => a.noteSourcePath market path
  | .releaseSourceMarket market symbol releasing => a.releaseSourceMarket market symbol releasing
  | .forgetSourcePath market path => a.forgetSourcePath market path
  | .others stores => { a with stores }

def machine : Machine (PathArbiter I D V) (Call I D V) Unit := ⟨fun a c => (a.step c, ())⟩

/-! ## What a history leaves of a market -/

/-- The paths noted on a market and not since released or forgotten. -/
def serving (market : BookKey) (paths : Finset Transport) : Call I D V → Finset Transport
  | .noteSourcePath m path => if m = market then insert path paths else paths
  | .releaseSourceMarket m _ path => if m = market then paths.erase path else paths
  | .forgetSourcePath m path => if m = market then paths.erase path else paths
  | .others _ => paths

def servingAfter (market : BookKey) (calls : List (Call I D V)) : Finset Transport := calls.foldl (serving market) ∅

/-- The symbol of the last release of a market, if one happened after its most recent note. -/
def owed (market : BookKey) (released : Option (Option String)) : Call I D V → Option (Option String)
  | .noteSourcePath m _ => if m = market then none else released
  | .releaseSourceMarket m symbol _ => if m = market then some symbol else released
  | .forgetSourcePath _ _ => released
  | .others _ => released

def owedAfter (market : BookKey) (calls : List (Call I D V)) : Option (Option String) :=
  calls.foldl (owed market) none

/-- A note or a release of a market: what a release is no longer the latest word after. -/
def Call.speaks (market : BookKey) (c : Call I D V) : Prop :=
  (∃ path, c = .noteSourcePath market path) ∨ ∃ symbol path, c = .releaseSourceMarket market symbol path

/-- A release of the market happened after its most recent note, the latest of them with this symbol. -/
def ReleasedSince (market : BookKey) (symbol : Option String) (calls : List (Call I D V)) : Prop :=
  ∃ u path v, calls = u ++ .releaseSourceMarket market symbol path :: v ∧ ∀ c ∈ v, ¬ c.speaks market

/-- The purge a call owes its market: no path serves it any more, and the call is a release, or the forget that emptied
it with a release still waiting. -/
def Owes (market : BookKey) (before : List (Call I D V)) (c : Call I D V) (symbol : Option String) : Prop :=
  servingAfter market (before ++ [c]) = ∅ ∧
    ((∃ path, c = .releaseSourceMarket market symbol path) ∨
      ∃ path, c = .forgetSourcePath market path ∧ servingAfter market before ≠ ∅ ∧ ReleasedSince market symbol before)

theorem servingAfter_snoc (market : BookKey) (before : List (Call I D V)) (c : Call I D V) :
    servingAfter market (before ++ [c]) = serving market (servingAfter market before) c := by
  unfold servingAfter
  rw [List.foldl_append]
  rfl

theorem owedAfter_snoc (market : BookKey) (before : List (Call I D V)) (c : Call I D V) :
    owedAfter market (before ++ [c]) = owed market (owedAfter market before) c := by
  unfold owedAfter
  rw [List.foldl_append]
  rfl

theorem releasedSince_snoc {market : BookKey} {symbol : Option String} {before : List (Call I D V)} {c : Call I D V} :
    ReleasedSince market symbol (before ++ [c]) ↔
      (∃ path, c = .releaseSourceMarket market symbol path) ∨
        ¬ c.speaks market ∧ ReleasedSince market symbol before := by
  constructor
  · rintro ⟨u, path, v, h, hv⟩
    rcases split_snoc h with ⟨-, hc, -⟩ | ⟨v, rfl, rfl⟩
    · exact .inl ⟨path, hc.symm⟩
    · refine .inr ⟨hv c (by simp), u, path, v, rfl, ?_⟩
      intro d hd
      exact hv d (by simp [hd])
  · rintro (⟨path, rfl⟩ | ⟨hc, u, path, v, rfl, hv⟩)
    · exact ⟨before, path, [], rfl, fun d hd => (List.not_mem_nil hd).elim⟩
    · refine ⟨u, path, v ++ [c], by simp, ?_⟩
      intro d hd
      rcases List.mem_append.mp hd with hd | hd
      · exact hv d hd
      · cases List.mem_singleton.mp hd
        exact hc

/-- The release a history owes is the latest one since the market was last noted. -/
theorem owedAfter_iff (market : BookKey) (symbol : Option String) (calls : List (Call I D V)) :
    owedAfter market calls = some symbol ↔ ReleasedSince market symbol calls := by
  induction calls using List.reverseRecOn with
  | nil =>
    constructor
    · intro h
      cases h
    · rintro ⟨u, path, v, h, -⟩
      simp at h
  | append_singleton before c ih =>
    rw [owedAfter_snoc, releasedSince_snoc, ← ih]
    unfold Call.speaks
    cases c with
    | noteSourcePath m path =>
      by_cases hm : m = market <;> simp [owed, hm]
    | releaseSourceMarket m symbol' path =>
      by_cases hm : m = market <;> simp [owed, hm]
    | forgetSourcePath m path => simp [owed]
    | others stores => simp [owed]

/-! ## The tracked paths -/

/-- The entry of a market holds the paths its history leaves and the release it owes; no entry stands for no path. -/
def Told (a : PathArbiter I D V) (market : BookKey) (paths : Finset Transport) (released : Option (Option String)) :
    Prop :=
  (a.sourcePaths.get market = none ∧ paths = ∅) ∨
    ∃ entry, a.sourcePaths.get market = some entry ∧ entry.paths = paths ∧ entry.released = released

/-- There is room to note a path of the market. -/
def Room (market : BookKey) (a : PathArbiter I D V) (c : Call I D V) : Prop :=
  ∀ path, c = .noteSourcePath market path → a.sourcePaths.size < MAX_BOOK_MARKETS

variable {a : PathArbiter I D V} {market : BookKey} {paths : Finset Transport} {released : Option (Option String)}

theorem told_note (h : Told a market paths released) (path : Transport) (hroom : a.sourcePaths.size < MAX_BOOK_MARKETS) :
    Told (a.noteSourcePath market path) market (insert path paths) none ∧
      (a.noteSourcePath market path).stores = a.stores := by
  unfold noteSourcePath
  rcases h with ⟨hg, rfl⟩ | ⟨entry, hg, rfl, rfl⟩
  · rw [hg]
    simp only [hroom, if_true]
    exact ⟨.inr ⟨_, FinMap.get_insert_self _ _ _, rfl, rfl⟩, trivial⟩
  · rw [hg]
    exact ⟨.inr ⟨_, FinMap.get_insert_self _ _ _, rfl, rfl⟩, rfl⟩

theorem told_release (h : Told a market paths released) (symbol : Option String) (path : Transport) :
    Told (a.releaseSourceMarket market symbol path) market (paths.erase path) (some symbol) ∧
      (a.releaseSourceMarket market symbol path).stores =
        if paths.erase path = ∅ then a.stores.purgeSourceMarket market symbol else a.stores := by
  unfold releaseSourceMarket
  rcases h with ⟨hg, rfl⟩ | ⟨entry, hg, rfl, rfl⟩
  · rw [hg]
    exact ⟨.inl ⟨hg, by simp⟩, by simp⟩
  · rw [hg]
    simp only
    split
    · rename_i hne
      rw [if_neg hne.ne_empty]
      exact ⟨.inr ⟨_, FinMap.get_insert_self _ _ _, rfl, rfl⟩, rfl⟩
    · rename_i hempty
      rw [if_pos (Finset.not_nonempty_iff_eq_empty.mp hempty)]
      exact ⟨.inl ⟨FinMap.get_erase_self _ _, Finset.not_nonempty_iff_eq_empty.mp hempty⟩, rfl⟩

theorem told_forget (h : Told a market paths released) (path : Transport) :
    Told (a.forgetSourcePath market path) market (paths.erase path) released ∧
      (a.forgetSourcePath market path).stores =
        if paths = ∅ ∨ paths.erase path ≠ ∅ then a.stores else a.stores.purgeOwed market released := by
  unfold forgetSourcePath
  rcases h with ⟨hg, rfl⟩ | ⟨entry, hg, rfl, rfl⟩
  · rw [hg]
    exact ⟨.inl ⟨hg, by simp⟩, by simp⟩
  · rw [hg]
    simp only
    split
    · rename_i hne
      rw [if_pos (.inr hne.ne_empty)]
      exact ⟨.inr ⟨_, FinMap.get_insert_self _ _ _, rfl, rfl⟩, rfl⟩
    · rename_i hempty
      have hempty := Finset.not_nonempty_iff_eq_empty.mp hempty
      rw [if_neg (by simp [hempty, entry.served.ne_empty])]
      cases entry.released with
      | none => exact ⟨.inl ⟨FinMap.get_erase_self _ _, hempty⟩, rfl⟩
      | some symbol => exact ⟨.inl ⟨FinMap.get_erase_self _ _, hempty⟩, rfl⟩

/-- A call about another market leaves the entry of this one. -/
theorem step_other {c : Call I D V} (hc : c.market ≠ some market) :
    (a.step c).sourcePaths.get market = a.sourcePaths.get market := by
  cases c with
  | noteSourcePath m path =>
    have hm : market ≠ m := fun h => hc (h ▸ rfl)
    simp only [step, noteSourcePath]
    split
    · simp [FinMap.get_insert, hm]
    · split
      · simp [FinMap.get_insert, hm]
      · rfl
  | releaseSourceMarket m symbol path =>
    have hm : market ≠ m := fun h => hc (h ▸ rfl)
    simp only [step, releaseSourceMarket]
    split
    · split
      · simp [FinMap.get_insert, hm]
      · simp [FinMap.get_erase, hm]
    · rfl
  | forgetSourcePath m path =>
    have hm : market ≠ m := fun h => hc (h ▸ rfl)
    simp only [step, forgetSourcePath]
    split
    · rfl
    · split
      · simp [FinMap.get_insert, hm]
      · split
        · simp [FinMap.get_erase, hm]
        · simp [FinMap.get_erase, hm]
  | others stores => rfl

theorem told_step (h : Told a market paths released) (c : Call I D V) (hroom : Room market a c) :
    Told (a.step c) market (serving market paths c) (owed market released c) := by
  by_cases hc : c.market = some market
  · cases c with
    | noteSourcePath m path =>
      cases hc
      simpa [step, serving, owed] using (told_note h path (hroom path rfl)).1
    | releaseSourceMarket m symbol path =>
      cases hc
      simpa [step, serving, owed] using (told_release h symbol path).1
    | forgetSourcePath m path =>
      cases hc
      simpa [step, serving, owed] using (told_forget h path).1
    | others stores => cases hc
  · have hs : serving market paths c = paths ∧ owed market released c = released := by
      cases c <;> simp_all [serving, owed, Call.market]
    unfold Told
    rw [step_other hc, hs.1, hs.2]
    exact h

/-- Along every run the tracked paths of a market are those its history leaves. -/
theorem told_run (market : BookKey) (stores : Stores I D V) (calls : List (Call I D V))
    (hroom : machine.Along (Room market) ⟨stores, ∅⟩ calls) :
    Told (machine.exec ⟨stores, ∅⟩ calls) market (servingAfter market calls) (owedAfter market calls) := by
  induction calls using List.reverseRecOn with
  | nil => exact .inl ⟨rfl, rfl⟩
  | append_singleton calls c ih =>
    rw [Machine.along_append] at hroom
    rw [Machine.exec_append, servingAfter_snoc, owedAfter_snoc]
    exact told_step (ih hroom.1) c hroom.2.1

end PathArbiter

/-! ## What a purge takes -/

/-- What the stores keep under one market's own key. -/
structure Kept (I : Type*) where
  view : View
  sync : Option (FinMap Transport PeerState)
  events : Option MarketEvents
  definition : Option I

namespace Stores

def kept (s : Stores I D V) (k : BookKey) : Kept I :=
  ⟨s.book.view k, s.book.bookSync.get k, s.book.bookEvents.get k, s.instrumentCatalog.bind fun catalog => catalog.get k⟩

/-- The latched depth of a symbol. -/
def latched (s : Stores I D V) (source : SourceKey) (symbol : String) : Option (TickState V Transport) × Option D :=
  (s.depths.state.get (source, symbol), s.depthReplay.bind fun replay => replay.get (source, symbol))

theorem dropMarketState_sync (b : Arbiter) (market k : BookKey) :
    (b.dropMarketState market).bookSync.get k = if k = market then none else b.bookSync.get k := by
  unfold Arbiter.dropMarketState Arbiter.dropBookEvents
  simp only
  split
  · exact FinMap.get_erase _ _ _
  · exact FinMap.get_erase _ _ _

theorem dropMarketState_events (b : Arbiter) (market k : BookKey) :
    (b.dropMarketState market).bookEvents.get k = if k = market then none else b.bookEvents.get k := by
  unfold Arbiter.dropMarketState Arbiter.dropBookEvents
  simp only
  split
  · rename_i h
    split
    · rename_i hk
      rw [hk]
      exact h
    · rfl
  · exact FinMap.get_erase _ _ _

theorem purge_book (s : Stores I D V) (market : BookKey) (symbol : Option String) :
    (s.purgeSourceMarket market symbol).book = s.book.resetBooksForMarkets [market] := by
  cases symbol <;> rfl

theorem purge_catalog (s : Stores I D V) (market : BookKey) (symbol : Option String) :
    (s.purgeSourceMarket market symbol).instrumentCatalog =
      s.instrumentCatalog.map fun catalog => catalog.erase market := by
  cases symbol <;> rfl

/-- A purge leaves nothing under the market's key. -/
theorem kept_purge_self (s : Stores I D V) (market : BookKey) (symbol : Option String) :
    (s.purgeSourceMarket market symbol).kept market = ⟨.gone s.book.bookReplay.isSome, none, none, none⟩ := by
  have hview := view_dropMarketState_self s.book market
  have hsync := dropMarketState_sync s.book market market
  have hevents := dropMarketState_events s.book market market
  unfold kept
  rw [purge_book, purge_catalog, bind_map_erase, if_pos rfl]
  rw [if_pos rfl] at hsync hevents
  simp only [Arbiter.resetBooksForMarkets, List.foldl_cons, List.foldl_nil]
  rw [hsync, hevents, ← hview]
  rfl

/-- A purge leaves what is kept of every other market. -/
theorem kept_purge_ne (s : Stores I D V) {market k : BookKey} (symbol : Option String) (hk : k ≠ market) :
    (s.purgeSourceMarket market symbol).kept k = s.kept k := by
  have hview := view_dropMarketState_ne (a := s.book) hk
  have hsync := dropMarketState_sync s.book market k
  have hevents := dropMarketState_events s.book market k
  unfold kept
  rw [purge_book, purge_catalog, bind_map_erase, if_neg hk]
  rw [if_neg hk] at hsync hevents
  simp only [Arbiter.resetBooksForMarkets, List.foldl_cons, List.foldl_nil]
  rw [hsync, hevents, ← hview]
  rfl

/-- A purge that names a symbol clears its latched depth. -/
theorem latched_purge (s : Stores I D V) (market : BookKey) (symbol : String) :
    (s.purgeSourceMarket market (some symbol)).latched market.source symbol = (none, none) := by
  unfold latched purgeSourceMarket resetDepthFloorForSymbol StalenessFloor.resetWhere
  have hfloor : (s.depths.state.filter fun k _ => !decide (k.1 = market.source ∧ k.2 = symbol)).get
      (market.source, symbol) = none := by
    rw [FinMap.get_filter]
    cases s.depths.state.get (market.source, symbol) <;> simp
  rw [hfloor]
  cases s.depthReplay <;> simp

end Stores

namespace PathArbiter

variable {a : PathArbiter I D V} {market : BookKey}

/-- A call about another market keeps all that is kept of this one. -/
theorem step_kept_other {c : Call I D V} {m : BookKey} (hc : c.market = some m) (hm : m ≠ market) :
    (a.step c).stores.kept market = a.stores.kept market := by
  cases c with
  | noteSourcePath m' path =>
    simp only [step, noteSourcePath]
    split
    · rfl
    · split
      · rfl
      · rfl
  | releaseSourceMarket m' symbol path =>
    cases hc
    simp only [step, releaseSourceMarket]
    split
    · split
      · rfl
      · exact Stores.kept_purge_ne _ _ hm.symm
    · exact Stores.kept_purge_ne _ _ hm.symm
  | forgetSourcePath m' path =>
    cases hc
    simp only [step, forgetSourcePath]
    split
    · rfl
    · split
      · rfl
      · split
        · exact Stores.kept_purge_ne _ _ hm.symm
        · rfl
  | others stores => cases hc

/-- **Purged when the last path has left.** In every run with room to note the market's paths, a call about the market
purges it exactly when it owes a purge, with the symbol it owes; a call about another market keeps it. -/
theorem purged_when_left (market : BookKey) (stores : Stores I D V) (before : List (Call I D V)) (c : Call I D V)
    (hroom : machine.Along (Room market) ⟨stores, ∅⟩ (before ++ [c])) :
    let a := machine.exec ⟨stores, ∅⟩ before
    (c.market = some market →
      (∀ symbol, Owes market before c symbol →
        (a.step c).stores = a.stores.purgeSourceMarket market symbol ∧
          (a.step c).stores.kept market = ⟨.gone a.stores.book.bookReplay.isSome, none, none, none⟩ ∧
          ∀ s, symbol = some s → (a.step c).stores.latched market.source s = (none, none)) ∧
      ((∀ symbol, ¬ Owes market before c symbol) → (a.step c).stores = a.stores)) ∧
    ∀ m, c.market = some m → m ≠ market → (a.step c).stores.kept market = a.stores.kept market := by
  intro a
  rw [Machine.along_append] at hroom
  have htold : Told a market (servingAfter market before) (owedAfter market before) := told_run market stores before hroom.1
  refine ⟨fun hc => ?_, fun m hc hm => step_kept_other hc hm⟩
  have hsplit : (∀ symbol, Owes market before c symbol → (a.step c).stores = a.stores.purgeSourceMarket market symbol) ∧
      ((∀ symbol, ¬ Owes market before c symbol) → (a.step c).stores = a.stores) := by
    unfold Owes
    rw [servingAfter_snoc]
    cases c with
    | noteSourcePath m path =>
      cases hc
      have hn := told_note htold path (hroom.2.1 path rfl)
      refine ⟨?_, fun _ => hn.2⟩
      rintro symbol ⟨hempty, -⟩
      simp [serving] at hempty
    | releaseSourceMarket m symbol path =>
      cases hc
      have hr := (told_release htold symbol path).2
      constructor
      · rintro symbol' ⟨hempty, ⟨path', hcall⟩ | ⟨path', hcall, -⟩⟩
        · cases hcall
          simp only [serving, if_true] at hempty
          rw [if_pos hempty] at hr
          exact hr
        · cases hcall
      · intro hnone
        have hleft : ¬ (servingAfter market before).erase path = ∅ := by
          intro hempty
          exact hnone symbol ⟨by simpa [serving] using hempty, .inl ⟨path, rfl⟩⟩
        rw [if_neg hleft] at hr
        exact hr
    | forgetSourcePath m path =>
      cases hc
      have hf := (told_forget htold path).2
      constructor
      · rintro symbol ⟨hempty, ⟨path', hcall⟩ | ⟨path', hcall, hne, hrel⟩⟩
        · cases hcall
        · cases hcall
          simp only [serving, if_true] at hempty
          rw [if_neg (by simp [hempty, hne]), (owedAfter_iff market symbol before).mpr hrel] at hf
          exact hf
      · intro hnone
        by_cases hleft : servingAfter market before = ∅ ∨ (servingAfter market before).erase path ≠ ∅
        · rw [if_pos hleft] at hf
          exact hf
        · rw [if_neg hleft] at hf
          simp only [not_or, not_not] at hleft
          cases ho : owedAfter market before with
          | none =>
            rw [ho] at hf
            exact hf
          | some symbol =>
            exact (hnone symbol ⟨by simpa [serving] using hleft.2,
              .inr ⟨path, rfl, hleft.1, (owedAfter_iff market symbol before).mp ho⟩⟩).elim
    | others stores => cases hc
  refine ⟨fun symbol howes => ?_, hsplit.2⟩
  have hpurge := hsplit.1 symbol howes
  refine ⟨hpurge, by rw [hpurge]; exact Stores.kept_purge_self _ _ _, ?_⟩
  rintro s rfl
  rw [hpurge]
  exact Stores.latched_purge _ _ _

/-- A market two paths serve, one of which releases it and the other leaves. -/
def soldMarket : BookKey := ⟨⟨7, "KALSHI"⟩, "event", 2, 41⟩

def soldStores : Stores String Nat Nat where
  book := .new ∅ ∅ .DEFAULT 0 .DEFAULT true
  instrumentCatalog := some ((∅ : FinMap BookKey String).insert soldMarket "X")
  depths := .new 1
  depthReplay := none

def soldCalls : List (Call String Nat Nat) :=
  [.noteSourcePath soldMarket (.edge 1), .noteSourcePath soldMarket (.edge 2),
    .releaseSourceMarket soldMarket (some "X") (.edge 2)]

theorem purged_when_left_sold :
    (machine.exec ⟨soldStores, ∅⟩ soldCalls).stores.instrumentCatalog.bind (fun m => m.get soldMarket) = some "X" ∧
      ((machine.exec ⟨soldStores, ∅⟩ soldCalls).step (.forgetSourcePath soldMarket (.edge 1))).stores.kept soldMarket =
        ⟨.gone true, none, none, none⟩ := by
  refine ⟨by decide, ?_⟩
  have hroom : machine.Along (Room soldMarket) ⟨soldStores, ∅⟩
      (soldCalls ++ [.forgetSourcePath soldMarket (.edge 1)]) := by
    refine ⟨fun _ _ => ?_, fun _ _ => ?_, fun _ _ => ?_, fun _ _ => ?_, trivial⟩ <;> decide
  refine (((purged_when_left soldMarket soldStores soldCalls _ hroom).1 rfl).1 (some "X") ?_).2.1
  refine ⟨by decide, .inr ⟨.edge 1, rfl, by decide, ?_⟩⟩
  exact ⟨[.noteSourcePath soldMarket (.edge 1), .noteSourcePath soldMarket (.edge 2)], .edge 2, [], rfl,
    fun c hc => (List.not_mem_nil hc).elim⟩

end PathArbiter

end EdgeConnect.Arbiter
