import EdgeConnect.Ingest.Arbiter
import EdgeConnect.Model.Rebaseline

/-!
# One market of the arbiter

Three maps of the arbiter describe one market: the per-path accumulators, the replay entry and the
authority's `last_admitted`.  `view` reads the three at one market.

* `Fades` — what any call may do to a market it is not about: nothing, forget the path it was last
  admitted from, or drop it whole;
* `Sound` — an untracked market has no replay entry and was admitted from no path;
* `Served` — everything one batch through the single-path gate can do to its own market, with what it
  broadcasts; `emitServed_served` is the inversion of `emitServed`.
-/

set_option autoImplicit false

namespace EdgeConnect.Arbiter

open Authority StickyAuthority

/-! ## Views -/

/-- What the arbiter holds of one market; `wired` says whether there is a replay map at all. -/
structure View where
  market : Option BookMarket
  replay : Option BookAccumulator
  admitted : Option Transport
  wired : Bool

def view (a : Arbiter) (k : BookKey) : View :=
  ⟨a.bookMarkets.get k, a.replayEntry k, a.books.lastAdmitted k, a.bookReplay.isSome⟩

namespace View

def gone (wired : Bool) : View := ⟨none, none, none, wired⟩

/-- A market just tracked. -/
def fresh (wired : Bool) : View := ⟨some .default, none, none, wired⟩

/-- An untracked market has nothing else. -/
def Sound (v : View) : Prop := v.market = none → v.replay = none ∧ v.admitted = none

/-- The market is left alone, forgets its last path, or is dropped whole. -/
def Fades (v v' : View) : Prop :=
  v' = gone v.wired ∨ v' = v ∨ v' = { v with admitted := none }

/-- The market once it is tracked. -/
def tracked (v : View) : View := if v.market.isSome then v else fresh v.wired

variable {v v' v'' : View}

theorem Fades.refl (v : View) : Fades v v := Or.inr (Or.inl rfl)

theorem Fades.of_eq (h : v' = v) : Fades v v' := Or.inr (Or.inl h)

theorem Fades.wired (h : Fades v v') : v'.wired = v.wired := by
  rcases h with rfl | rfl | rfl
  · rfl
  · rfl
  · rfl

theorem Fades.trans (h : Fades v v') (h' : Fades v' v'') : Fades v v'' := by
  have hw := h.wired
  rcases h' with rfl | rfl | rfl
  · rw [hw]; exact Or.inl rfl
  · exact h
  · rcases h with rfl | rfl | rfl
    · exact Or.inl rfl
    · exact Or.inr (Or.inr rfl)
    · exact Or.inr (Or.inr rfl)

theorem Fades.of_admitted (h : v'.market = v.market) (hr : v'.replay = v.replay)
    (ha : v'.admitted = v.admitted ∨ v'.admitted = none) (hw : v'.wired = v.wired) : Fades v v' := by
  obtain ⟨m, r, p, w⟩ := v
  obtain ⟨m', r', p', w'⟩ := v'
  obtain rfl : m' = m := h
  obtain rfl : r' = r := hr
  obtain rfl : w' = w := hw
  rcases ha with ha | ha
  · obtain rfl : p' = p := ha
    exact .refl _
  · obtain rfl : p' = none := ha
    exact Or.inr (Or.inr rfl)

theorem tracked_of_market {m : BookMarket} (h : v.market = some m) : v.tracked = v := by
  unfold tracked
  rw [h]; rfl

theorem tracked_market (v : View) : ∃ m, v.tracked.market = some m ∧
    (v.market = some m ∨ v.market = none ∧ m = .default) := by
  unfold tracked
  cases h : v.market with
  | none => exact ⟨.default, rfl, Or.inr ⟨rfl, rfl⟩⟩
  | some m => exact ⟨m, h, Or.inl rfl⟩

end View

variable {a : Arbiter} {key k : BookKey}

/-! ## What each helper does to a market -/

theorem view_books (a : Arbiter) (books : StickyAuthority) (k : BookKey) :
    ({ a with books := books } : Arbiter).view k = { a.view k with admitted := books.lastAdmitted k } :=
  rfl

theorem view_setMarket_self (a : Arbiter) (key : BookKey) (m : BookMarket) :
    (a.setMarket key m).view key = { a.view key with market := some m } := by
  unfold view setMarket
  rw [FinMap.get_insert_self]
  rfl

theorem view_setMarket_ne (m : BookMarket) (hk : k ≠ key) : (a.setMarket key m).view k = a.view k := by
  unfold view setMarket
  rw [FinMap.get_insert_of_ne _ _ hk]
  rfl

theorem view_dropBookEvents (a : Arbiter) (key k : BookKey) : (a.dropBookEvents key).view k = a.view k := by
  unfold dropBookEvents
  split
  · rfl
  · rfl

/-- The replay entries of a map, wired or not. -/
theorem bind_map_erase {V : Type*} (r : Option (FinMap BookKey V)) :
    ((r.map (·.erase key)).bind fun m => m.get k) =
      if k = key then none else r.bind fun m => m.get k := by
  cases r with
  | none => simp
  | some m => exact FinMap.get_erase m key k

theorem view_dropMarketState_self (a : Arbiter) (key : BookKey) :
    (a.dropMarketState key).view key = .gone a.bookReplay.isSome := by
  unfold dropMarketState view replayEntry
  simp only [bind_map_erase, forgetMarket_lastAdmitted, if_true, Option.isSome_map]
  have h : ∀ a' : Arbiter, (a'.dropBookEvents key).bookMarkets = a'.bookMarkets ∧
      (a'.dropBookEvents key).bookReplay = a'.bookReplay := by
    intro a'
    unfold dropBookEvents
    split
    · exact ⟨rfl, rfl⟩
    · exact ⟨rfl, rfl⟩
  rw [(h _).1, (h _).2]
  simp [View.gone]

theorem view_dropMarketState_ne (hk : k ≠ key) : (a.dropMarketState key).view k = a.view k := by
  have hev := view_dropBookEvents
    { a with bookMarkets := a.bookMarkets.erase key, bookSync := a.bookSync.erase key } key k
  unfold dropMarketState
  have hview : ({ a with bookMarkets := a.bookMarkets.erase key, bookSync := a.bookSync.erase key }
      : Arbiter).view k = a.view k := by
    unfold view
    rw [FinMap.get_erase_of_ne _ hk]
    rfl
  rw [hview] at hev
  rw [← hev]
  unfold view replayEntry
  simp only [bind_map_erase, forgetMarket_lastAdmitted, if_neg hk, Option.isSome_map]

theorem fades_dropMarketState (a : Arbiter) (key k : BookKey) :
    (a.view k).Fades ((a.dropMarketState key).view k) := by
  by_cases hk : k = key
  · rw [hk, view_dropMarketState_self]
    exact Or.inl rfl
  · rw [view_dropMarketState_ne hk]
    exact .refl _

theorem fades_evictMarkets : ∀ (order : List BookKey) (a : Arbiter) (k : BookKey),
    (a.view k).Fades ((evictMarkets order a).view k)
  | [], _, _ => .refl _
  | old :: rest, a, k => by
    unfold evictMarkets
    split
    · exact (fades_dropMarketState a old k).trans (fades_evictMarkets rest _ k)
    · exact .refl _

theorem fades_trackBookMarket (hk : k ≠ key) : (a.view k).Fades ((a.trackBookMarket key).view k) := by
  have h := fades_evictMarkets a.bookOrder a k
  unfold trackBookMarket
  simp only
  have hview : ∀ a' : Arbiter, ({ a' with
      bookOrder := a'.bookOrder ++ [key], bookMarkets := a'.bookMarkets.insert key .default } :
        Arbiter).view k = a'.view k := by
    intro a'
    unfold view
    rw [FinMap.get_insert_of_ne _ _ hk]
    rfl
  rw [hview]
  exact h

theorem fades_ensureMarket (hk : k ≠ key) : (a.view k).Fades ((a.ensureMarket key).view k) := by
  unfold ensureMarket
  split
  · exact .refl _
  · exact fades_trackBookMarket hk

/-- Tracking a market that has nothing gives a fresh one. -/
theorem view_ensureMarket (hs : (a.view key).Sound) : (a.ensureMarket key).view key = (a.view key).tracked := by
  unfold ensureMarket
  by_cases hc : a.bookMarkets.contains key = true
  · rw [if_pos hc]
    obtain ⟨m, hm⟩ := FinMap.contains_eq_true.mp hc
    exact (View.tracked_of_market hm).symm
  · rw [if_neg hc]
    rw [Bool.not_eq_true, FinMap.contains_eq_false] at hc
    have hgone : (evictMarkets a.bookOrder a).view key = .gone a.bookReplay.isSome := by
      have hr := hs hc
      have hview : a.view key = .gone a.bookReplay.isSome := by
        show View.mk _ _ _ _ = _
        rw [show a.bookMarkets.get key = none from hc, show a.replayEntry key = none from hr.1,
          show a.books.lastAdmitted key = none from hr.2]
        rfl
      have hf := fades_evictMarkets a.bookOrder a key
      rw [hview] at hf
      rcases hf with h | h | h
      · exact h
      · exact h
      · exact h
    have htr : (a.view key).tracked = .fresh a.bookReplay.isSome := by
      unfold View.tracked
      rw [show (a.view key).market = none from hc]
      rfl
    rw [htr]
    unfold trackBookMarket
    simp only
    have hm : ∀ a' : Arbiter, a'.view key = .gone a.bookReplay.isSome → ({ a' with
        bookOrder := a'.bookOrder ++ [key], bookMarkets := a'.bookMarkets.insert key .default } :
          Arbiter).view key = .fresh a.bookReplay.isSome := by
      intro a' ha
      have h := congrArg (fun v : View => (v.replay, v.admitted, v.wired)) ha
      simp only [view, View.gone, Prod.mk.injEq] at h
      unfold view
      rw [FinMap.get_insert_self]
      show View.mk (some .default) (a'.replayEntry key) (a'.books.lastAdmitted key) a'.bookReplay.isSome = _
      rw [h.1, h.2.1, h.2.2]
      rfl
    exact hm _ hgone

/-- The replay entry of a tracked market advances with a published batch. -/
def View.applied (v : View) (b : NormalizedBook) : View :=
  if v.wired && v.market.isSome then
    { v with replay := some ((v.replay.getD (.new b.symbol)).apply b) }
  else v

namespace View

variable (v : View) (b : NormalizedBook)

@[simp] theorem applied_market : (v.applied b).market = v.market := by
  unfold applied
  split
  · rfl
  · rfl

@[simp] theorem applied_admitted : (v.applied b).admitted = v.admitted := by
  unfold applied
  split
  · rfl
  · rfl

@[simp] theorem applied_wired : (v.applied b).wired = v.wired := by
  unfold applied
  split
  · rfl
  · rfl

theorem applied_replay : (v.applied b).replay = v.replay ∨
    (v.applied b).replay = some ((v.replay.getD (.new b.symbol)).apply b) := by
  unfold applied
  split
  · exact Or.inr rfl
  · exact Or.inl rfl

variable {v}

theorem applied_replay_of_wired {m : BookMarket} (hw : v.wired = true) (hm : v.market = some m) :
    (v.applied b).replay = some ((v.replay.getD (.new b.symbol)).apply b) := by
  unfold applied
  rw [hw, hm]
  rfl

end View

theorem view_applyBookReplay_self (a : Arbiter) (key : BookKey) (b : NormalizedBook) :
    (a.applyBookReplay key b).view key = (a.view key).applied b := by
  unfold applyBookReplay View.applied
  cases hr : a.bookReplay with
  | none => simp [view, hr]
  | some replay =>
    by_cases hc : a.bookMarkets.contains key = true
    · have hm : (a.bookMarkets.get key).isSome = true := hc
      simp [view, hr, hm, hc, replayEntry]
    · rw [Bool.not_eq_true] at hc
      have hm : (a.bookMarkets.get key).isSome = false := hc
      simp [view, hr, hm, hc]

theorem view_applyBookReplay_ne (b : NormalizedBook) (hk : k ≠ key) :
    (a.applyBookReplay key b).view k = a.view k := by
  unfold applyBookReplay
  split
  · rfl
  · rename_i replay hr
    split
    · unfold view replayEntry
      simp [hr, FinMap.get_insert_of_ne _ _ hk]
    · rfl

theorem view_rebaselineBook_self {m : BookMarket} {acc : BookAccumulator} {publisher : Transport}
    (hm : a.bookMarkets.get key = some m) (hacc : m.paths.get publisher = some acc) (wall : Nat) :
    (a.rebaselineBook key publisher wall).1.view key =
        { a.view key with replay := if a.bookReplay.isSome then some acc else none } ∧
      (a.rebaselineBook key publisher wall).2 =
        if acc.baselined then some (acc.toBook key wall) else none := by
  unfold rebaselineBook
  rw [hm]
  simp only [Option.bind_some, hacc, and_true]
  cases hr : a.bookReplay with
  | none => simp [view, replayEntry, hr]
  | some replay => simp [view, replayEntry, hr]

theorem view_rebaselineBook_ne (publisher : Transport) (wall : Nat) (hk : k ≠ key) :
    (a.rebaselineBook key publisher wall).1.view k = a.view k := by
  unfold rebaselineBook
  split
  · rfl
  · cases hr : a.bookReplay with
    | none => simp [view, replayEntry, hr]
    | some replay => simp [view, replayEntry, hr, FinMap.get_insert_of_ne _ _ hk]

theorem view_monotonicSlot_self {m : BookMarket} (hm : (a.view key).market = some m)
    (batchId : Option Nat) : ∃ w, (a.monotonicSlot key batchId).1.view key =
      { a.view key with market := some { m with wireSlot := w } } := by
  have hm' : a.bookMarkets.get key = some m := hm
  have hsame : a.view key = { a.view key with market := some { m with wireSlot := m.wireSlot } } := by
    rw [show some { m with wireSlot := m.wireSlot } = (a.view key).market from hm.symm]
  unfold monotonicSlot
  rw [hm']
  cases batchId with
  | none => exact ⟨m.wireSlot, hsame⟩
  | some s =>
    simp only
    split
    · exact ⟨m.wireSlot, hsame⟩
    · exact ⟨some s, view_setMarket_self _ _ _⟩

theorem view_monotonicSlot_ne (batchId : Option Nat) (hk : k ≠ key) :
    (a.monotonicSlot key batchId).1.view k = a.view k := by
  unfold monotonicSlot
  split
  · rfl
  · rfl
  · split
    · rfl
    · exact view_setMarket_ne _ hk

theorem view_forceRebaseline_self {m : BookMarket} (hm : (a.view key).market = some m) :
    (a.forceRebaseline key).view key = { a.view key with market := some { m with rebaseline := true } } := by
  have hm' : a.bookMarkets.get key = some m := hm
  unfold forceRebaseline
  rw [hm']
  simp only
  split
  · rename_i hr
    have hsame : ({ m with rebaseline := true } : BookMarket) = m := by rw [← hr]
    rw [hsame, ← hm]
  · exact view_setMarket_self _ _ _

theorem view_forceRebaseline_ne (hk : k ≠ key) : (a.forceRebaseline key).view k = a.view k := by
  unfold forceRebaseline
  split
  · rfl
  · split
    · rfl
    · exact view_setMarket_ne _ hk

theorem ensureMarket_of_tracked {m : BookMarket} (hm : a.bookMarkets.get key = some m) :
    a.ensureMarket key = a := if_pos (FinMap.contains_eq_true.mpr ⟨m, hm⟩)

theorem view_accumulateBook_self {m : BookMarket} (hm : (a.view key).market = some m)
    (publisher : Transport) (b : NormalizedBook) :
    (a.accumulateBook key publisher b).view key =
      { a.view key with market := some (m.accumulate publisher b) } := by
  have hm' : a.bookMarkets.get key = some m := hm
  unfold accumulateBook
  rw [ensureMarket_of_tracked hm']
  simp only [hm']
  exact view_setMarket_self _ _ _

theorem fades_accumulateBook (publisher : Transport) (b : NormalizedBook) (hk : k ≠ key) :
    (a.view k).Fades ((a.accumulateBook key publisher b).view k) := by
  have h := fades_ensureMarket (a := a) hk
  unfold accumulateBook
  simp only
  split
  · exact h
  · rw [view_setMarket_ne _ hk]
    exact h

/-! ## The authority's part -/

section Authority

variable (books : StickyAuthority) (b : NormalizedBook) (publisher : Transport) (synthesized : Bool)

theorem noteBatch_lastAdmitted (a : Arbiter) (key k : BookKey) :
    (a.noteBatch key b publisher synthesized).lastAdmitted k = a.books.lastAdmitted k := by
  have hnote : (if clearLed b then a.books.noteRebaselinePoint key publisher else a.books).lastAdmitted k =
      a.books.lastAdmitted k := by
    split
    · exact (noteRebaselinePoint_keeps k a.books key publisher).self
    · rfl
  unfold noteBatch
  simp only
  generalize (if clearLed b then a.books.noteRebaselinePoint key publisher else a.books) = books at hnote ⊢
  split
  · exact (dropHold_keeps k _ key).self.trans hnote
  · exact hnote

/-- The decision on a batch: emitted, it names its path; dropped, it leaves the market's path alone; every
other market keeps its path or forgets it. -/
theorem judgeBatch_lastAdmitted (key : BookKey) :
    ((judgeBatch books key b publisher synthesized).2.isEmitted = true →
      (judgeBatch books key b publisher synthesized).1.lastAdmitted key = some publisher) ∧
    ((judgeBatch books key b publisher synthesized).2.isEmitted = false →
      (judgeBatch books key b publisher synthesized).1.lastAdmitted key = books.lastAdmitted key) ∧
    ∀ k, k ≠ key → (judgeBatch books key b publisher synthesized).1.lastAdmitted k = books.lastAdmitted k ∨
      (judgeBatch books key b publisher synthesized).1.lastAdmitted k = none := by
  cases synthesized with
  | true =>
    obtain ⟨hsame, hemit⟩ := admitSynthesized_lastAdmitted books key publisher
    exact ⟨fun h => (hsame key).trans (hemit h), fun _ => hsame key, fun k _ => Or.inl (hsame k)⟩
  | false => exact admitBatch_lastAdmitted books key publisher b.recvTsNs

end Authority

/-! ## One batch through the single-path gate -/

/-- What a seamless handover has checked: the wire's book and the incoming path's own are whole and rest
the same. -/
structure Seamless (v : View) (m : BookMarket) (publisher : Transport) (served incoming : BookAccumulator) :
    Prop where
  replay : v.replay = some served
  path : m.paths.get publisher = some incoming
  servedWhole : served.baselined = true ∧ served.pending = []
  incomingWhole : incoming.baselined = true ∧ incoming.pending = []
  same : served.toResting = incoming.toResting

theorem seamlessHandover_spec {venue category : String} {publisher : Transport} {m : BookMarket}
    (hm : (a.view key).market = some m)
    (h : a.seamlessHandover key venue category publisher = true) :
    ∃ served incoming, Seamless (a.view key) m publisher served incoming := by
  have hm' : a.bookMarkets.get key = some m := hm
  unfold seamlessHandover at h
  simp only [hm'] at h
  split at h
  · split at h
    · rename_i replay market hr hmk
      obtain rfl : m = market := Option.some.inj hmk
      split at h
      · rename_i incoming served hpath hserved
        split at h
        · cases h
        · split at h
          · cases h
          · rename_i hwhole
            simp only [Bool.or_eq_true, Bool.not_eq_true', not_or, Bool.and_eq_false_iff,
              BookAccumulator.pendingEmpty, Bool.not_eq_false] at hwhole
            obtain ⟨⟨⟨hs, hi⟩, -⟩, -⟩ := hwhole
            refine ⟨served, incoming, ?_, hpath, ?_, ?_, BookAccumulator.sameState_iff.mp h⟩
            · show a.replayEntry key = some served
              unfold replayEntry
              rw [hr]
              exact hserved
            · exact ⟨hs.1, List.isEmpty_iff.mp hs.2⟩
            · exact ⟨hi.1, List.isEmpty_iff.mp hi.2⟩
      · cases h
    · cases h
  · cases h

/-- **Everything one batch through the single-path gate does to its market.**  `v` is the market once
tracked and `m` its state: the batch is dropped, or withheld behind a re-baseline, or discharges one, or
continues what the consumer holds. -/
inductive Served (v : View) (m : BookMarket) (key : BookKey) (b : NormalizedBook) (publisher : Transport)
    (wall : Nat) : View → List NormalizedBook → Prop
  | dropped (forced : Bool) (hforced : v.admitted = some publisher → b.changes ≠ [] → forced = true) :
      Served v m key b publisher wall
        { v with market := some { m.accumulate publisher b with rebaseline := m.rebaseline || forced } } []
  | withheld (hlast : b.last = false) (hcap : m.withheld < MAX_WITHHELD_BATCHES) :
      Served v m key b publisher wall
        { v with
          market := some { m.accumulate publisher b with rebaseline := true, withheld := m.withheld + 1 }
          admitted := some publisher } []
  | rebaselined (w : Option Nat) (out : List NormalizedBook)
      (hlast : b.last = true ∨ MAX_WITHHELD_BATCHES ≤ m.withheld)
      (hout : ((m.folded publisher b).baselined = true ∧
          ∃ slot, out = [{ (m.folded publisher b).toBook key wall with batchId := slot }]) ∨
        ((m.folded publisher b).baselined = false ∧
          ∃ slot slot', out = [{ clearOnly b wall with batchId := slot }, { b with batchId := slot' }])) :
      Served v m key b publisher wall
        { v with
          market := some { m.accumulate publisher b with rebaseline := false, withheld := 0, wireSlot := w }
          replay := if v.wired then some (m.folded publisher b) else none
          admitted := some publisher } out
  | steady (w slot : Option Nat) (hflag : m.rebaseline = false)
      (hcont : v.admitted = some publisher ∨ ∃ served incoming, Seamless v m publisher served incoming) :
      Served v m key b publisher wall
        (({ v with
            market := some { m.accumulate publisher b with wireSlot := w }
            admitted := some publisher } : View).applied b) [{ b with batchId := slot }]

/-- The re-baseline of a market whose path has folded the batch. -/
theorem rebaselineNow_view {m : BookMarket} {acc : BookAccumulator} {publisher : Transport}
    (hm : (a.view key).market = some m) (hacc : m.paths.get publisher = some acc) (b : NormalizedBook)
    (wall : Nat) : ∃ w, (a.rebaselineNow key b publisher wall).1.view key =
        { a.view key with
          market := some { m with wireSlot := w }
          replay := if a.bookReplay.isSome then some acc else none } ∧
      ((acc.baselined = true ∧ ∃ slot,
          (a.rebaselineNow key b publisher wall).2 = [{ acc.toBook key wall with batchId := slot }]) ∨
        (acc.baselined = false ∧ ∃ slot slot', (a.rebaselineNow key b publisher wall).2 =
          [{ clearOnly b wall with batchId := slot }, { b with batchId := slot' }])) := by
  obtain ⟨hview, hbook⟩ := view_rebaselineBook_self hm hacc wall
  have hm₁ : ((a.rebaselineBook key publisher wall).1.view key).market = some m := by rw [hview]; exact hm
  unfold rebaselineNow
  split
  · rename_i a₁ full heq
    rw [heq] at hview hbook hm₁
    obtain ⟨w, hw⟩ := view_monotonicSlot_self hm₁ full.batchId
    refine ⟨w, ?_, Or.inl ?_⟩
    · rw [hw, hview]
    · cases hb : acc.baselined with
      | false => rw [hb] at hbook; cases hbook
      | true =>
        rw [hb] at hbook
        cases hbook
        exact ⟨rfl, _, rfl⟩
  · rename_i a₁ heq
    rw [heq] at hview hbook hm₁
    obtain ⟨w, hw⟩ := view_monotonicSlot_self hm₁ b.batchId
    have hm₂ : ((a₁.monotonicSlot key b.batchId).1.view key).market = some { m with wireSlot := w } := by
      rw [hw]
    obtain ⟨w', hw'⟩ := view_monotonicSlot_self hm₂ b.batchId
    refine ⟨w', ?_, Or.inr ?_⟩
    · rw [hw', hw, hview]
    · cases hb : acc.baselined with
      | true => rw [hb] at hbook; cases hbook
      | false => exact ⟨rfl, _, _, rfl⟩

theorem publishSteady_view {m : BookMarket} (hm : (a.view key).market = some m) (b : NormalizedBook) :
    ∃ w slot, (a.publishSteady key b).1.view key =
        ({ a.view key with market := some { m with wireSlot := w } } : View).applied b ∧
      (a.publishSteady key b).2 = [{ b with batchId := slot }] := by
  have happ := view_applyBookReplay_self a key b
  have hm₁ : ((a.applyBookReplay key b).view key).market = some m := by
    rw [happ, View.applied_market]
    exact hm
  obtain ⟨w, hw⟩ := view_monotonicSlot_self hm₁ b.batchId
  refine ⟨w, _, ?_, rfl⟩
  show ((a.applyBookReplay key b).monotonicSlot key b.batchId).1.view key = _
  rw [hw, happ]
  unfold View.applied
  simp only [hm, Option.isSome_some, Bool.and_true]
  split
  · rfl
  · rfl

/-- The admitted half of the gate, on a market whose path has folded the batch. -/
theorem publishAdmitted_served {v : View} {m : BookMarket} {publisher : Transport} {b : NormalizedBook}
    {moved : Bool} {wall : Nat}
    (hview : a.view key = { v with
      market := some (m.accumulate publisher b), admitted := some publisher })
    (hmoved : moved = false → v.admitted = some publisher ∨
      ∃ served incoming, Seamless v m publisher served incoming) :
    Served v m key b publisher wall ((a.publishAdmitted key b publisher moved wall).1.view key)
      (a.publishAdmitted key b publisher moved wall).2 := by
  have hm : a.bookMarkets.get key = some (m.accumulate publisher b) := congrArg View.market hview
  have hwired : a.bookReplay.isSome = v.wired := congrArg View.wired hview
  unfold publishAdmitted
  simp only [hm]
  split
  · split
    · rename_i hw
      simp only [Bool.and_eq_true, Bool.not_eq_true', decide_eq_true_eq] at hw
      rw [view_setMarket_self, hview]
      exact .withheld hw.1 hw.2
    · rename_i hw
      simp only [Bool.and_eq_true, Bool.not_eq_true', decide_eq_true_eq, not_and, Nat.not_lt] at hw
      have hlast : b.last = true ∨ MAX_WITHHELD_BATCHES ≤ m.withheld := by
        cases hl : b.last with
        | true => exact Or.inl rfl
        | false => exact Or.inr (hw hl)
      have hset := view_setMarket_self a key
        { m.accumulate publisher b with rebaseline := false, withheld := 0 }
      have hacc : ({ m.accumulate publisher b with rebaseline := false, withheld := 0 } : BookMarket).paths.get
          publisher = some (m.folded publisher b) := FinMap.get_insert_self _ _ _
      obtain ⟨w, hv, hout⟩ := rebaselineNow_view (congrArg View.market hset) hacc b wall
      rw [hv, hset, hview]
      rw [show (a.setMarket key { m.accumulate publisher b with
        rebaseline := false, withheld := 0 }).bookReplay.isSome = v.wired from hwired]
      exact .rebaselined w _ hlast hout
  · rename_i hflag
    simp only [Bool.or_eq_true, not_or, Bool.not_eq_true] at hflag
    obtain ⟨w, slot, hv, hout⟩ := publishSteady_view (congrArg View.market hview) b
    rw [hv, hout, hview]
    exact .steady w slot hflag.1 (hmoved hflag.2)

/-- **The single-path gate on its own market.** -/
theorem emitServed_served (hs : (a.view key).Sound) (b : NormalizedBook) (publisher : Transport)
    (synthesized : Bool) (wall : Nat) : ∃ m, (a.view key).tracked.market = some m ∧
      Served (a.view key).tracked m key b publisher wall
        ((a.emitServed key b publisher synthesized wall).1.view key)
        (a.emitServed key b publisher synthesized wall).2 := by
  obtain ⟨m, hm, -⟩ := (a.view key).tracked_market
  refine ⟨m, hm, ?_⟩
  have htr := view_ensureMarket hs
  unfold emitServed
  simp only
  generalize a.ensureMarket key = a₁ at htr ⊢
  rw [← htr] at hm ⊢
  have hnote := noteBatch_lastAdmitted b publisher synthesized a₁ key
  generalize a₁.noteBatch key b publisher synthesized = books at hnote ⊢
  obtain ⟨hemit, hdrop, -⟩ := judgeBatch_lastAdmitted books b publisher synthesized key
  generalize judgeBatch books key b publisher synthesized = judged at hemit hdrop ⊢
  obtain ⟨books', decision⟩ := judged
  simp only at hemit hdrop ⊢
  have hview : (({ a₁ with books := books' } : Arbiter).accumulateBook key publisher b).view key =
      { a₁.view key with
        market := some (m.accumulate publisher b), admitted := books'.lastAdmitted key } :=
    view_accumulateBook_self (a := { a₁ with books := books' }) hm publisher b
  generalize ({ a₁ with books := books' } : Arbiter).accumulateBook key publisher b = a₂ at hview ⊢
  cases hd : decision.isEmitted with
  | true =>
    rw [hemit hd] at hview
    simp only [if_true]
    refine publishAdmitted_served hview fun hmoved => ?_
    simp only [Bool.true_and, Bool.and_eq_false_iff, Bool.not_eq_false', decide_eq_false_iff_not,
      not_not, Bool.and_eq_true] at hmoved
    rcases hmoved with h | ⟨-, h⟩
    · left
      rw [← h]
      exact (hnote key).symm
    · obtain ⟨served, incoming, hsl⟩ := seamlessHandover_spec (a := { a₁ with books := books' }) hm h
      exact Or.inr ⟨served, incoming, ⟨hsl.replay, hsl.path, hsl.servedWhole, hsl.incomingWhole, hsl.same⟩⟩
  | false =>
    rw [hdrop hd, hnote key] at hview
    simp only [Bool.false_eq_true, if_false]
    have hdropped : ∀ forced : Bool, ((a₁.view key).admitted = some publisher → b.changes ≠ [] →
        forced = true) → Served (a₁.view key) m key b publisher wall { a₁.view key with
          market := some { m.accumulate publisher b with rebaseline := m.rebaseline || forced } } [] :=
      fun forced h => .dropped forced h
    split
    · rw [view_forceRebaseline_self (by rw [hview]), hview]
      have h := hdropped true fun _ _ => rfl
      rw [Bool.or_true] at h
      exact h
    · rename_i hno
      rw [hview]
      have h := hdropped false fun hadm hne => absurd ⟨(hnote key).trans hadm, hne⟩ hno
      rw [Bool.or_false] at h
      exact h

/-! ## Every other market -/

section Frames

variable (b : NormalizedBook) (publisher : Transport)

theorem view_rebaselineNow_ne (wall : Nat) (hk : k ≠ key) :
    (a.rebaselineNow key b publisher wall).1.view k = a.view k := by
  have h := view_rebaselineBook_ne (a := a) publisher wall hk
  unfold rebaselineNow
  split
  · rename_i a₁ full heq
    rw [heq] at h
    exact (view_monotonicSlot_ne _ hk).trans h
  · rename_i a₁ heq
    rw [heq] at h
    exact (view_monotonicSlot_ne _ hk).trans ((view_monotonicSlot_ne _ hk).trans h)

theorem view_publishSteady_ne (hk : k ≠ key) : (a.publishSteady key b).1.view k = a.view k :=
  (view_monotonicSlot_ne _ hk).trans (view_applyBookReplay_ne _ hk)

theorem view_publishAdmitted_ne (moved : Bool) (wall : Nat) (hk : k ≠ key) :
    (a.publishAdmitted key b publisher moved wall).1.view k = a.view k := by
  unfold publishAdmitted
  split
  · exact view_publishSteady_ne _ hk
  · split
    · split
      · exact view_setMarket_ne _ hk
      · exact (view_rebaselineNow_ne _ _ _ hk).trans (view_setMarket_ne _ hk)
    · exact view_publishSteady_ne _ hk

theorem fades_emitServed (synthesized : Bool) (wall : Nat) (hk : k ≠ key) :
    (a.view k).Fades ((a.emitServed key b publisher synthesized wall).1.view k) := by
  have htr := fades_ensureMarket (a := a) hk
  unfold emitServed
  simp only
  generalize a.ensureMarket key = a₁ at htr ⊢
  have hnote := noteBatch_lastAdmitted b publisher synthesized a₁ key
  generalize a₁.noteBatch key b publisher synthesized = books at hnote ⊢
  obtain ⟨-, -, hothers⟩ := judgeBatch_lastAdmitted books b publisher synthesized key
  generalize judgeBatch books key b publisher synthesized = judged at hothers ⊢
  obtain ⟨books', decision⟩ := judged
  simp only at hothers ⊢
  have hbooks : (a₁.view k).Fades (({ a₁ with books := books' } : Arbiter).view k) := by
    refine .of_admitted rfl rfl ?_ rfl
    show books'.lastAdmitted k = a₁.books.lastAdmitted k ∨ books'.lastAdmitted k = none
    rw [← hnote k]
    exact hothers k hk
  have hacc := htr.trans (hbooks.trans (fades_accumulateBook publisher b hk))
  split
  · rw [view_publishAdmitted_ne _ _ _ _ hk]
    exact hacc
  · split
    · rw [view_forceRebaseline_ne hk]
      exact hacc
    · exact hacc

theorem view_clockFor (a : Arbiter) (ck : ChannelKey) (k : BookKey) : (a.clockFor ck).1.view k = a.view k := by
  unfold clockFor
  split
  · rfl
  · rfl

theorem view_rebaselineEvents (a : Arbiter) (key : BookKey) (changes : List BookChange) (seedTs : Nat)
    (k : BookKey) : (a.rebaselineEvents key changes seedTs).view k = a.view k := rfl

theorem view_shedOverBudget (a : Arbiter) (key k : BookKey) : (a.shedOverBudget key).view k = a.view k := by
  unfold shedOverBudget
  split
  · simp only
    split
    · rfl
    · rfl
  · rfl

theorem view_refuseAncient (a : Arbiter) (key : BookKey) (frontier : Option Nat) (k : BookKey) :
    (a.refuseAncient key frontier).view k = a.view k := by
  unfold refuseAncient
  split
  · rfl
  · rfl

theorem fades_noteBookDelivery (now : Nat) (hk : k ≠ key) :
    (a.view k).Fades ((a.noteBookDelivery key b publisher now).view k) := by
  have h := fades_ensureMarket (a := a) hk
  unfold noteBookDelivery
  simp only
  generalize a.ensureMarket key = a₁ at h ⊢
  split
  · split
    · exact h
    · rename_i m hm
      have hset : (a₁.setMarket key { m with orderLevel := true }).view k = a₁.view k :=
        view_setMarket_ne _ hk
      rw [← hset] at h
      exact h
  · exact h

theorem fades_publishBook (hk : k ≠ key) : (a.view k).Fades ((a.publishBook key b).1.view k) := by
  unfold publishBook
  rw [view_applyBookReplay_ne _ hk]
  exact fades_ensureMarket hk

theorem fades_clearLedRebaseline (now : Nat) (hk : k ≠ key) :
    (a.view k).Fades ((a.clearLedRebaseline key b publisher now).1.view k) := by
  have hpub : ∀ a' : Arbiter, a'.view k = a.view k →
      (a.view k).Fades (((a'.noteBookDelivery key b publisher now).publishBook key b).1.view k) := by
    intro a' ha
    rw [← ha]
    exact (fades_noteBookDelivery b publisher now hk).trans (fades_publishBook b hk)
  unfold clearLedRebaseline
  simp only
  split
  · exact hpub _ rfl
  · exact hpub _ (view_setMarket_ne _ hk)

theorem view_dischargeForced_ne (wall : Nat) (hk : k ≠ key) :
    (a.dischargeForced key b wall).1.view k = a.view k := by
  unfold dischargeForced
  simp only
  split
  · rfl
  · exact view_applyBookReplay_ne _ hk

theorem view_serveForcedRebaseline_ne (now wall : Nat) (hk : k ≠ key) :
    (a.serveForcedRebaseline key b now wall).1.view k = a.view k := by
  unfold serveForcedRebaseline
  split
  · exact view_dischargeForced_ne _ _ hk
  · simp only
    split
    · exact view_setMarket_ne _ hk
    · exact (view_dischargeForced_ne _ _ hk).trans (view_setMarket_ne _ hk)

theorem fades_publishKept (now : Nat) (forced : Bool) (kept : List BookChange) (hk : k ≠ key) :
    (a.view k).Fades ((a.publishKept key b publisher now forced kept).1.view k) := by
  have hforce : (if forced then a.forceRebaseline key else a).view k = a.view k := by
    split
    · exact view_forceRebaseline_ne hk
    · rfl
  unfold publishKept
  simp only
  generalize (if forced then a.forceRebaseline key else a) = a₁ at hforce ⊢
  rw [← hforce]
  split
  · exact .refl _
  · exact (fades_noteBookDelivery _ _ _ hk).trans (fades_publishBook _ hk)

theorem fades_raceAccepted (now : Nat) (j : Judged) (hk : k ≠ key) :
    (a.view k).Fades ((a.raceAccepted key b publisher now j).1.view k) := by
  unfold raceAccepted
  generalize a.raceEvents key b publisher j = r
  obtain ⟨e, guard, kept⟩ := r
  have hview : ({ a with
      bookEvents := a.bookEvents.insert key { e with forced := none }, guard := guard } : Arbiter).view k =
        a.view k := rfl
  rw [← hview]
  exact fades_publishKept b publisher now e.forced.isSome kept hk

theorem fades_raceBatch (now wall : Nat) (hk : k ≠ key) :
    (a.view k).Fades ((a.raceBatch key b publisher now wall).1.view k) := by
  have hclock := view_clockFor a (channelKey key) k
  unfold raceBatch
  generalize a.clockFor (channelKey key) = r at hclock ⊢
  obtain ⟨a₁, clock⟩ := r
  simp only at hclock ⊢
  split
  · rw [view_refuseAncient, ← hclock]
    exact .refl _
  · rw [← hclock]
    exact fades_raceAccepted b publisher now _ hk

theorem fades_emitOrderLevelBook (now wall : Nat) (hk : k ≠ key) :
    (a.view k).Fades ((a.emitOrderLevelBook key b publisher now wall).1.view k) := by
  unfold emitOrderLevelBook
  split
  · split
    · exact .refl _
    · exact fades_clearLedRebaseline b publisher now hk
  · have hserve : ((if (a.bookMarkets.get key).any (·.rebaseline) then
        a.serveForcedRebaseline key b now wall else (a, [], true)).1).view k = a.view k := by
      split
      · exact view_serveForcedRebaseline_ne _ _ _ hk
      · rfl
    generalize (if (a.bookMarkets.get key).any (·.rebaseline) then
        a.serveForcedRebaseline key b now wall else (a, [], true)) = r at hserve ⊢
    obtain ⟨a₁, out, go⟩ := r
    simp only at hserve ⊢
    split
    · rw [view_shedOverBudget, ← hserve]
      exact fades_raceBatch b publisher now wall hk
    · rw [hserve]
      exact .refl _

/-- A batch of an ineligible path changes nothing and broadcasts nothing; any other goes to one of the two
gates with nothing of any market changed yet. -/
theorem emitScoped_cases (category : String) (synthesized : Bool) (now wall : Nat) :
    ((∀ k, (a.emitScoped b publisher category synthesized now wall).1.view k = a.view k) ∧
      (a.emitScoped b publisher category synthesized now wall).2 = []) ∨
    ∃ a₁ : Arbiter, (∀ k, a₁.view k = a.view k) ∧
      a.emitScoped b publisher category synthesized now wall =
        if a₁.orderLevelRoute (keyOf b category) b then
          a₁.emitOrderLevelBook (keyOf b category) b publisher now wall
        else a₁.emitServed (keyOf b category) b publisher synthesized wall := by
  have hmarkets := pathOrdinal_markets a.books (scopeOf (keyOf b category)) publisher
  have hview : ∀ books : StickyAuthority, books.markets = a.books.markets →
      ∀ k, ({ a with books := books } : Arbiter).view k = a.view k := by
    intro books hb k
    rw [view_books, lastAdmitted_of_markets hb k]
    rfl
  unfold emitScoped
  simp only
  split
  · rename_i books heq
    rw [heq] at hmarkets
    exact Or.inl ⟨hview books hmarkets, rfl⟩
  · rename_i books label heq
    rw [heq] at hmarkets
    exact Or.inr ⟨{ a with books := books }, hview books hmarkets, rfl⟩

end Frames

/-- The market is left alone, forgets its last path, is dropped whole, or starts being tracked. -/
def View.Idles (v v' : View) : Prop := View.Fades v v' ∨ v' = v.tracked

theorem fades_resetBooksForMarkets (a : Arbiter) (keys : List BookKey) (k : BookKey) :
    (a.view k).Fades ((a.resetBooksForMarkets keys).view k) := by
  have hfold : ∀ (keys : List BookKey) (a : Arbiter),
      (a.view k).Fades ((keys.foldl dropMarketState a).view k) := by
    intro keys
    induction keys with
    | nil => intro a; exact .refl _
    | cons key keys ih => intro a; exact (fades_dropMarketState a key k).trans (ih _)
  exact hfold keys a

theorem idles_setBookSynced (hs : (a.view k).Sound) (publisher : Transport) (synced : Bool) :
    (a.view k).Idles ((a.setBookSynced key publisher synced).view k) := by
  have hmarkets := pathOrdinal_markets a.books (scopeOf key) publisher
  have hview : ∀ books : StickyAuthority, books.markets = a.books.markets →
      ({ a with books := books } : Arbiter).view k = a.view k := by
    intro books hb
    rw [view_books, lastAdmitted_of_markets hb k]
    rfl
  unfold setBookSynced
  split
  · rename_i books heq
    rw [heq] at hmarkets
    rw [hview books hmarkets]
    exact Or.inl (.refl _)
  · rename_i books label heq
    rw [heq] at hmarkets
    have h := hview books hmarkets
    show (a.view k).Idles ((({ a with books := books } : Arbiter).ensureMarket key).view k)
    rw [← h] at hs ⊢
    by_cases hk : k = key
    · subst hk
      exact Or.inr (view_ensureMarket hs)
    · exact Or.inl (fades_ensureMarket hk)

/-- **A market a call emits no batch for idles.** -/
theorem step_idles (hs : (a.view k).Sound) (c : Call) (hc : c.market ≠ some k) :
    (a.view k).Idles ((step a c).1.view k) := by
  have hbooks : ∀ books : StickyAuthority, Keeps a.books books →
      (a.view k).Idles (({ a with books := books } : Arbiter).view k) :=
    fun books h => Or.inl (.of_admitted rfl rfl (h k) rfl)
  cases c with
  | emit b publisher category synthesized now wall =>
    have hk : k ≠ keyOf b category := fun h => hc (congrArg some h.symm)
    rcases emitScoped_cases (a := a) b publisher category synthesized now wall with
      ⟨hview, -⟩ | ⟨a₁, hview, heq⟩
    · exact Or.inl (.of_eq (hview k))
    · left
      show (a.view k).Fades ((a.emitScoped b publisher category synthesized now wall).1.view k)
      rw [heq, ← hview k]
      split
      · exact fades_emitOrderLevelBook b publisher now wall hk
      · exact fades_emitServed b publisher synthesized wall hk
  | setBookHealth key publisher healthy => exact hbooks _ (setHealth_keeps a.books key publisher healthy)
  | setBookSynced key publisher synced => exact idles_setBookSynced hs publisher synced
  | observeMatchedLead scope path leadNs =>
    exact hbooks _ (.of_markets (observeMatchedLead_markets _ _ _ _))
  | closeAuthorityWindows iter wall => exact hbooks _ (.of_markets rfl)
  | resetBookForMarket key => exact Or.inl (fades_resetBooksForMarkets a [key] k)
  | resetBookEventsForMarket key =>
    exact Or.inl (.of_eq (view_dropBookEvents a key k))
  | resetBookSessionForMarket key now =>
    left
    have h := view_dropBookEvents a key k
    show (a.view k).Fades ((a.resetBookSessionForMarket key now).view k)
    rw [← h]
    unfold resetBookSessionForMarket
    simp only
    split
    · exact .refl _
    · exact .refl _
  | forgetChannelBooks venue category channel => exact Or.inl (fades_resetBooksForMarkets a _ k)
  | forgetPublisherBooks category publisher => exact Or.inl (.refl _)

end EdgeConnect.Arbiter
