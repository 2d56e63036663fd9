import EdgeConnect.Ingest.ArbiterSinglePath
import EdgeConnect.Ingest.ArbiterOrderLevel
import EdgeConnect.Model.Resume

/-!
# The replay map is what was broadcast

A consumer that folds every batch the arbiter broadcast for a market holds the replay entry of that market,
open event included.

* `Mirrors` — what every call keeps: valid books, and an entry that tracks the consumer;
* `replay_is_what_was_broadcast` — for every run, market by market: either no batch of the market carries an
  order id and no re-baseline of it is abandoned half-way, or every batch of it closes its event;
* `abandoned_rebaseline_opens_an_event` — an abandoned re-baseline leaves the entry with an open event the
  consumer was never told.
-/

set_option autoImplicit false

namespace EdgeConnect

namespace Arbiter

open EventBook

/-! ## What every market keeps -/

/-- Every book of the market is valid, and its replay entry tracks the consumer. -/
structure Mirrors (c : EventBook) (v : View) : Prop where
  sound : v.Sound
  paths : ∀ m p acc, v.market = some m → m.paths.get p = some acc → acc.Valid
  wired : v.wired = false → v.replay = none
  replay : ∀ r, v.replay = some r → r.Valid ∧ Tracks c r.core

variable {c : EventBook} {v v' : View} {m : BookMarket} {key : BookKey} {b : NormalizedBook}
  {publisher : Transport} {wall : Nat} {out : List NormalizedBook}

theorem Mirrors.idles (h : Mirrors c v) (hi : v.Idles v') : Mirrors c v' := by
  rcases hi with (rfl | rfl | rfl) | rfl
  · exact ⟨fun _ => ⟨rfl, rfl⟩, nofun, fun _ => rfl, nofun⟩
  · exact h
  · exact ⟨fun hm => ⟨(h.sound hm).1, rfl⟩, h.paths, h.wired, h.replay⟩
  · cases hm : v.market with
    | some m => rw [View.tracked_of_market hm]; exact h
    | none =>
      have htr : v.tracked = .fresh v.wired := by unfold View.tracked; rw [hm]; rfl
      rw [htr]
      refine ⟨nofun, fun m p acc hm hacc => ?_, fun _ => rfl, nofun⟩
      cases hm
      cases hacc

theorem Mirrors.folded (h : Mirrors c v) (hm : v.market = some m) : (m.folded publisher b).Valid := by
  unfold BookMarket.folded
  cases hp : m.paths.get publisher with
  | none => exact (BookAccumulator.Valid.new b.symbol).apply b
  | some acc => exact (h.paths m publisher acc hm hp).apply b

theorem Mirrors.accumulate (h : Mirrors c v) (hm : v.market = some m) :
    ∀ p acc, (m.accumulate publisher b).paths.get p = some acc → acc.Valid := by
  intro p acc hacc
  unfold BookMarket.accumulate at hacc
  rw [FinMap.get_insert] at hacc
  split at hacc
  · cases hacc; exact h.folded hm
  · exact h.paths m p acc hm hacc

/-- A market without its entry: no replay map is wired, or the market is not tracked. -/
theorem Mirrors.unapplied (h : Mirrors c v) (hw : ¬ (v.wired && v.market.isSome) = true) :
    v.replay = none := by
  rw [Bool.and_eq_true, not_and_or, Bool.not_eq_true, Bool.not_eq_true, Option.isSome_eq_false_iff,
    Option.isNone_iff_eq_none] at hw
  rcases hw with hw | hm
  · exact h.wired hw
  · exact (h.sound hm).1

/-- A message said and folded by the entry. -/
theorem Mirrors.applied (h : Mirrors c v) (hstart : v.wired = true → v.replay = none → c.pending = [])
    (msg : NormalizedBook) : Mirrors (c.feed msg.changes msg.last) (v.applied msg) := by
  by_cases hw : (v.wired && v.market.isSome) = true
  · have happ : v.applied msg =
        { v with replay := some ((v.replay.getD (.new msg.symbol)).apply msg) } := if_pos hw
    rw [happ]
    rw [Bool.and_eq_true] at hw
    refine ⟨fun hm => ?_, h.paths, fun hn => ?_, fun r hr => ?_⟩
    · rw [show v.market = none from hm] at hw
      cases hw.2
    · rw [show v.wired = false from hn] at hw
      cases hw.1
    · cases hr
      cases hrep : v.replay with
      | none =>
        refine ⟨(BookAccumulator.Valid.new msg.symbol).apply msg, ?_⟩
        rw [Option.getD_none, BookAccumulator.core_apply]
        exact (Tracks.new (hstart hw.1 hrep) msg.symbol).feed msg.changes msg.last
      | some r =>
        obtain ⟨hv, ht⟩ := h.replay r hrep
        refine ⟨hv.apply msg, ?_⟩
        rw [Option.getD_some, BookAccumulator.core_apply]
        exact ht.feed msg.changes msg.last
  · have happ : v.applied msg = v := if_neg hw
    have hnone := h.unapplied hw
    rw [happ]
    refine ⟨h.sound, h.paths, h.wired, fun r hr => ?_⟩
    rw [hnone] at hr
    cases hr

/-- **One batch through the single-path gate keeps it.**  `hwithheld` says that no re-baseline is abandoned
half-way, `hstart` that an entry the batch creates has no event to miss. -/
theorem Mirrors.batch (h : Mirrors c v) (hm : v.market = some m)
    (hwithheld : b.last = false → m.withheld < MAX_WITHHELD_BATCHES)
    (hstart : m.rebaseline = false →
      (v.admitted = some publisher ∨ ∃ served incoming, Seamless v m publisher served incoming) →
        v.wired = true → v.replay = none → c.pending = [])
    (hs : Served v m key b publisher wall v' out) : Mirrors (c.feedAll out) v' := by
  have hacc : ∀ p acc, (m.accumulate publisher b).paths.get p = some acc → acc.Valid := h.accumulate hm
  cases hs with
  | dropped forced hforced =>
    refine ⟨nofun, fun m' p acc hm' => ?_, h.wired, h.replay⟩
    cases hm'
    exact hacc p acc
  | withheld hlast hcap =>
    refine ⟨nofun, fun m' p acc hm' => ?_, h.wired, h.replay⟩
    cases hm'
    exact hacc p acc
  | rebaselined w out hlast hout =>
    have hfold : (m.folded publisher b).Valid := h.folded hm
    have hclosed : b.last = true := by
      cases hl : b.last with
      | true => rfl
      | false =>
        have hlt := hwithheld hl
        rcases hlast with hlast | hlast
        · rw [hl] at hlast; cases hlast
        · exact absurd hlt (Nat.not_lt.mpr hlast)
    have hpending : (m.folded publisher b).core.pending = [] := by
      unfold BookMarket.folded
      rw [BookAccumulator.core_apply, hclosed]
      rfl
    refine ⟨nofun, fun m' p acc hm' => ?_, fun hw => ?_, fun r hr => ?_⟩
    · cases hm'
      exact hacc p acc
    · exact if_neg (by rw [show v.wired = false from hw]; exact Bool.false_ne_true)
    · have hr' : r = m.folded publisher b := by
        simp only at hr
        split at hr
        · exact (Option.some.inj hr).symm
        · cases hr
      subst hr'
      refine ⟨hfold, ?_⟩
      rcases hout with ⟨-, slot, rfl⟩ | ⟨hbase, slot, slot', rfl⟩
      · -- the path's whole book: the consumer holds it again
        have hfeed : c.feedAll [{ (m.folded publisher b).toBook key wall with batchId := slot }] =
            ⟨(m.folded publisher b).toResting, [], true⟩ := EventBook.feed_toBook hfold c
        rw [hfeed]
        exact ⟨hpending, fun _ => rfl⟩
      · -- a bare clear and the batch itself, under an entry that is not complete
        have hfeed : c.feedAll [{ clearOnly b wall with batchId := slot }, { b with batchId := slot' }] =
            (c.feed [BookAccumulator.clearBoth] true).feed b.changes b.last := rfl
        rw [hfeed, hclosed]
        refine ⟨hpending, fun hc => ?_⟩
        rw [show (m.folded publisher b).core.complete = false from hbase] at hc
        cases hc
  | steady w slot hflag hcont =>
    have hbefore : Mirrors c { v with
        market := some { m.accumulate publisher b with wireSlot := w }, admitted := some publisher } := by
      refine ⟨nofun, fun m' p acc hm' => ?_, h.wired, h.replay⟩
      cases hm'
      exact hacc p acc
    exact hbefore.applied (hstart hflag hcont) b

/-- Whether the consumer was ever given a whole book does not matter to its entry. -/
theorem Mirrors.of_same {c' : EventBook} (h : Mirrors c v) (hp : c'.pending = c.pending)
    (hr : c'.rests = c.rests) : Mirrors c' v := by
  refine ⟨h.sound, h.paths, h.wired, fun r hrep => ?_⟩
  obtain ⟨hv, ht⟩ := h.replay r hrep
  exact ⟨hv, ht.pending.trans hp.symm, fun hc => (ht.rests hc).trans hr.symm⟩

theorem Mirrors.quiet (h : Mirrors c v) (hq : Quiet v v') : Mirrors c v' := by
  refine ⟨fun hm' => ?_, fun m' p acc hm' hacc => ?_, fun hw => ?_, fun r hr => ?_⟩
  · have hm : v.market = none := by
      cases hm : v.market with
      | none => rfl
      | some m =>
        have := hq.tracked (by rw [hm]; rfl)
        rw [hm'] at this
        cases this
    rw [hq.replay, hq.admitted]
    exact h.sound hm
  · rcases hq.market m' hm' with ⟨m, hm, hp, -⟩ | ⟨-, hp⟩
    · rw [hp] at hacc
      exact h.paths m p acc hm hacc
    · rw [hp] at hacc
      cases hacc
  · rw [hq.wired] at hw
    rw [hq.replay]
    exact h.wired hw
  · rw [hq.replay] at hr
    exact h.replay r hr

/-- **The order-level race keeps it**, when every batch closes its event. -/
theorem Mirrors.told {key : BookKey} (hlast : b.last = true) (ht : Told key b wall v v' out) :
    ∀ {c : EventBook}, Mirrors c v → c.pending = [] →
      Mirrors (c.feedAll out) v' ∧ (c.feedAll out).pending = [] := by
  induction ht with
  | silent hq =>
    intro c h hc
    exact ⟨h.quiet hq, hc⟩
  | repeated hq r hr hb =>
    intro c h hc
    obtain ⟨hv, ht⟩ := h.replay r hr
    have hfeed : c.feedAll [r.toBook key wall] = ⟨r.toResting, [], true⟩ := EventBook.feed_toBook hv c
    have hsame : Mirrors ⟨r.toResting, [], true⟩ _ := h.of_same hc.symm (ht.rests hb)
    rw [hfeed]
    exact ⟨hsame.quiet hq, rfl⟩
  | said hq htr msg hmsg =>
    intro c h hc
    have hl : msg.last = true := hmsg hlast
    refine ⟨(h.quiet hq).applied (fun _ _ => hc) msg, ?_⟩
    show (c.feed msg.changes msg.last).pending = []
    rw [hl]
    rfl
  | next _ _ ih ih' =>
    intro c h hc
    rw [feedAll_append]
    obtain ⟨h', hc'⟩ := ih h hc
    exact ih' h' hc'

/-- A batch that closes its event leaves the consumer with none. -/
theorem Served.closed (hs : Served v m key b publisher wall v' out) (hlast : b.last = true)
    (hc : c.pending = []) : (c.feedAll out).pending = [] := by
  cases hs with
  | dropped => exact hc
  | withheld hl =>
    rw [hlast] at hl
    cases hl
  | rebaselined w out hl hout =>
    rcases hout with ⟨-, slot, rfl⟩ | ⟨-, slot, slot', rfl⟩
    · rfl
    · show ((c.feed [BookAccumulator.clearBoth] true).feed b.changes b.last).pending = []
      rw [hlast]
      rfl
  | steady w slot =>
    show (c.feed b.changes b.last).pending = []
    rw [hlast]
    rfl

/-! ## Every run -/

/-- A call that closes the event of every batch it emits for a market. -/
def Call.Closes (k : BookKey) : Call → Prop
  | .emit b _ category _ _ _ => keyOf b category = k → b.last = true
  | _ => True

/-- A call that emits no batch that would abandon a market's pending re-baseline half-way. -/
def Call.Withholds (k : BookKey) (a : Arbiter) : Call → Prop
  | .emit b _ category _ _ _ => keyOf b category = k → b.last = false →
    ∀ m, a.bookMarkets.get k = some m → m.withheld < MAX_WITHHELD_BATCHES
  | _ => True

/-- What a run broadcast for a market. -/
def broadcastFor (k : BookKey) (t : List (Call × List NormalizedBook)) : List NormalizedBook :=
  t.flatMap fun e => if e.1.market = some k then e.2 else []

theorem broadcastFor_append (k : BookKey) (t t' : List (Call × List NormalizedBook)) :
    broadcastFor k (t ++ t') = broadcastFor k t ++ broadcastFor k t' := List.flatMap_append

theorem broadcastFor_single (k : BookKey) (call : Call) (out : List NormalizedBook) :
    broadcastFor k [(call, out)] = if call.market = some k then out else [] := by
  simp [broadcastFor]

variable {a : Arbiter} {k : BookKey}

/-- A price-level market, call by call. -/
theorem Mirrors.priced (h : Mirrors c (a.view k)) (hsp : SinglePath (a.view k)) (call : Call)
    (hprices : call.Prices k) (hholds : call.Withholds k a) :
    Mirrors (c.feedAll (broadcastFor k [(call, (step a call).2)])) ((step a call).1.view k) := by
  rw [broadcastFor_single]
  split
  · rename_i hmarket
    cases call with
    | emit b publisher category synthesized now wall =>
      have hkey : keyOf b category = k := Option.some.inj hmarket
      have hb : Unordered b := hprices hkey
      show Mirrors (c.feedAll (a.emitScoped b publisher category synthesized now wall).2)
        ((a.emitScoped b publisher category synthesized now wall).1.view k)
      rcases emitScoped_cases (a := a) b publisher category synthesized now wall with
        ⟨hview, hout⟩ | ⟨a₁, hview, heq⟩
      · rw [hview k, hout]
        exact h
      · have hmk : a₁.bookMarkets.get k = a.bookMarkets.get k := congrArg View.market (hview k)
        rw [← hview k] at h hsp
        rw [heq, hkey, if_neg (by rw [hsp.route hb]; exact Bool.false_ne_true)]
        obtain ⟨m, hm, hserved⟩ := emitServed_served h.sound b publisher synthesized wall
        have hsp' : SinglePath (a₁.view k).tracked := hsp.idles (Or.inr rfl)
        refine (h.idles (Or.inr rfl)).batch hm (fun hl => ?_) (fun hflag hcont hw hnone => ?_) hserved
        · obtain ⟨m', hm', hor⟩ := (a₁.view k).tracked_market
          obtain rfl : m = m' := Option.some.inj (hm.symm.trans hm')
          rcases hor with hm₁ | ⟨-, rfl⟩
          · exact hholds hkey hl m (hmk.symm.trans hm₁)
          · exact Nat.zero_lt_of_ne_zero (by decide)
        · rcases hcont with hadm | ⟨served, incoming, hsl⟩
          · obtain ⟨acc, -, hr⟩ := hsp'.served m publisher hm hflag hadm
            obtain ⟨r, hr, -⟩ := hr hw
            rw [hnone] at hr
            cases hr
          · rw [hsl.replay] at hnone
            cases hnone
    | _ => cases hmarket
  · rename_i hmarket
    exact h.idles (step_idles h.sound call hmarket)

/-- A market whose batches all close their events, call by call. -/
theorem Mirrors.closed (h : Mirrors c (a.view k)) (hc : c.pending = []) (call : Call)
    (hcloses : call.Closes k) :
    Mirrors (c.feedAll (broadcastFor k [(call, (step a call).2)])) ((step a call).1.view k) ∧
      (c.feedAll (broadcastFor k [(call, (step a call).2)])).pending = [] := by
  rw [broadcastFor_single]
  split
  · rename_i hmarket
    cases call with
    | emit b publisher category synthesized now wall =>
      have hkey : keyOf b category = k := Option.some.inj hmarket
      have hl : b.last = true := hcloses hkey
      show Mirrors (c.feedAll (a.emitScoped b publisher category synthesized now wall).2)
        ((a.emitScoped b publisher category synthesized now wall).1.view k) ∧
          (c.feedAll (a.emitScoped b publisher category synthesized now wall).2).pending = []
      rcases emitScoped_cases (a := a) b publisher category synthesized now wall with
        ⟨hview, hout⟩ | ⟨a₁, hview, heq⟩
      · rw [hview k, hout]
        exact ⟨h, hc⟩
      · rw [← hview k] at h
        rw [heq, hkey]
        split
        · exact Mirrors.told hl (emitOrderLevelBook_told h.sound b publisher now wall) h hc
        · obtain ⟨m, hm, hserved⟩ := emitServed_served h.sound b publisher synthesized wall
          refine ⟨(h.idles (Or.inr rfl)).batch hm (fun hl' => ?_) (fun _ _ _ _ => hc) hserved,
            hserved.closed hl hc⟩
          rw [hl] at hl'
          cases hl'
    | _ => cases hmarket
  · rename_i hmarket
    exact ⟨h.idles (step_idles h.sound call hmarket), hc⟩

theorem mirrors_new (modes : FinMap String ArbitrationMode) (sharedSlots : FinMap String (Finset String))
    (cfg : Authority.AuthorityConfig) (dedupWindowNs : Nat) (guardCfg : BookGuardConfig) (wired : Bool)
    (c : EventBook) :
    Mirrors c ((Arbiter.new modes sharedSlots cfg dedupWindowNs guardCfg wired).view k) := by
  have hview : (Arbiter.new modes sharedSlots cfg dedupWindowNs guardCfg wired).view k = .gone wired := by
    cases wired <;> rfl
  rw [hview]
  exact ⟨fun _ => ⟨rfl, rfl⟩, nofun, fun _ => rfl, nofun⟩

/-- **The replay map is what was broadcast.**  For every run and every market of it whose batches carry no
order id and abandon no pending re-baseline half-way, or whose batches all close their events: a book folded
from everything the arbiter broadcast for the market rests what the market's complete replay entry rests,
and has the same open event. -/
theorem replay_is_what_was_broadcast (modes : FinMap String ArbitrationMode)
    (sharedSlots : FinMap String (Finset String)) (cfg : Authority.AuthorityConfig) (dedupWindowNs : Nat)
    (guardCfg : BookGuardConfig) (calls : List Call) (key : BookKey)
    (hkind : (∀ call ∈ calls, call.Prices key) ∧
        machine.Along (fun a call => call.Withholds key a)
          (.new modes sharedSlots cfg dedupWindowNs guardCfg true) calls ∨
      ∀ call ∈ calls, call.Closes key)
    (symbol : String) (r : BookAccumulator)
    (hr : (machine.exec (.new modes sharedSlots cfg dedupWindowNs guardCfg true) calls).replayEntry key =
      some r)
    (hbase : r.baselined = true) :
    ((broadcastFor key (machine.trace (.new modes sharedSlots cfg dedupWindowNs guardCfg true) calls)).foldl
        BookAccumulator.apply (.new symbol)).sameState r = true ∧
      ((broadcastFor key (machine.trace (.new modes sharedSlots cfg dedupWindowNs guardCfg true) calls)).foldl
        BookAccumulator.apply (.new symbol)).pending = r.pending := by
  have hmirrors : Mirrors ((BookAccumulator.new symbol).core.feedAll
      (broadcastFor key (machine.trace (.new modes sharedSlots cfg dedupWindowNs guardCfg true) calls)))
      ((machine.exec (.new modes sharedSlots cfg dedupWindowNs guardCfg true) calls).view key) := by
    rcases hkind with ⟨hprices, hholds⟩ | hcloses
    · have hrun := (Machine.along_of_forall (m := machine) calls
        (.new modes sharedSlots cfg dedupWindowNs guardCfg true) hprices).and hholds
      refine (Machine.along_history_rule
        (P := fun t a => Mirrors ((BookAccumulator.new symbol).core.feedAll (broadcastFor key t))
          (a.view key) ∧ SinglePath (a.view key)) ⟨mirrors_new _ _ _ _ _ _ _, singlePath_new _ _ _ _ _ _⟩
        (fun t a call hok h => ?_) calls hrun).1
      rw [broadcastFor_append, feedAll_append]
      exact ⟨h.1.priced h.2 call hok.1 hok.2, h.2.call call hok.1⟩
    · have hrun := Machine.along_of_forall (m := machine) calls
        (.new modes sharedSlots cfg dedupWindowNs guardCfg true) hcloses
      refine (Machine.along_history_rule
        (P := fun t a => Mirrors ((BookAccumulator.new symbol).core.feedAll (broadcastFor key t))
          (a.view key) ∧ ((BookAccumulator.new symbol).core.feedAll (broadcastFor key t)).pending = [])
        ⟨mirrors_new _ _ _ _ _ _ _, rfl⟩ (fun t a call hok h => ?_) calls hrun).1
      rw [broadcastFor_append, feedAll_append]
      exact h.1.closed h.2 call hok
  obtain ⟨-, ht⟩ := hmirrors.replay r hr
  rw [← core_applyAll] at ht
  exact ⟨BookAccumulator.sameState_iff.mpr (ht.rests hbase).symm, ht.pending.symm⟩

/-- The wire's event stays open over a change of path. -/
theorem replay_is_what_was_broadcast_splitCalls :
    ∃ r, (machine.exec fresh splitCalls).replayEntry levelKey = some r ∧ r.pending = [unitBid] ∧
      ((broadcastFor levelKey (machine.trace fresh splitCalls)).foldl BookAccumulator.apply
        (.new "S")).sameState r = true ∧
      ((broadcastFor levelKey (machine.trace fresh splitCalls)).foldl BookAccumulator.apply
        (.new "S")).pending = r.pending := by
  have hprices : ∀ call ∈ splitCalls, call.Prices levelKey := by
    intro call hcall
    simp only [splitCalls, List.mem_cons, List.not_mem_nil, or_false] at hcall
    rcases hcall with rfl | rfl | rfl | rfl | rfl
    all_goals simp [Call.Prices, Unordered, offer, levelBatch, BookAccumulator.clearBoth, unitBid]
  have hholds : machine.Along (fun a call => call.Withholds levelKey a) fresh splitCalls := by
    refine ⟨fun _ hl => ?_, fun _ _ m hm => ?_, fun hk => ?_, fun _ hl => ?_, fun hk => ?_, trivial⟩
    · cases hl
    · cases hm
      decide
    · cases hk
    · cases hl
    · cases hk
  exact ⟨_, rfl, rfl, replay_is_what_was_broadcast ∅ ∅ .DEFAULT 0 .DEFAULT splitCalls levelKey
    (Or.inl ⟨hprices, hholds⟩) "S" _ rfl rfl⟩

/-! ## An abandoned re-baseline -/

section Abandoned

open Authority StickyAuthority

/-- A path and the leader of its scope were already seen at this time. -/
theorem note_of_seen {v : ScopeState} (p : Transport) (now : Nat) {timeout : Nat} {path leader : Path}
    (hp : v.paths.get p = some path) (hseen : path.lastSeenNs = now)
    (hl : v.paths.get v.leader = some leader) (hlseen : leader.lastSeenNs = now) :
    v.note p now timeout = v := by
  have hins : v.paths.insert p { (v.paths.get p).getD .default with lastSeenNs := now } = v.paths := by
    rw [hp, Option.getD_some, ← hseen]
    exact FinMap.insert_of_get _ hp
  unfold ScopeState.note
  simp only [hins, hl, Option.elim_some, hlseen, Nat.sub_self]
  rw [if_neg fun h => absurd h.2 (Nat.not_lt_zero _)]

/-- A batch that tells the authority nothing new, from a path it does not follow or from the one it last
followed. -/
theorem admitBatch_again (s : StickyAuthority) (key : BookKey) (p : Transport) (now : Nat) {label : Nat}
    {v : ScopeState} {m : MarketState} (hreleased : s.holdReleased = none)
    (hlabel : s.pathOrdinal (scopeOf key) p = (s, some label))
    (hv : s.scopes.get (scopeOf key) = some v) (hnote : v.note p now s.cfg.leaderTimeoutNs = v)
    (hm : s.markets.get key = some m) (hhold : m.hold = none) (hhealthy : s.healthy key v.leader = true)
    (hadm : m.lastAdmitted = some v.leader) (hover : m.overriddenFrom = none) :
    (s.admitBatch key p now).1 = s ∧ (s.admitBatch key p now).2.isEmitted = decide (p = v.leader) := by
  have hself : ({ s with holdReleased := none } : StickyAuthority) = s := by rw [← hreleased]
  have hins : ({ s with scopes := s.scopes.insert (scopeOf key) v } : StickyAuthority) = s := by
    rw [FinMap.insert_of_get _ hv]
  have hleader : s.scopeLeader (scopeOf key) = some v.leader := by unfold scopeLeader; rw [hv]; rfl
  have hhold' : s.hold key = none := by unfold hold; rw [hm]; exact hhold
  have hrefresh : s.refreshHold key p now = s := by
    unfold refreshHold
    rw [hleader]
    simp [hhold', hhealthy]
  have hserving : s.serving key = some v.leader := by
    unfold serving
    rw [hleader]
    simp [hhold', hhealthy]
  unfold admitBatch
  simp only [hself, hlabel, hv, hnote, hins, hrefresh, hserving, hleader]
  by_cases hp : p = v.leader
  · subst hp
    have hupd : s.updateMarket key (fun m => { m with
        lastAdmitted := some v.leader, overriddenFrom := (some v.leader).filter fun l => l ≠ v.leader }) =
        s := by
      have hsame : ({ m with
          lastAdmitted := some v.leader
          overriddenFrom := (some v.leader).filter fun l => l ≠ v.leader } : MarketState) = m := by
        rw [← hadm, show (m.lastAdmitted.filter fun l => l ≠ v.leader) = m.overriddenFrom by
          rw [hadm, hover]; simp]
      unfold updateMarket
      rw [if_pos (FinMap.contains_eq_true.mpr ⟨m, hm⟩)]
      simp only [hm, Option.getD_some, hsame, FinMap.insert_of_get _ hm]
    simp only [ne_eq, not_true, if_false]
    refine ⟨hupd, ?_⟩
    simp [Admit.isEmitted]
  · rw [if_pos fun h => hp (Option.some.inj h).symm]
    refine ⟨rfl, ?_⟩
    simp [Admit.isEmitted, hp]

/-- The path a market was served from falls silent; another takes its universe over in the middle of an
event, and the first is heard again. -/
def openingCalls : List Call :=
  [offer 1 7 [BookAccumulator.clearBoth] true 0, offer 2 7 [BookAccumulator.clearBoth] true 0,
    offer 2 8 [] true 3000000000, offer 2 7 [unitBid] false 3000000000, offer 1 7 [] true 3000000000]

/-- The event stays open while the path that is no longer followed closes one after each of its batches. -/
def stallCalls (n : Nat) : List Call :=
  (List.replicate n [offer 2 7 [] false 3000000000, offer 1 7 [] true 3000000000]).flatten

def abandoningCalls (n : Nat) : List Call :=
  openingCalls ++ (stallCalls n ++ [offer 2 7 [] false 3000000000])

/-- A market whose re-baseline has waited `w` batches for a path with one change open. -/
structure Stalled (w : Nat) (a : Arbiter) : Prop where
  books : a.books = (machine.exec fresh openingCalls).books
  wired : a.bookReplay.isSome = true
  market : ∃ m acc, a.bookMarkets.get levelKey = some m ∧ m.withheld = w ∧ m.rebaseline = true ∧
    m.orderLevel = false ∧ m.paths.get (.edge 2) = some acc ∧ acc.core = ⟨.empty, [unitBid], true⟩

theorem stalled_opening : Stalled 1 (machine.exec fresh openingCalls) :=
  ⟨rfl, rfl, _, _, rfl, rfl, rfl, rfl, rfl, rfl⟩

theorem judgeBatch_stalled (path : Nat) (hpath : path = 1 ∨ path = 2) (last : Bool) :
    (judgeBatch (machine.exec fresh openingCalls).books levelKey (levelBatch 7 [] last 3000000000)
        (.edge path) false).1 = (machine.exec fresh openingCalls).books ∧
      (judgeBatch (machine.exec fresh openingCalls).books levelKey (levelBatch 7 [] last 3000000000)
        (.edge path) false).2.isEmitted = decide (path = 2) := by
  have hreleased : (machine.exec fresh openingCalls).books.holdReleased = none := rfl
  have hagain : ((machine.exec fresh openingCalls).books.admitBatch levelKey (.edge path) 3000000000).1 =
        (machine.exec fresh openingCalls).books ∧
      ((machine.exec fresh openingCalls).books.admitBatch levelKey (.edge path) 3000000000).2.isEmitted =
        decide (path = 2) := by
    rcases hpath with rfl | rfl
    · obtain ⟨hsame, hemit⟩ := admitBatch_again _ levelKey (.edge 1) 3000000000 hreleased rfl rfl
        (note_of_seen (.edge 1) 3000000000 rfl rfl rfl rfl) rfl rfl (by decide) rfl rfl
      exact ⟨hsame, hemit.trans (by decide)⟩
    · obtain ⟨hsame, hemit⟩ := admitBatch_again _ levelKey (.edge 2) 3000000000 hreleased rfl rfl
        (note_of_seen (.edge 2) 3000000000 rfl rfl rfl rfl) rfl rfl (by decide) rfl rfl
      exact ⟨hsame, hemit.trans (by decide)⟩
  unfold judgeBatch
  simp only [Bool.false_eq_true, if_false]
  refine ⟨?_, hagain.2⟩
  rw [show (levelBatch 7 [] last 3000000000).recvTsNs = 3000000000 from rfl, hagain.1]
  rfl

/-- A batch of an unchanged market, with the event of the following path still open. -/
theorem Stalled.offered {w : Nat} (h : Stalled w a) (path : Nat) (hpath : path = 1 ∨ path = 2) (last : Bool) :
    ∃ m acc, a.bookMarkets.get levelKey = some m ∧ m.withheld = w ∧ m.rebaseline = true ∧
      m.orderLevel = false ∧ m.paths.get (.edge 2) = some acc ∧ acc.core = ⟨.empty, [unitBid], true⟩ ∧
      ∃ moved : Bool, step a (offer path 7 [] last 3000000000) =
        if path = 2 then
          (a.setMarket levelKey (m.accumulate (.edge path) (levelBatch 7 [] last
            3000000000))).publishAdmitted levelKey (levelBatch 7 [] last 3000000000) (.edge path) moved 0
        else (a.setMarket levelKey (m.accumulate (.edge path) (levelBatch 7 [] last 3000000000)), []) := by
  obtain ⟨hbooks, hwired, m, acc, hm, hw, hflag, hol, hacc, hcore⟩ := h
  refine ⟨m, acc, hm, hw, hflag, hol, hacc, hcore, ?_⟩
  have hlabel : ∃ label, a.books.pathOrdinal (scopeOf levelKey) (.edge path) = (a.books, some label) := by
    rw [hbooks]
    rcases hpath with rfl | rfl
    · exact ⟨0, rfl⟩
    · exact ⟨1, rfl⟩
  obtain ⟨label, hlabel⟩ := hlabel
  have hnote : a.noteBatch levelKey (levelBatch 7 [] last 3000000000) (.edge path) false = a.books :=
    noteBatch_of_books rfl (by
      show a.books.holdingRevert levelKey = false
      rw [hbooks]
      decide)
  obtain ⟨hsame, hemit⟩ := judgeBatch_stalled path hpath last
  rw [← hbooks] at hsame hemit
  obtain ⟨moved, -, hstep⟩ := emitScoped_priced (b := levelBatch 7 [] last 3000000000) 0 0
    (show keyOf (levelBatch 7 [] last 3000000000) "c" = levelKey from rfl) (by intro c hc; cases hc) hlabel hm
    hol hnote
  refine ⟨moved, ?_⟩
  show a.emitScoped (levelBatch 7 [] last 3000000000) (.edge path) "c" false 0 0 = _
  rw [hstep, hsame, hemit]
  simp only [decide_eq_true_eq, ne_eq, show (levelBatch 7 [] last 3000000000).changes = [] from rfl,
    not_true, and_false, if_false]

/-- One more batch of the path that is not followed. -/
theorem Stalled.ignored {w : Nat} (h : Stalled w a) :
    Stalled w (step a (offer 1 7 [] true 3000000000)).1 ∧ (step a (offer 1 7 [] true 3000000000)).2 = [] := by
  obtain ⟨m, acc, hm, hw, hflag, hol, hacc, hcore, moved, hstep⟩ := h.offered 1 (Or.inl rfl) true
  rw [hstep, if_neg (by decide)]
  refine ⟨⟨h.books, h.wired, _, acc, FinMap.get_insert_self _ _ _, hw, hflag, hol, ?_, hcore⟩, rfl⟩
  exact (FinMap.get_insert_of_ne _ _ (by decide)).trans hacc

/-- One more batch of the path that is: its event is still open, and the re-baseline waits on. -/
theorem Stalled.waits {w : Nat} (h : Stalled w a) (hw : w < MAX_WITHHELD_BATCHES) :
    Stalled (w + 1) (step a (offer 2 7 [] false 3000000000)).1 ∧
      (step a (offer 2 7 [] false 3000000000)).2 = [] := by
  obtain ⟨m, acc, hm, rfl, hflag, hol, hacc, hcore, moved, hstep⟩ := h.offered 2 (Or.inr rfl) false
  have hget : (a.setMarket levelKey (m.accumulate (.edge 2) (levelBatch 7 [] false 3000000000))).bookMarkets.get
      levelKey = some (m.accumulate (.edge 2) (levelBatch 7 [] false 3000000000)) :=
    FinMap.get_insert_self _ _ _
  have hcond : (!(levelBatch 7 [] false 3000000000).last && decide (m.withheld < MAX_WITHHELD_BATCHES)) =
      true := by
    rw [decide_eq_true hw]
    rfl
  rw [hstep, if_pos rfl]
  unfold publishAdmitted
  rw [hget]
  simp only [show (m.accumulate (.edge 2) (levelBatch 7 [] false 3000000000)).rebaseline = true from hflag,
    Bool.true_or, if_true]
  rw [show (m.accumulate (.edge 2) (levelBatch 7 [] false 3000000000)).withheld = m.withheld from rfl, if_pos hcond]
  refine ⟨⟨h.books, h.wired, _, _, FinMap.get_insert_self _ _ _, rfl, rfl, hol, FinMap.get_insert_self _ _ _,
    ?_⟩, rfl⟩
  rw [folded_core hacc, hcore]
  rfl

/-- The re-baseline is abandoned: the entry is the path's own book, with its event still open. -/
theorem Stalled.abandons (h : Stalled MAX_WITHHELD_BATCHES a) :
    ∃ r, (step a (offer 2 7 [] false 3000000000)).1.replayEntry levelKey = some r ∧ r.baselined = true ∧
      r.pending = [unitBid] ∧
      ∃ msg : NormalizedBook, (step a (offer 2 7 [] false 3000000000)).2 = [msg] ∧ msg.last = true := by
  obtain ⟨m, acc, hm, hw, hflag, hol, hacc, hcore, moved, hstep⟩ := h.offered 2 (Or.inr rfl) false
  have hget : (a.setMarket levelKey (m.accumulate (.edge 2) (levelBatch 7 [] false 3000000000))).bookMarkets.get
      levelKey = some (m.accumulate (.edge 2) (levelBatch 7 [] false 3000000000)) :=
    FinMap.get_insert_self _ _ _
  have hcond : ¬ (!(levelBatch 7 [] false 3000000000).last && decide (m.withheld < MAX_WITHHELD_BATCHES)) =
      true := by
    rw [hw, decide_eq_false (Nat.lt_irrefl _), Bool.and_false]
    exact Bool.false_ne_true
  rw [hstep, if_pos rfl]
  unfold publishAdmitted
  rw [hget]
  simp only [show (m.accumulate (.edge 2) (levelBatch 7 [] false 3000000000)).rebaseline = true from hflag,
    Bool.true_or, if_true]
  rw [show (m.accumulate (.edge 2) (levelBatch 7 [] false 3000000000)).withheld = m.withheld from rfl,
    if_neg hcond]
  have hfold : (m.folded (.edge 2) (levelBatch 7 [] false 3000000000)).core =
      ⟨.empty, [unitBid], true⟩ := by
    rw [folded_core hacc, hcore]
    rfl
  have hpath : ({ m.accumulate (.edge 2) (levelBatch 7 [] false 3000000000) with
      rebaseline := false, withheld := 0 } : BookMarket).paths.get (.edge 2) =
        some (m.folded (.edge 2) (levelBatch 7 [] false 3000000000)) := FinMap.get_insert_self _ _ _
  obtain ⟨w, hview, hout⟩ := rebaselineNow_view (congrArg View.market (view_setMarket_self
    (a.setMarket levelKey (m.accumulate (.edge 2) (levelBatch 7 [] false 3000000000))) levelKey _)) hpath
    (levelBatch 7 [] false 3000000000) 0
  refine ⟨m.folded (.edge 2) (levelBatch 7 [] false 3000000000), ?_, congrArg EventBook.complete hfold,
    congrArg EventBook.pending hfold, ?_⟩
  · have hreplay := congrArg View.replay hview
    exact hreplay.trans (if_pos h.wired)
  · rcases hout with ⟨-, slot, hout⟩ | ⟨hbase, -⟩
    · exact ⟨_, hout, rfl⟩
    · have hcomplete : (m.folded (.edge 2) (levelBatch 7 [] false 3000000000)).baselined = true :=
        congrArg EventBook.complete hfold
      rw [hcomplete] at hbase
      cases hbase

theorem stalled_run : ∀ (n w : Nat) (a : Arbiter), Stalled w a → w + n ≤ MAX_WITHHELD_BATCHES →
    Stalled (w + n) (machine.exec a (stallCalls n)) ∧
      broadcastFor levelKey (machine.trace a (stallCalls n)) = []
  | 0, _, _, h, _ => ⟨h, rfl⟩
  | n + 1, w, a, h, hle => by
    obtain ⟨h₁, hout₁⟩ := h.waits (by omega)
    obtain ⟨h₂, hout₂⟩ := h₁.ignored
    obtain ⟨h₃, hout₃⟩ := stalled_run n (w + 1) _ h₂ (by omega)
    have hcalls : stallCalls (n + 1) =
        offer 2 7 [] false 3000000000 :: offer 1 7 [] true 3000000000 :: stallCalls n := rfl
    have htrace : machine.trace a (stallCalls (n + 1)) =
        [(offer 2 7 [] false 3000000000, []), (offer 1 7 [] true 3000000000, [])] ++
          machine.trace (step (step a (offer 2 7 [] false 3000000000)).1 (offer 1 7 [] true 3000000000)).1
            (stallCalls n) := by
      rw [hcalls, Machine.trace_cons, Machine.trace_cons,
        show (machine.step a (offer 2 7 [] false 3000000000)).2 = [] from hout₁,
        show (machine.step (machine.step a (offer 2 7 [] false 3000000000)).1
          (offer 1 7 [] true 3000000000)).2 = [] from hout₂]
      rfl
    rw [htrace, broadcastFor_append, hout₃, show w + (n + 1) = w + 1 + n by omega]
    exact ⟨h₃, rfl⟩

/-- The `last` flags of a market's batches, in order. -/
def closings (k : BookKey) (calls : List Call) : List Bool :=
  calls.filterMap fun
    | .emit b _ category _ _ _ => if keyOf b category = k then some b.last else none
    | _ => none

theorem closings_append (k : BookKey) (calls calls' : List Call) :
    closings k (calls ++ calls') = closings k calls ++ closings k calls' := List.filterMap_append

/-- Of two batches in a row, one closes its event. -/
def Settling (flags : List Bool) : Prop := flags.IsChain fun x y => (x || y) = true

theorem settling_stall : ∀ n, Settling (true :: (closings levelKey (stallCalls n) ++ [false]))
  | 0 => List.isChain_cons_cons.mpr ⟨rfl, List.isChain_singleton _⟩
  | n + 1 => List.isChain_cons_cons.mpr ⟨rfl, List.isChain_cons_cons.mpr ⟨rfl, settling_stall n⟩⟩

theorem closings_offer (k : BookKey) (path instrumentId : Nat) (changes : List BookChange) (last : Bool)
    (recvTsNs : Nat) : closings k [offer path instrumentId changes last recvTsNs] =
      if keyOf (levelBatch instrumentId [] true 0) "c" = k then [last] else [] := by
  unfold closings
  simp only [List.filterMap_cons, List.filterMap_nil, offer]
  split
  · rename_i h
    split at h
    · cases h
    · rename_i hk
      exact (if_neg hk).symm
  · rename_i x h
    split at h
    · rename_i hk
      cases h
      exact (if_pos hk).symm
    · cases h

theorem closings_stall_ne {k : BookKey} (hk : levelKey ≠ k) : ∀ n, closings k (stallCalls n) = []
  | 0 => rfl
  | n + 1 => by
    have hcalls : stallCalls (n + 1) =
        [offer 2 7 [] false 3000000000] ++ ([offer 1 7 [] true 3000000000] ++ stallCalls n) := rfl
    rw [hcalls, closings_append, closings_append, closings_stall_ne hk n, closings_offer, closings_offer,
      show keyOf (levelBatch 7 [] true 0) "c" = levelKey from rfl, if_neg hk, if_neg hk]
    rfl

theorem settling_abandoningCalls (k : BookKey) (n : Nat) : Settling (closings k (abandoningCalls n)) := by
  unfold abandoningCalls
  rw [closings_append, closings_append]
  by_cases hk : levelKey = k
  · subst hk
    show Settling (true :: true :: false :: true :: (closings levelKey (stallCalls _) ++ [false]))
    exact List.isChain_cons_cons.mpr ⟨rfl, List.isChain_cons_cons.mpr ⟨rfl, List.isChain_cons_cons.mpr
      ⟨rfl, settling_stall _⟩⟩⟩
  · have hopening : closings k openingCalls =
        if keyOf (levelBatch 8 [] true 0) "c" = k then [true] else [] := by
      show closings k ([offer 1 7 [BookAccumulator.clearBoth] true 0] ++
        ([offer 2 7 [BookAccumulator.clearBoth] true 0] ++ ([offer 2 8 [] true 3000000000] ++
          ([offer 2 7 [unitBid] false 3000000000] ++ [offer 1 7 [] true 3000000000])))) = _
      rw [closings_append, closings_append, closings_append, closings_append, closings_offer, closings_offer,
        closings_offer, closings_offer, closings_offer,
        show keyOf (levelBatch 7 [] true 0) "c" = levelKey from rfl, if_neg hk, if_neg hk]
      simp
    rw [closings_stall_ne hk, closings_offer, show keyOf (levelBatch 7 [] true 0) "c" = levelKey from rfl,
      if_neg hk, hopening]
    split
    · exact List.isChain_singleton _
    · exact List.IsChain.nil

theorem Settling.not_stalled {flags : List Bool} (h : Settling flags) :
    ¬ List.replicate MAX_WITHHELD_BATCHES false <:+: flags := by
  intro hinfix
  have hchain := List.IsChain.infix h hinfix
  have hpair : List.replicate MAX_WITHHELD_BATCHES false =
      false :: false :: List.replicate (MAX_WITHHELD_BATCHES - 2) false := rfl
  rw [hpair, List.isChain_cons_cons] at hchain
  exact absurd hchain.1 (by decide)

/-- Every batch of the run is about prices alone. -/
theorem unordered_abandoningCalls (n : Nat) : ∀ call ∈ abandoningCalls n, call.Unordered := by
  intro call hcall
  unfold abandoningCalls at hcall
  rw [List.mem_append, List.mem_append] at hcall
  rcases hcall with hcall | hcall | hcall
  · simp only [openingCalls, List.mem_cons, List.not_mem_nil, or_false] at hcall
    rcases hcall with rfl | rfl | rfl | rfl | rfl
    all_goals simp [Call.Unordered, Unordered, offer, levelBatch, BookAccumulator.clearBoth, unitBid]
  · obtain ⟨calls, hcalls, hcall⟩ := List.mem_flatten.mp hcall
    rw [List.eq_of_mem_replicate hcalls] at hcall
    simp only [List.mem_cons, List.not_mem_nil, or_false] at hcall
    rcases hcall with rfl | rfl
    all_goals simp [Call.Unordered, Unordered, offer, levelBatch]
  · rw [List.mem_singleton.mp hcall]
    simp [Call.Unordered, Unordered, offer, levelBatch]

theorem abandoningCalls_spec {n : Nat} (hn : 1 + n = MAX_WITHHELD_BATCHES) :
    ∃ r, (machine.exec fresh (abandoningCalls n)).replayEntry levelKey = some r ∧ r.baselined = true ∧
      r.pending = [unitBid] ∧
      ((broadcastFor levelKey (machine.trace fresh (abandoningCalls n))).foldl BookAccumulator.apply
        (.new "S")).pending = [] := by
  obtain ⟨hrun, hsilent⟩ := stalled_run n 1 _ stalled_opening (Nat.le_of_eq hn)
  rw [hn] at hrun
  obtain ⟨r, hr, hbase, hpending, msg, hmsg, hlast⟩ := hrun.abandons
  refine ⟨r, ?_, hbase, hpending, ?_⟩
  · rw [abandoningCalls, Machine.exec_append, Machine.exec_append]
    exact hr
  · have hout : broadcastFor levelKey (machine.trace fresh (abandoningCalls n)) =
        broadcastFor levelKey (machine.trace fresh openingCalls) ++ [msg] := by
      rw [abandoningCalls, Machine.trace_append, Machine.trace_append, broadcastFor_append,
        broadcastFor_append, hsilent, Machine.trace_cons, Machine.trace_nil, broadcastFor_single,
        if_pos (show (offer 2 7 [] false 3000000000).market = some levelKey from rfl), List.nil_append]
      exact congrArg _ hmsg
    show ((broadcastFor levelKey (machine.trace fresh (abandoningCalls n))).foldl BookAccumulator.apply
      (.new "S")).core.pending = []
    rw [hout, core_applyAll, feedAll_append]
    show (EventBook.feed _ msg.changes msg.last).pending = []
    rw [hlast]
    rfl

/-- **An abandoned re-baseline opens an event the consumer was never told.**  No market of this run has two
batches in a row that leave their event open, yet the path it serves leaves its own open for
`MAX_WITHHELD_BATCHES` batches of its own, while the batches that close theirs come from a path the
authority does not follow. -/
theorem abandoned_rebaseline_opens_an_event :
    (∀ call ∈ abandoningCalls (MAX_WITHHELD_BATCHES - 1), call.Unordered) ∧
    (∀ k, ¬ List.replicate MAX_WITHHELD_BATCHES false <:+:
      closings k (abandoningCalls (MAX_WITHHELD_BATCHES - 1))) ∧
    ∃ r, (machine.exec fresh (abandoningCalls (MAX_WITHHELD_BATCHES - 1))).replayEntry levelKey = some r ∧
      r.baselined = true ∧
      ((broadcastFor levelKey (machine.trace fresh (abandoningCalls (MAX_WITHHELD_BATCHES - 1)))).foldl
        BookAccumulator.apply (.new "S")).pending ≠ r.pending := by
  refine ⟨unordered_abandoningCalls _, fun k => (settling_abandoningCalls k _).not_stalled, ?_⟩
  obtain ⟨r, hr, hbase, hpending, hclosed⟩ := abandoningCalls_spec (n := MAX_WITHHELD_BATCHES - 1) (by decide)
  refine ⟨r, hr, hbase, ?_⟩
  rw [hclosed, hpending]
  nofun

end Abandoned

end Arbiter

end EdgeConnect
