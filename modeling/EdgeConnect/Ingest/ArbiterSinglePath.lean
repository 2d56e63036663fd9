import EdgeConnect.Ingest.ArbiterView

/-!
# The single-path gate serves one path's own book

While no batch carries an order id, every market goes through the authority gate.  The consumer's book is
the replay entry; the path it follows is the one `last_admitted` names.

* `Follows` — the wire's book and the followed path's own rest the same once their open events are folded
  in, or one of the two abandoned an event, is marked incomplete, and holds the other's open event;
* `SinglePath` — what every market keeps: the entry of a served market follows its path's accumulator;
* `served_book_is_one_paths` — so in every reachable state, a complete replay entry of a market with no
  re-baseline pending is the book of the path it follows, if that book is complete too;
* `served_book_outlives_its_path` — it is not the book of a path that abandoned an event.
-/

set_option autoImplicit false

namespace EdgeConnect

/-! ## Books that follow one another -/

namespace EventBook

/-- What rests with the open event folded in. -/
def settled (e : EventBook) : Resting := e.rests.foldChanges e.pending

/-- No order rests and none is named by the open event. -/
structure Priced (e : EventBook) : Prop where
  orders : e.rests.orders = ∅
  pending : ∀ c ∈ e.pending, c.orderId = 0

/-- The wire's book `r` against the followed path's own `e`. -/
inductive Follows (r e : EventBook) : Prop
  | same (h : r.settled = e.settled)
  | replayLost (hr : r.complete = false) (base : Resting) (h : e.settled = base.foldChanges r.pending)
  | pathLost (he : e.complete = false) (base : Resting) (h : r.settled = base.foldChanges e.pending)

variable {r e : EventBook} {changes : List BookChange}

theorem applyChange_orders {r : Resting} (h : r.orders = ∅) {c : BookChange} (hc : c.orderId = 0) :
    (r.applyChange c).orders = ∅ := by
  have hfilter : ∀ p : Nat → RestingOrder → Bool, (∅ : FinMap Nat RestingOrder).filter p = ∅ := by
    intro p
    ext1 id
    rfl
  have hclear : ∀ side, (r.clearSide side).orders = ∅ := by
    intro side
    cases side <;> simp [Resting.clearSide, h, hfilter]
  unfold Resting.applyChange
  simp only [hc, ne_eq, not_true, if_false]
  split
  · exact hclear _
  all_goals exact h

theorem foldChanges_priced : ∀ (cs : List BookChange) {r : Resting}, r.orders = ∅ →
    (∀ c ∈ cs, c.orderId = 0) → (r.foldChanges cs).orders = ∅
  | [], _, h, _ => h
  | c :: cs, _, h, hcs =>
    foldChanges_priced cs (applyChange_orders h (hcs c List.mem_cons_self))
      fun c' hc' => hcs c' (List.mem_cons_of_mem _ hc')

theorem Priced.pending_append (h : e.Priced) (hcs : ∀ c ∈ changes, c.orderId = 0) :
    ∀ c ∈ e.pending ++ changes.filter BookChange.isFinite, c.orderId = 0 := by
  intro c hc
  rcases List.mem_append.mp hc with hc | hc
  · exact h.pending c hc
  · exact hcs c (List.mem_filter.mp hc).1

/-- A closed event of a priced book: no order cap is in play. -/
theorem Priced.feed_last (h : e.Priced) (hcs : ∀ c ∈ changes, c.orderId = 0) :
    e.feed changes true =
      ⟨e.settled.foldChanges (changes.filter BookChange.isFinite), [],
        e.complete || clearedSides (e.pending ++ changes.filter BookChange.isFinite) = (true, true)⟩ := by
  have ho := foldChanges_priced _ h.orders (h.pending_append hcs)
  have hsize : (e.rests.foldChanges (e.pending ++ changes.filter BookChange.isFinite)).orders.size ≤
      MAX_ACCUMULATED_ORDERS := by
    rw [ho]
    exact Nat.zero_le _
  unfold feed
  simp only [if_true]
  rw [bound_eq hsize, decide_eq_true hsize, Bool.and_true, Resting.foldChanges_append]
  rfl

theorem Priced.feed (h : e.Priced) (hcs : ∀ c ∈ changes, c.orderId = 0) (last : Bool) :
    (e.feed changes last).Priced := by
  cases last with
  | true =>
    rw [h.feed_last hcs]
    refine ⟨?_, nofun⟩
    show (e.settled.foldChanges _).orders = ∅
    refine foldChanges_priced _ (foldChanges_priced _ h.orders h.pending) fun c hc => ?_
    exact hcs c (List.mem_filter.mp hc).1
  | false =>
    unfold EventBook.feed
    simp only [Bool.false_eq_true, if_false]
    split
    · exact ⟨h.orders, nofun⟩
    · exact ⟨h.orders, h.pending_append hcs⟩

/-- An event that stays open: it outgrew the cap and is abandoned, or it grew. -/
theorem feed_more (e : EventBook) (changes : List BookChange) :
    e.feed changes false = ⟨e.rests, [], false⟩ ∨
      e.feed changes false = ⟨e.rests, e.pending ++ changes.filter BookChange.isFinite, e.complete⟩ := by
  unfold feed
  simp only [Bool.false_eq_true, if_false]
  split
  · exact Or.inl rfl
  · exact Or.inr rfl

/-- An incomplete book with no open event is followed by anything, and follows anything. -/
theorem Follows.of_replay_empty (hr : r.complete = false) (hp : r.pending = []) : Follows r e :=
  .replayLost hr e.settled (by rw [hp]; rfl)

theorem Follows.of_path_empty (he : e.complete = false) (hp : e.pending = []) : Follows r e :=
  .pathLost he r.settled (by rw [hp]; rfl)

/-- **Both books fed the same batch go on following.** -/
theorem Follows.feed (hr : r.Priced) (he : e.Priced) (hcs : ∀ c ∈ changes, c.orderId = 0)
    (h : Follows r e) (last : Bool) : Follows (r.feed changes last) (e.feed changes last) := by
  cases last with
  | true =>
    rw [hr.feed_last hcs, he.feed_last hcs]
    cases h with
    | same h => exact .same (by simp only [settled] at h ⊢; rw [h])
    | replayLost hinc base h =>
      by_cases hclear : clearedSides (r.pending ++ changes.filter BookChange.isFinite) = (true, true)
      · refine .same ?_
        show r.settled.foldChanges _ = e.settled.foldChanges _
        rw [h, ← Resting.foldChanges_append]
        unfold settled
        rw [← Resting.foldChanges_append]
        exact Resting.foldChanges_eq_of_clears hclear
      · exact .of_replay_empty (by simp [hinc, hclear]) rfl
    | pathLost hinc base h =>
      by_cases hclear : clearedSides (e.pending ++ changes.filter BookChange.isFinite) = (true, true)
      · refine .same ?_
        show r.settled.foldChanges _ = e.settled.foldChanges _
        rw [h, ← Resting.foldChanges_append]
        unfold settled
        rw [← Resting.foldChanges_append]
        exact Resting.foldChanges_eq_of_clears hclear
      · exact .of_path_empty (by simp [hinc, hclear]) rfl
  | false =>
    rcases r.feed_more changes with hr' | hr'
    · rw [hr']; exact .of_replay_empty rfl rfl
    · rcases e.feed_more changes with he' | he'
      · rw [he']; exact .of_path_empty rfl rfl
      · rw [hr', he']
        cases h with
        | same h =>
          refine .same ?_
          unfold settled at h ⊢
          rw [Resting.foldChanges_append, Resting.foldChanges_append, h]
        | replayLost hinc base h =>
          refine .replayLost hinc base ?_
          unfold settled at h ⊢
          rw [Resting.foldChanges_append, Resting.foldChanges_append, h]
        | pathLost hinc base h =>
          refine .pathLost hinc base ?_
          unfold settled at h ⊢
          rw [Resting.foldChanges_append, Resting.foldChanges_append, h]

/-- An empty batch only the path folded changes nothing it holds. -/
theorem Follows.feed_nil (he : e.Priced) (hlen : e.pending.length ≤ MAX_PENDING_CHANGES)
    (h : Follows r e) (last : Bool) : Follows r (e.feed [] last) := by
  cases last with
  | true =>
    have hnil : ∀ c ∈ ([] : List BookChange), c.orderId = 0 := fun c hc => by cases hc
    rw [he.feed_last hnil]
    simp only [List.filter_nil, List.append_nil]
    cases h with
    | same h => exact .same h
    | replayLost hinc base h => exact .replayLost hinc base h
    | pathLost hinc base h =>
      by_cases hclear : clearedSides e.pending = (true, true)
      · refine .same ?_
        rw [h]
        exact Resting.foldChanges_eq_of_clears hclear
      · exact .of_path_empty (by simp [hinc, hclear]) rfl
  | false =>
    have heq : e.feed [] false = e := by
      unfold EventBook.feed
      simp only [List.filter_nil, List.append_nil, Bool.false_eq_true, if_false,
        if_neg (Nat.not_lt.mpr hlen)]
    rw [heq]
    exact h

theorem Follows.settled_eq (h : Follows r e) (hr : r.complete = true) (he : e.complete = true) :
    r.settled = e.settled := by
  cases h with
  | same h => exact h
  | replayLost hinc => rw [hr] at hinc; cases hinc
  | pathLost hinc => rw [he] at hinc; cases hinc

end EventBook

namespace Arbiter

/-! ## What every market keeps -/

/-- A batch that carries no order id. -/
def Unordered (b : NormalizedBook) : Prop := ∀ c ∈ b.changes, c.orderId = 0

/-- A call that emits no order id for a market. -/
def Call.Prices (k : BookKey) : Call → Prop
  | .emit b _ category _ _ _ => keyOf b category = k → Unordered b
  | _ => True

/-- A call that emits no order id. -/
def Call.Unordered : Call → Prop
  | .emit b _ _ _ _ _ => Arbiter.Unordered b
  | _ => True

theorem Call.Unordered.prices {c : Call} (h : c.Unordered) (k : BookKey) : c.Prices k := by
  cases c with
  | emit b => exact fun _ => h
  | _ => trivial

/-- An accumulator that holds levels only. -/
structure Levels (acc : BookAccumulator) : Prop where
  valid : acc.Valid
  priced : acc.core.Priced

theorem Levels.new (symbol : String) : Levels (.new symbol) := ⟨.new symbol, rfl, nofun⟩

theorem Levels.apply {acc : BookAccumulator} {b : NormalizedBook} (h : Levels acc) (hb : Unordered b) :
    Levels (acc.apply b) := by
  refine ⟨h.valid.apply b, ?_⟩
  rw [BookAccumulator.core_apply]
  exact h.priced.feed hb b.last

/-- **What every market keeps while its batches carry no order id.** -/
structure SinglePath (v : View) : Prop where
  sound : v.Sound
  orderLevel : ∀ m, v.market = some m → m.orderLevel = false
  paths : ∀ m p acc, v.market = some m → m.paths.get p = some acc → Levels acc
  replay : ∀ r, v.replay = some r → Levels r
  served : ∀ m p, v.market = some m → m.rebaseline = false → v.admitted = some p →
    ∃ acc, m.paths.get p = some acc ∧
      (v.wired = true → ∃ r, v.replay = some r ∧ EventBook.Follows r.core acc.core)

variable {v v' : View} {m : BookMarket} {key : BookKey} {b : NormalizedBook} {publisher : Transport}
  {wall : Nat} {out : List NormalizedBook}

theorem SinglePath.idles (h : SinglePath v) (hi : v.Idles v') : SinglePath v' := by
  rcases hi with (rfl | rfl | rfl) | rfl
  · exact ⟨fun _ => ⟨rfl, rfl⟩, nofun, nofun, nofun, nofun⟩
  · exact h
  · exact ⟨fun hm => ⟨(h.sound hm).1, rfl⟩, h.orderLevel, h.paths, h.replay, nofun⟩
  · cases hm : v.market with
    | some m => rw [View.tracked_of_market hm]; exact h
    | none =>
      have htr : v.tracked = .fresh v.wired := by unfold View.tracked; rw [hm]; rfl
      rw [htr]
      refine ⟨nofun, fun m hm => ?_, fun m p acc hm hacc => ?_, nofun, nofun⟩
      · cases hm; rfl
      · cases hm; cases hacc

theorem SinglePath.folded (h : SinglePath v) (hm : v.market = some m) (hb : Unordered b) :
    Levels (m.folded publisher b) := by
  unfold BookMarket.folded
  cases hp : m.paths.get publisher with
  | none => exact (Levels.new b.symbol).apply hb
  | some acc => exact (h.paths m publisher acc hm hp).apply hb

theorem SinglePath.accumulate (h : SinglePath v) (hm : v.market = some m) (hb : Unordered b) :
    ∀ p acc, (m.accumulate publisher b).paths.get p = some acc → Levels acc := by
  intro p acc hacc
  unfold BookMarket.accumulate at hacc
  rw [FinMap.get_insert] at hacc
  split at hacc
  · cases hacc; exact h.folded hm hb
  · exact h.paths m p acc hm hacc

theorem folded_core {acc : BookAccumulator} (hp : m.paths.get publisher = some acc) :
    (m.folded publisher b).core = acc.core.feed b.changes b.last := by
  unfold BookMarket.folded
  rw [hp]
  exact BookAccumulator.core_apply acc b

theorem Seamless.follows {served incoming : BookAccumulator} (h : Seamless v m publisher served incoming) :
    EventBook.Follows served.core incoming.core := by
  refine .same ?_
  show served.toResting.foldChanges served.pending = incoming.toResting.foldChanges incoming.pending
  rw [h.servedWhole.2, h.incomingWhole.2, h.same]

/-- **One batch through the gate keeps it.** -/
theorem SinglePath.batch (h : SinglePath v) (hm : v.market = some m) (hb : Unordered b)
    (hs : Served v m key b publisher wall v' out) : SinglePath v' := by
  have hol := h.orderLevel m hm
  have hacc : ∀ p acc, (m.accumulate publisher b).paths.get p = some acc → Levels acc :=
    h.accumulate hm hb
  have hself : (m.accumulate publisher b).paths.get publisher = some (m.folded publisher b) :=
    FinMap.get_insert_self _ _ _
  cases hs with
  | dropped forced hforced =>
    refine ⟨nofun, fun m' hm' => ?_, fun m' p acc hm' => ?_, h.replay, fun m' p hm' hflag hadm => ?_⟩
    · cases hm'; exact hol
    · cases hm'; exact hacc p acc
    · cases hm'
      simp only [Bool.or_eq_false_iff] at hflag
      obtain ⟨acc, hp, hfol⟩ := h.served m p hm hflag.1 hadm
      by_cases hpp : p = publisher
      · subst hpp
        -- the followed path's own batch was dropped without a forced re-baseline: it was empty
        have hempty : b.changes = [] := by
          by_contra hne
          rw [hforced hadm hne] at hflag
          cases hflag.2
        refine ⟨m.folded p b, hself, fun hw => ?_⟩
        obtain ⟨r, hr, hrf⟩ := hfol hw
        refine ⟨r, hr, ?_⟩
        have hlev := h.paths m p acc hm hp
        rw [folded_core hp, hempty]
        exact hrf.feed_nil hlev.priced hlev.valid.pending b.last
      · refine ⟨acc, ?_, hfol⟩
        exact (FinMap.get_insert_of_ne _ _ hpp).trans hp
  | withheld hlast hcap =>
    refine ⟨nofun, fun m' hm' => ?_, fun m' p acc hm' => ?_, h.replay, fun m' p hm' hflag => ?_⟩
    · cases hm'; exact hol
    · cases hm'; exact hacc p acc
    · cases hm'; cases hflag
  | rebaselined w out hlast hout =>
    refine ⟨nofun, fun m' hm' => ?_, fun m' p acc hm' => ?_, fun r hr => ?_, fun m' p hm' _ hadm => ?_⟩
    · cases hm'; exact hol
    · cases hm'; exact hacc p acc
    · simp only at hr
      split at hr
      · cases hr; exact h.folded hm hb
      · cases hr
    · cases hm'
      cases hadm
      refine ⟨m.folded publisher b, hself, fun hw => ⟨m.folded publisher b, ?_, .same rfl⟩⟩
      exact if_pos hw
  | steady w slot hflag hcont =>
    -- whichever way the batch continues, the entry follows the path's accumulator before it
    have hbefore : ∃ acc, m.paths.get publisher = some acc ∧
        (v.wired = true → ∃ r, v.replay = some r ∧ EventBook.Follows r.core acc.core) := by
      rcases hcont with hadm | ⟨served, incoming, hsl⟩
      · exact h.served m publisher hm hflag hadm
      · exact ⟨incoming, hsl.path, fun _ => ⟨served, hsl.replay, hsl.follows⟩⟩
    obtain ⟨acc, hp, hfol⟩ := hbefore
    refine ⟨fun hm' => ?_, fun m' hm' => ?_, fun m' p acc hm' => ?_, fun r' hr' => ?_,
      fun m' p hm' _ hadm => ?_⟩
    · rw [View.applied_market] at hm'; cases hm'
    · rw [View.applied_market] at hm'; cases hm'; exact hol
    · rw [View.applied_market] at hm'; cases hm'; exact hacc p acc
    · rcases View.applied_replay { v with
          market := some { m.accumulate publisher b with wireSlot := w }
          admitted := some publisher } b with hr | hr
      · exact h.replay r' (hr.symm.trans hr')
      · rw [hr] at hr'
        cases hr'
        cases hrep : v.replay with
        | none => exact (Levels.new b.symbol).apply hb
        | some r => exact (h.replay r hrep).apply hb
    · rw [View.applied_market] at hm'
      rw [View.applied_admitted] at hadm
      cases hm'
      cases hadm
      refine ⟨m.folded publisher b, hself, fun hw => ?_⟩
      rw [View.applied_wired] at hw
      obtain ⟨r, hr, hrf⟩ := hfol hw
      refine ⟨r.apply b, ?_, ?_⟩
      · rw [View.applied_replay_of_wired (v := { v with
          market := some { m.accumulate publisher b with wireSlot := w }
          admitted := some publisher }) b hw rfl]
        show some ((v.replay.getD (.new b.symbol)).apply b) = some (r.apply b)
        rw [hr]
        rfl
      · rw [BookAccumulator.core_apply, folded_core hp]
        exact hrf.feed (h.replay r hr).priced (h.paths m publisher acc hm hp).priced hb b.last

/-! ## Every run -/

variable {a : Arbiter} {k : BookKey}

/-- A market that has published no order id takes a batch without one to the single-path gate. -/
theorem SinglePath.route (h : SinglePath (a.view key)) (hb : Unordered b) :
    a.orderLevelRoute key b = false := by
  have hids : (b.changes.any fun c => c.orderId ≠ 0) = false := by
    rw [List.any_eq_false]
    intro c hc
    simp [hb c hc]
  have hmarket : (a.bookMarkets.get key).any (·.orderLevel) = false := by
    cases hm : a.bookMarkets.get key with
    | none => rfl
    | some m => exact h.orderLevel m hm
  unfold orderLevelRoute
  rw [hids, hmarket]
  rfl

/-- **Every call keeps it.** -/
theorem SinglePath.call (h : SinglePath (a.view k)) (c : Call) (hc : c.Prices k) :
    SinglePath ((step a c).1.view k) := by
  by_cases hmarket : c.market = some k
  · cases c with
    | emit b publisher category synthesized now wall =>
      have hkey : keyOf b category = k := Option.some.inj hmarket
      have hb : Unordered b := hc hkey
      show SinglePath ((a.emitScoped b publisher category synthesized now wall).1.view k)
      rcases emitScoped_cases (a := a) b publisher category synthesized now wall with
        ⟨hview, -⟩ | ⟨a₁, hview, heq⟩
      · rw [hview k]; exact h
      · rw [← hview k] at h
        rw [heq, hkey, if_neg (by rw [h.route hb]; exact Bool.false_ne_true)]
        obtain ⟨m, hm, hserved⟩ := emitServed_served h.sound b publisher synthesized wall
        exact (h.idles (Or.inr rfl)).batch hm hb hserved
    | _ => cases hmarket
  · exact h.idles (step_idles h.sound c hmarket)

theorem singlePath_new (modes : FinMap String ArbitrationMode) (sharedSlots : FinMap String (Finset String))
    (cfg : Authority.AuthorityConfig) (dedupWindowNs : Nat) (guardCfg : BookGuardConfig) (wired : Bool) :
    SinglePath ((Arbiter.new modes sharedSlots cfg dedupWindowNs guardCfg wired).view k) := by
  have hview : (Arbiter.new modes sharedSlots cfg dedupWindowNs guardCfg wired).view k = .gone wired := by
    cases wired <;> rfl
  rw [hview]
  exact ⟨fun _ => ⟨rfl, rfl⟩, nofun, nofun, nofun, nofun⟩

/-- **The single-path gate serves one path's own book.**  In every state reached by batches without order
ids and any other calls, a complete replay entry of a market with no re-baseline pending rests, with its
open event folded in, exactly what the accumulator of the path the market was last admitted from rests, if
that accumulator is complete. -/
theorem served_book_is_one_paths (modes : FinMap String ArbitrationMode)
    (sharedSlots : FinMap String (Finset String)) (cfg : Authority.AuthorityConfig) (dedupWindowNs : Nat)
    (guardCfg : BookGuardConfig) (calls : List Call) (hcalls : ∀ c ∈ calls, c.Unordered) (key : BookKey)
    (m : BookMarket) (r : BookAccumulator) (p : Transport)
    (hm : (machine.exec (.new modes sharedSlots cfg dedupWindowNs guardCfg true) calls).bookMarkets.get
      key = some m)
    (hflag : m.rebaseline = false)
    (hr : (machine.exec (.new modes sharedSlots cfg dedupWindowNs guardCfg true) calls).replayEntry key =
      some r)
    (hbase : r.baselined = true)
    (hp : (machine.exec (.new modes sharedSlots cfg dedupWindowNs guardCfg true) calls).books.lastAdmitted
      key = some p) :
    ∃ acc, m.paths.get p = some acc ∧ (acc.baselined = true → r.settled = acc.settled) := by
  have hrun : machine.Along (fun _ c => c.Prices key)
      (.new modes sharedSlots cfg dedupWindowNs guardCfg true) calls :=
    Machine.along_of_forall calls _ fun c hc => (hcalls c hc).prices key
  have hinv : SinglePath ((machine.exec (.new modes sharedSlots cfg dedupWindowNs guardCfg true)
      calls).view key) :=
    Machine.along_rule (P := fun a => SinglePath (a.view key)) (fun _ c hc h => h.call c hc) calls _ hrun
      (singlePath_new modes sharedSlots cfg dedupWindowNs guardCfg true)
  obtain ⟨acc, hacc, hfol⟩ := hinv.served m p hm hflag hp
  have hwired : ((machine.exec (.new modes sharedSlots cfg dedupWindowNs guardCfg true) calls).view
      key).wired = true := by
    show (machine.exec (.new modes sharedSlots cfg dedupWindowNs guardCfg true) calls).bookReplay.isSome =
      true
    unfold replayEntry at hr
    cases hrep : (machine.exec (.new modes sharedSlots cfg dedupWindowNs guardCfg true) calls).bookReplay with
    | none => rw [hrep] at hr; cases hr
    | some replay => rfl
  obtain ⟨r', hr', hfollows⟩ := hfol hwired
  obtain rfl : r = r' := Option.some.inj (hr.symm.trans hr')
  exact ⟨acc, hacc, fun hcomplete => hfollows.settled_eq hbase hcomplete⟩

/-! ## A served book and an abandoned event -/

def unitPrice : F64 := ⟨0x3FF0000000000000⟩

def unitBid : BookChange := ⟨.update, .bid, unitPrice, unitPrice, 0⟩

/-- A price-level batch of one venue. -/
def levelBatch (instrumentId : Nat) (changes : List BookChange) (last : Bool) (recvTsNs : Nat) :
    NormalizedBook :=
  ⟨"V", "V", 1, "S", 0, instrumentId, "c", false, changes, none, false, last, 0, recvTsNs, 0, 0⟩

def levelKey : BookKey := keyOf (levelBatch 7 [] true 0) "c"

def offer (path instrumentId : Nat) (changes : List BookChange) (last : Bool) (recvTsNs : Nat) : Call :=
  .emit (levelBatch instrumentId changes last recvTsNs) (.edge path) "c" false 0 0

def fresh : Arbiter := .new ∅ ∅ .DEFAULT 0 .DEFAULT true

/-- A path opens an event on a market, loses the universe to another one for the batch that closes the
event, and takes it back: the wire's event stays open. -/
def splitCalls : List Call :=
  [offer 1 7 [BookAccumulator.clearBoth] true 0, offer 1 7 [unitBid] false 0, offer 2 8 [] true 3000000000,
    offer 1 7 [] true 3000000000, offer 1 8 [] true 6000000000]

theorem served_book_is_one_paths_splitCalls :
    ∃ m r acc, (machine.exec fresh splitCalls).bookMarkets.get levelKey = some m ∧
      (machine.exec fresh splitCalls).replayEntry levelKey = some r ∧
      m.paths.get (.edge 1) = some acc ∧ r.pending = [unitBid] ∧ acc.pending = [] ∧
      r.settled = acc.settled := by
  have hcalls : ∀ c ∈ splitCalls, c.Unordered := by
    intro c hc
    simp only [splitCalls, List.mem_cons, List.not_mem_nil, or_false] at hc
    rcases hc with rfl | rfl | rfl | rfl | rfl
    all_goals simp [Call.Unordered, Unordered, offer, levelBatch, BookAccumulator.clearBoth, unitBid]
  obtain ⟨acc, hacc, hsettled⟩ := served_book_is_one_paths ∅ ∅ .DEFAULT 0 .DEFAULT splitCalls hcalls
    levelKey _ _ (.edge 1) rfl rfl rfl rfl (by decide)
  refine ⟨_, _, acc, rfl, rfl, hacc, rfl, ?_, ?_⟩
  · cases hacc; rfl
  · refine hsettled ?_
    cases hacc; rfl

theorem accumulateBook_of_tracked (hm : a.bookMarkets.get k = some m) :
    a.accumulateBook k publisher b = a.setMarket k (m.accumulate publisher b) := by
  unfold accumulateBook
  simp only
  rw [ensureMarket_of_tracked hm, hm]

/-- A price-level batch of a tracked market, up to the publication of an admitted one. -/
theorem emitScoped_priced {category : String} {label : Nat} {books : Authority.StickyAuthority}
    (now wall : Nat) (hkey : keyOf b category = k) (hb : Unordered b)
    (hlabel : a.books.pathOrdinal (Authority.scopeOf k) publisher = (a.books, some label))
    (hm : a.bookMarkets.get k = some m) (hol : m.orderLevel = false)
    (hnote : a.noteBatch k b publisher false = books) :
    ∃ moved : Bool, (books.lastAdmitted k = some publisher → moved = false) ∧
      a.emitScoped b publisher category false now wall =
        if (judgeBatch books k b publisher false).2.isEmitted then
          (({ a with books := (judgeBatch books k b publisher false).1 } : Arbiter).setMarket k
            (m.accumulate publisher b)).publishAdmitted k b publisher moved wall
        else if books.lastAdmitted k = some publisher ∧ b.changes ≠ [] then
          ((({ a with books := (judgeBatch books k b publisher false).1 } : Arbiter).setMarket k
            (m.accumulate publisher b)).forceRebaseline k, [])
        else
          (({ a with books := (judgeBatch books k b publisher false).1 } : Arbiter).setMarket k
            (m.accumulate publisher b), []) := by
  have hroute : a.orderLevelRoute k b = false := by
    have hids : (b.changes.any fun c => c.orderId ≠ 0) = false := by
      rw [List.any_eq_false]
      intro c hc
      simp [hb c hc]
    unfold orderLevelRoute
    rw [hids, hm]
    simp [hol]
  have hemit : a.emitScoped b publisher category false now wall = a.emitServed k b publisher false wall := by
    unfold emitScoped
    simp only [hkey, hlabel]
    rw [if_neg (by rw [hroute]; exact Bool.false_ne_true)]
  have hacc : ({ a with books := (judgeBatch books k b publisher false).1 } : Arbiter).accumulateBook k
      publisher b = ({ a with books := (judgeBatch books k b publisher false).1 } : Arbiter).setMarket k
        (m.accumulate publisher b) := accumulateBook_of_tracked hm
  refine ⟨books.lastAdmitted k ≠ some publisher && !((judgeBatch books k b publisher false).2.isEmitted &&
    ((books.lastAdmitted k).any fun p => p ≠ publisher) &&
      ({ a with books := (judgeBatch books k b publisher false).1 } : Arbiter).seamlessHandover k b.venue
        k.category publisher), fun hprev => by simp [hprev], ?_⟩
  rw [hemit]
  unfold emitServed
  simp only [ensureMarket_of_tracked hm, hnote, hacc]

/-- A batch of the path a served market follows, on which nothing is pending: it is folded on both sides. -/
theorem step_steady {changes : List BookChange} {last : Bool} {path instrumentId recvTsNs : Nat}
    {r : BookAccumulator} {label : Nat} {books : Authority.StickyAuthority}
    (hkey : keyOf (levelBatch instrumentId changes last recvTsNs) "c" = k)
    (hb : Unordered (levelBatch instrumentId changes last recvTsNs))
    (hlabel : a.books.pathOrdinal (Authority.scopeOf k) (.edge path) = (a.books, some label))
    (hm : a.bookMarkets.get k = some m) (hflag : m.rebaseline = false) (hol : m.orderLevel = false)
    (hr : a.replayEntry k = some r)
    (hnote : a.noteBatch k (levelBatch instrumentId changes last recvTsNs) (.edge path) false = books)
    (hprev : books.lastAdmitted k = some (.edge path))
    (hadm : (judgeBatch books k (levelBatch instrumentId changes last recvTsNs) (.edge path)
      false).2.isEmitted = true) :
    (step a (offer path instrumentId changes last recvTsNs)).1.bookMarkets.get k =
        some (m.accumulate (.edge path) (levelBatch instrumentId changes last recvTsNs)) ∧
    (step a (offer path instrumentId changes last recvTsNs)).1.replayEntry k =
        some (r.apply (levelBatch instrumentId changes last recvTsNs)) ∧
    (step a (offer path instrumentId changes last recvTsNs)).1.books =
        (judgeBatch books k (levelBatch instrumentId changes last recvTsNs) (.edge path) false).1 := by
  have hid : (levelBatch instrumentId changes last recvTsNs).batchId = none := rfl
  show (a.emitScoped (levelBatch instrumentId changes last recvTsNs) (.edge path) "c" false 0
    0).1.bookMarkets.get k = _ ∧ (a.emitScoped (levelBatch instrumentId changes last recvTsNs) (.edge path) "c"
    false 0 0).1.replayEntry k = _ ∧ (a.emitScoped (levelBatch instrumentId changes last recvTsNs) (.edge path)
    "c" false 0 0).1.books = _
  generalize levelBatch instrumentId changes last recvTsNs = b at *
  obtain ⟨moved, hmoved, hemit⟩ := emitScoped_priced 0 0 hkey hb hlabel hm hol hnote
  rw [hemit, if_pos hadm, hmoved hprev]
  obtain ⟨replay, hreplay, hentry⟩ := Option.bind_eq_some_iff.mp hr
  have hget : (({ a with books := (judgeBatch books k b (.edge path) false).1 } : Arbiter).setMarket k
      (m.accumulate (.edge path) b)).bookMarkets.get k = some (m.accumulate (.edge path) b) :=
    FinMap.get_insert_self _ _ _
  unfold publishAdmitted
  rw [hget]
  simp only [BookMarket.accumulate, hflag, Bool.or_self, Bool.false_eq_true, if_false]
  simp [publishSteady, applyBookReplay, monotonicSlot, setMarket, replayEntry, hreplay, hentry, hid,
    FinMap.contains]

def flood : List BookChange := List.replicate MAX_PENDING_CHANGES unitBid

/-- The wire's open event outgrows the cap first; the path's own does with the clear that the wire then
folds as a whole book. -/
def strandedCalls : List Call :=
  splitCalls ++ [offer 1 7 flood false 6000000000, offer 1 7 [BookAccumulator.clearBoth] false 6000000000,
    offer 1 7 [] true 6000000000]

theorem flood_finite : flood.filter BookChange.isFinite = flood := by
  rw [List.filter_eq_self]
  intro c hc
  rw [List.eq_of_mem_replicate hc]
  decide

theorem length_flood : flood.length = MAX_PENDING_CHANGES := List.length_replicate

theorem unordered_levelBatch {instrumentId recvTsNs : Nat} {last : Bool} {changes : List BookChange}
    (h : ∀ c ∈ changes, c.orderId = 0) : Unordered (levelBatch instrumentId changes last recvTsNs) := h

theorem unordered_flood : ∀ c ∈ flood, c.orderId = 0 := by
  intro c hc
  rw [List.eq_of_mem_replicate hc]
  rfl

/-- A batch finds no hold to drop on a market that holds none. -/
theorem noteBatch_of_books {books : Authority.StickyAuthority} {b : NormalizedBook} (hb : a.books = books)
    (hr : (if clearLed b then books.noteRebaselinePoint k publisher else books).holdingRevert k = false) :
    a.noteBatch k b publisher false =
      if clearLed b then books.noteRebaselinePoint k publisher else books := by
  unfold noteBatch
  simp only [hb, hr, Bool.and_false, Bool.false_and, Bool.false_eq_true, if_false]

/-- The book with one bid. -/
def oneBid : Resting := Resting.empty.applyChange unitBid

theorem feed_flood : EventBook.feed ⟨oneBid, [], true⟩ flood false = ⟨oneBid, flood, true⟩ := by
  unfold EventBook.feed
  simp only [flood_finite, List.nil_append, length_flood, Bool.false_eq_true, if_false, gt_iff_lt,
    lt_irrefl]

theorem feed_flood_open :
    EventBook.feed ⟨.empty, [unitBid], true⟩ flood false = ⟨.empty, [], false⟩ := by
  have hlen : ([unitBid] ++ flood).length > MAX_PENDING_CHANGES := by
    rw [List.length_append, length_flood]
    exact Nat.lt_add_of_pos_left Nat.one_pos
  unfold EventBook.feed
  simp only [flood_finite, Bool.false_eq_true, if_false, if_pos hlen]

theorem feed_flooded :
    EventBook.feed ⟨oneBid, flood, true⟩ [BookAccumulator.clearBoth] false = ⟨oneBid, [], false⟩ := by
  have hfin : [BookAccumulator.clearBoth].filter BookChange.isFinite = [BookAccumulator.clearBoth] := by
    decide
  have hlen : (flood ++ [BookAccumulator.clearBoth]).length > MAX_PENDING_CHANGES := by
    rw [List.length_append, length_flood]
    exact Nat.lt_succ_self _
  unfold EventBook.feed
  simp only [hfin, Bool.false_eq_true, if_false, if_pos hlen]

theorem feed_clear_open : EventBook.feed ⟨.empty, [], false⟩ [BookAccumulator.clearBoth] false =
    ⟨.empty, [BookAccumulator.clearBoth], false⟩ := rfl

/-- What the run leaves on the two sides: `before` is the path's book, `wire` the replay entry. -/
structure Sides (a : Arbiter) (before wire : EventBook) : Prop where
  market : ∃ m acc, a.bookMarkets.get levelKey = some m ∧ m.rebaseline = false ∧ m.orderLevel = false ∧
    m.paths.get (.edge 1) = some acc ∧ acc.core = before
  replay : ∃ r, a.replayEntry levelKey = some r ∧ r.core = wire

theorem Sides.steady {before wire : EventBook} {books : Authority.StickyAuthority} {label : Nat}
    (h : Sides a before wire) (changes : List BookChange) (last : Bool) (hc : ∀ c ∈ changes, c.orderId = 0)
    (hlabel : a.books.pathOrdinal (Authority.scopeOf levelKey) (.edge 1) = (a.books, some label))
    (hnote : a.noteBatch levelKey (levelBatch 7 changes last 6000000000) (.edge 1) false = books)
    (hprev : books.lastAdmitted levelKey = some (.edge 1))
    (hadm : (books.admitBatch levelKey (.edge 1) 6000000000).2.isEmitted = true) :
    Sides (step a (offer 1 7 changes last 6000000000)).1 (before.feed changes last)
        (wire.feed changes last) ∧
      (step a (offer 1 7 changes last 6000000000)).1.books =
        { (books.admitBatch levelKey (.edge 1) 6000000000).1 with holdReleased := none } := by
  obtain ⟨⟨m, acc, hm, hflag, hol, hacc, rfl⟩, r, hr, rfl⟩ := h
  obtain ⟨hm', hr', hbooks⟩ := step_steady (a := a) rfl (unordered_levelBatch hc) hlabel hm hflag hol hr
    hnote hprev hadm
  refine ⟨⟨⟨_, _, hm', hflag, hol, FinMap.get_insert_self _ _ _, folded_core hacc⟩, _, hr',
    BookAccumulator.core_apply _ _⟩, hbooks⟩

/-- **The last path's own book is not always what the wire holds**: a path whose event outgrew the cap in
one piece less than the wire's is left with an incomplete book, which the complete replay entry of the
market it is still followed on does not match. -/
theorem served_book_outlives_its_path :
    (∀ c ∈ strandedCalls, c.Unordered) ∧
    ∃ m r acc, (machine.exec fresh strandedCalls).bookMarkets.get levelKey = some m ∧
      m.rebaseline = false ∧ (machine.exec fresh strandedCalls).replayEntry levelKey = some r ∧
      r.baselined = true ∧
      (machine.exec fresh strandedCalls).books.lastAdmitted levelKey = some (.edge 1) ∧
      m.paths.get (.edge 1) = some acc ∧ r.settled ≠ acc.settled := by
  have hexec : machine.exec fresh strandedCalls =
      (step (step (step (machine.exec fresh splitCalls) (offer 1 7 flood false 6000000000)).1
        (offer 1 7 [BookAccumulator.clearBoth] false 6000000000)).1 (offer 1 7 [] true 6000000000)).1 := by
    rw [strandedCalls, Machine.exec_append]
    rfl
  refine ⟨?_, ?_⟩
  · intro c hc
    simp only [strandedCalls, splitCalls, List.cons_append, List.nil_append, List.mem_cons,
      List.not_mem_nil, or_false] at hc
    rcases hc with rfl | rfl | rfl | rfl | rfl | rfl | rfl | rfl
    case inr.inr.inr.inr.inr.inl => exact unordered_flood
    all_goals simp [Call.Unordered, Unordered, offer, levelBatch, BookAccumulator.clearBoth, unitBid]
  · rw [hexec]
    -- the two sides once the wire's event is the longer one
    have h₅ : Sides (machine.exec fresh splitCalls) ⟨oneBid, [], true⟩ ⟨.empty, [unitBid], true⟩ :=
      ⟨⟨_, _, rfl, rfl, rfl, rfl, rfl⟩, _, rfl, rfl⟩
    obtain ⟨h₆, hbooks₆⟩ := h₅.steady flood false unordered_flood rfl
      (noteBatch_of_books rfl (by decide)) (by decide) (by decide)
    rw [feed_flood, feed_flood_open] at h₆
    generalize (step (machine.exec fresh splitCalls) (offer 1 7 flood false 6000000000)).1 = a₆ at h₆ hbooks₆
    obtain ⟨h₇, hbooks₇⟩ := h₆.steady [BookAccumulator.clearBoth] false (by decide)
      (by rw [hbooks₆]; rfl) (noteBatch_of_books hbooks₆ (by decide)) (by decide) (by decide)
    rw [feed_flooded, feed_clear_open] at h₇
    generalize (step a₆ (offer 1 7 [BookAccumulator.clearBoth] false 6000000000)).1 = a₇ at h₇ hbooks₇
    obtain ⟨h₈, hbooks₈⟩ := h₇.steady [] true (by decide)
      (by rw [hbooks₇]; rfl) (noteBatch_of_books hbooks₇ (by decide)) (by decide) (by decide)
    generalize (step a₇ (offer 1 7 [] true 6000000000)).1 = a₈ at h₈ hbooks₈
    obtain ⟨⟨m, acc, hm, hflag, -, hacc, hcore⟩, r, hr, hrcore⟩ := h₈
    refine ⟨m, r, acc, hm, hflag, hr, ?_, by rw [hbooks₈]; decide, hacc, ?_⟩
    · show r.core.complete = true
      rw [hrcore]
      decide
    · intro heq
      have hr' : r.settled.bids.size = 0 := by
        show r.core.settled.bids.size = 0
        rw [hrcore]
        decide
      have hacc' : acc.settled.bids.size = 1 := by
        show acc.core.settled.bids.size = 1
        rw [hcore]
        decide
      rw [heq, hacc'] at hr'
      cases hr'


end Arbiter

end EdgeConnect
