import EdgeConnect.Lib.Projection
import EdgeConnect.Ingest.Arbiter
import EdgeConnect.Ingest.AuthorityRuns
import EdgeConnect.Ingest.PathRace
import EdgeConnect.Ingest.TapeLead
import EdgeConnect.Ingest.TradeWindow

/-!
# Trades through the arbiter (`Arbiter::emit_scoped` in `src/ingest/arbiter.rs`)

Executable model of the trade branch: a print is shown to the matcher, then to the tape of its universe where the venue has
one, and goes out unkeyed if it has no trade id and through the window of its symbol otherwise.

* `emitTrade` — one print; `TradeRuling` tells what each gate decided;
* `tape_changes_hands` — why a tape goes over to another path, and that a refused print leaves nothing behind;
* `trades_once` — the window of a symbol is a machine of its own, on the prints its tape let through;
* `double_print_reported` — two paths that print a tape without trade ids within the handover time are always reported.
-/

set_option autoImplicit false

namespace EdgeConnect.Arbiter

open Authority Race

/-! ## The model -/

/-- The default of the trade window. -/
def TRADE_DEDUP_WINDOW : Nat := 8192

structure NormalizedTrade where
  venue : String
  sourceId : Nat
  symbol : String
  channel : Nat
  price : F64
  size : F64
  aggressorSide : Side
  tradeId : Nat
  recvTsNs : Nat
  deriving DecidableEq, Repr

/-- A trade handed to the arbiter, with its path and what its row says. -/
structure TradeCall where
  trade : NormalizedTrade
  publisher : Transport
  category : String
  perChannel : Bool
  deriving DecidableEq, Repr

namespace TradeCall

def source (c : TradeCall) : SourceKey := .new c.trade.sourceId c.trade.venue

def scope (c : TradeCall) : ScopeKey := ⟨c.source, c.category⟩

def key (c : TradeCall) : SourceKey × String := (c.source, c.trade.symbol)

def delivery (c : TradeCall) : Delivery :=
  ⟨c.scope, c.trade.symbol, c.trade.price, c.trade.size, c.trade.aggressorSide, c.publisher, c.trade.recvTsNs⟩

def print (c : TradeCall) (books : StickyAuthority) : Print :=
  ⟨c.trade.sourceId, c.trade.venue, c.trade.channel, c.trade.recvTsNs, c.publisher, c.category, c.perChannel, books⟩

/-- The tape of the print. -/
def tape (c : TradeCall) : TapeKey := (c.scope, if c.perChannel then some c.trade.channel else none)

def copy (c : TradeCall) : Copy Nat Transport := ⟨c.trade.tradeId, c.publisher, c.trade.recvTsNs⟩

end TradeCall

/-- `Match::lead_for`: the challenger and its signed lead over the path that holds authority. -/
def leadFor (m : Match) (leader : Transport) : Option (Transport × Int) :=
  let delta : Int := (min m.deltaNs (2 ^ 63 - 1) : Nat)
  if leader = m.second then some (m.first, -delta)
  else if leader = m.first then some (m.second, delta)
  else none

/-- What the arbiter keeps of the trades. -/
structure TradeGate where
  modes : FinMap String ArbitrationMode
  books : StickyAuthority
  race : PathRace
  tapeLeader : FinMap TapeKey TapeLead
  noIdOwner : FinMap (SourceKey × String) (Transport × Nat)
  noIdConflictLogged : Bool
  trades : WindowedDedup (SourceKey × String) Nat Transport

/-- What became of a print: whether its tape let it through, whether its tape is printed twice, and the decision of the
window. -/
structure TradeRuling where
  passed : Bool
  conflict : Bool
  window : Option (Admit Transport)
  forwarded : Bool
  deriving DecidableEq, Repr

/-- The owner of a tape without trade ids and its last print, after a print of it; and whether it is printed twice. -/
def claimOwner (owner : Option (Transport × Nat)) (publisher : Transport) (recvNs : Nat) : (Transport × Nat) × Bool :=
  match owner with
  | some (p, lastNs) =>
    let stale := decide (recvNs - lastNs > NO_ID_TAPE_HANDOVER_NS)
    let concurrent := decide (p ≠ publisher) && !stale
    if concurrent then ((p, lastNs), true) else ((publisher, recvNs), false)
  | none => ((publisher, recvNs), false)

namespace TradeGate

def new (modes : FinMap String ArbitrationMode) (cfg : AuthorityConfig) (matchWindowNs tradeWindow : Nat) : TradeGate where
  modes := modes
  books := .new cfg
  race := .new matchWindowNs
  tapeLeader := ∅
  noIdOwner := ∅
  noIdConflictLogged := false
  trades := .new tradeWindow

def modeFor (g : TradeGate) (venue : String) : ArbitrationMode := (g.modes.get venue).getD .coordinated

/-- `race_eligible`: evidence comes from an edge path that the authority tracks. -/
def raceEligible (g : TradeGate) (scope : ScopeKey) (publisher : Transport) : Bool :=
  match publisher with
  | .edge _ => g.books.tracksPath scope publisher
  | .publicWs => false

/-- `observe_trade_race`. -/
def observeTradeRace (g : TradeGate) (c : TradeCall) : TradeGate :=
  let (race, m) := g.race.onTrade c.delivery
  let g : TradeGate := { g with race }
  match m with
  | none => g
  | some m =>
    match g.books.scopeLeader c.scope with
    | none => g
    | some leader =>
      match leadFor m leader with
      | none => g
      | some (challenger, leadNs) => { g with books := g.books.observeMatchedLead c.scope challenger leadNs }

/-- The matcher's part of a print. -/
def noteRace (g : TradeGate) (c : TradeCall) : TradeGate :=
  if g.raceEligible c.scope c.publisher then g.observeTradeRace c else g

/-- `claim_no_id_tape`. -/
def claimNoIdTape (g : TradeGate) (c : TradeCall) : TradeGate × Bool :=
  let (owner, concurrent) := claimOwner (g.noIdOwner.get c.key) c.publisher c.trade.recvTsNs
  ({ g with noIdOwner := if concurrent then g.noIdOwner else g.noIdOwner.insert c.key owner }, concurrent)

/-- The `Trade` branch of `emit_scoped` past the tape. -/
def emitPassed (g : TradeGate) (c : TradeCall) : TradeGate × TradeRuling :=
  if c.trade.tradeId = 0 then
    let (g, conflict) := if g.modeFor c.trade.venue = .sticky then (g, false) else g.claimNoIdTape c
    ({ g with noIdConflictLogged := g.noIdConflictLogged || conflict }, ⟨true, conflict, none, true⟩)
  else
    let (trades, a) := g.trades.admitCopy c.key c.copy
    ({ g with trades }, ⟨true, false, some a, a.isEmitted⟩)

/-- The `Trade` branch of `emit_scoped`. -/
def emitTrade (g : TradeGate) (c : TradeCall) : TradeGate × TradeRuling :=
  let g := g.noteRace c
  if g.modeFor c.trade.venue = .sticky then
    let (tapeLeader, passed) := tapePathAdmits g.tapeLeader (c.print g.books)
    let g : TradeGate := { g with tapeLeader }
    if passed then g.emitPassed c else (g, ⟨false, false, none, false⟩)
  else g.emitPassed c

/-- A call on the gate: a trade, an operation of the authority, or the report of the unmatched counts. -/
inductive Call where
  | trade (c : TradeCall)
  | authority (c : StickyAuthority.Call)
  | drainUnmatched

def step (g : TradeGate) : Call → TradeGate × Option TradeRuling
  | .trade c => ((g.emitTrade c).1, some (g.emitTrade c).2)
  | .authority c => ({ g with books := (StickyAuthority.step g.books c).1 }, none)
  | .drainUnmatched => ({ g with race := g.race.drainUnmatched.1 }, none)

/-- The gate as a machine over its calls. -/
def machine : Machine TradeGate Call (Option TradeRuling) := ⟨step⟩

end TradeGate

/-! ## One print -/

namespace TradeGate

variable {g : TradeGate} {c : TradeCall} {modes : FinMap String ArbitrationMode} {cfg : AuthorityConfig}
  {matchWindowNs tradeWindow : Nat}

/-- The matcher leaves the tapes and the windows alone. -/
theorem noteRace_frame (g : TradeGate) (c : TradeCall) : ∃ books race, g.noteRace c = { g with books, race } := by
  unfold noteRace
  split
  · unfold observeTradeRace
    simp only
    split
    · exact ⟨_, _, rfl⟩
    · split
      · exact ⟨_, _, rfl⟩
      · split
        · exact ⟨_, _, rfl⟩
        · exact ⟨_, _, rfl⟩
  · exact ⟨g.books, g.race, rfl⟩

/-- What is decided of a print past its tape. -/
inductive Passed (g g' : TradeGate) (c : TradeCall) (r : TradeRuling) : Prop
  | unkeyed (hid : c.trade.tradeId = 0) (hr : r = ⟨true, r.conflict, none, true⟩) (htrades : g'.trades = g.trades)
      (howner : if g.modeFor c.trade.venue = .sticky then r.conflict = false ∧ g'.noIdOwner = g.noIdOwner
        else g'.noIdOwner = (g.claimNoIdTape c).1.noIdOwner ∧ r.conflict = (g.claimNoIdTape c).2)
  | keyed (hid : c.trade.tradeId ≠ 0) (hr : r = ⟨true, false, some (g.trades.admitCopy c.key c.copy).2,
        (g.trades.admitCopy c.key c.copy).2.isEmitted⟩)
      (htrades : g'.trades = (g.trades.admitCopy c.key c.copy).1) (howner : g'.noIdOwner = g.noIdOwner)

theorem emitPassed_passed (g : TradeGate) (c : TradeCall) : Passed g (g.emitPassed c).1 c (g.emitPassed c).2 ∧
    (g.emitPassed c).1.modes = g.modes ∧ (g.emitPassed c).1.tapeLeader = g.tapeLeader ∧
    (g.emitPassed c).1.books = g.books ∧ (g.emitPassed c).1.race = g.race := by
  unfold emitPassed
  split
  · rename_i hid
    by_cases hmode : g.modeFor c.trade.venue = .sticky
    · rw [if_pos hmode]
      exact ⟨.unkeyed hid rfl rfl (by rw [if_pos hmode]; exact ⟨rfl, rfl⟩), rfl, rfl, rfl, rfl⟩
    · rw [if_neg hmode]
      exact ⟨.unkeyed hid rfl rfl (by rw [if_neg hmode]; exact ⟨rfl, rfl⟩), rfl, rfl, rfl, rfl⟩
  · rename_i hid
    exact ⟨.keyed hid rfl rfl rfl, rfl, rfl, rfl, rfl⟩

/-- Everything a print can do to the tapes and the windows. -/
inductive Printed (g : TradeGate) (c : TradeCall) (r : TradeGate × TradeRuling) : Prop
  | refused (hmode : g.modeFor c.trade.venue = .sticky)
      (htape : (tapePathAdmits g.tapeLeader (c.print (g.noteRace c).books)).2 = false)
      (hg : r = ({ g.noteRace c with tapeLeader := (tapePathAdmits g.tapeLeader (c.print (g.noteRace c).books)).1 },
        ⟨false, false, none, false⟩))
  | passed (hpassed : Passed g r.1 c r.2) (hmodes : r.1.modes = g.modes)
      (hbooks : r.1.books = (g.noteRace c).books) (hrace : r.1.race = (g.noteRace c).race)
      (htape : if g.modeFor c.trade.venue = .sticky then
          tapePathAdmits g.tapeLeader (c.print (g.noteRace c).books) = (r.1.tapeLeader, true)
        else r.1.tapeLeader = g.tapeLeader)

/-- **One print.** -/
theorem emitTrade_printed (g : TradeGate) (c : TradeCall) : Printed g c (g.emitTrade c) := by
  obtain ⟨books, race, hnote⟩ := noteRace_frame g c
  have hmodeFor : (g.noteRace c).modeFor c.trade.venue = g.modeFor c.trade.venue := by rw [hnote]; rfl
  have htapes : (g.noteRace c).tapeLeader = g.tapeLeader := by rw [hnote]
  unfold emitTrade
  simp only
  rw [hmodeFor, htapes]
  split
  · rename_i hmode
    split
    · rename_i hpass
      obtain ⟨hpassed, hmodes, htape, hbooks, hrace⟩ := emitPassed_passed
        { g.noteRace c with tapeLeader := (tapePathAdmits g.tapeLeader (c.print (g.noteRace c).books)).1 } c
      refine .passed ?_ (hmodes.trans (by rw [hnote])) hbooks hrace ?_
      · rw [hnote] at hpassed
        rw [hnote]
        rcases hpassed with ⟨hid, hr, ht, ho⟩ | ⟨hid, hr, ht, ho⟩
        · exact .unkeyed hid hr ht ho
        · exact .keyed hid hr ht ho
      · rw [if_pos hmode, htape]
        exact Prod.ext rfl hpass
    · rename_i hrefused
      exact .refused hmode (by simpa using hrefused) rfl
  · rename_i hmode
    obtain ⟨hpassed, hmodes, htape, hbooks, hrace⟩ := emitPassed_passed (g.noteRace c) c
    refine .passed ?_ (hmodes.trans (by rw [hnote])) hbooks hrace ?_
    · rw [hnote] at hpassed
      rw [hnote]
      rcases hpassed with ⟨hid, hr, ht, ho⟩ | ⟨hid, hr, ht, ho⟩
      · exact .unkeyed hid hr ht ho
      · exact .keyed hid hr ht ho
    · rw [if_neg hmode, htape, htapes]

/-! ## The window -/

/-- The copy that a call offered to the window of a key, and what that decided. -/
def offeredTo (key : SourceKey × String) (e : Call × Option TradeRuling) : Option (Copy Nat Transport × Admit Transport) :=
  match e with
  | (.trade c, some r) => if c.key = key then r.window.map fun a => (c.copy, a) else none
  | _ => none

/-- What a print does to the windows: it is decided by its own, or by none. -/
inductive Windowed (g g' : TradeGate) (c : TradeCall) (r : TradeRuling) : Prop
  | unasked (hw : r.window = none) (htrades : g'.trades = g.trades)
      (hout : r.forwarded = true ↔ r.passed = true ∧ c.trade.tradeId = 0)
      (hno : ¬ (r.passed = true ∧ c.trade.tradeId ≠ 0))
  | asked (hpassed : r.passed = true) (hid : c.trade.tradeId ≠ 0) (hw : r.window = some (g.trades.admitCopy c.key c.copy).2)
      (htrades : g'.trades = (g.trades.admitCopy c.key c.copy).1)
      (hout : r.forwarded = (g.trades.admitCopy c.key c.copy).2.isEmitted)

theorem emitTrade_windowed (g : TradeGate) (c : TradeCall) : Windowed g (g.emitTrade c).1 c (g.emitTrade c).2 := by
  have hprinted := emitTrade_printed g c
  generalize g.emitTrade c = r at hprinted
  cases hprinted with
  | refused hmode htape hg =>
    obtain ⟨books, race, hnote⟩ := noteRace_frame g c
    rw [hg, hnote]
    exact .unasked rfl rfl (by simp) (by simp)
  | passed hpassed =>
    rcases hpassed with ⟨hid, hr, htrades, -⟩ | ⟨hid, hr, htrades, -⟩
    · rw [hr]
      exact .unasked rfl htrades (by simp [hid]) (by simp [hid])
    · rw [hr]
      exact .asked rfl hid rfl htrades rfl

variable (tradeWindow) in
/-- The window of one key, as a part of the gate. -/
def byWindow (key : SourceKey × String) : Projection machine
    (keyWindow tradeWindow : Machine (DedupSeen Nat Transport) (Copy Nat Transport) (Admit Transport))
    (fun _ => True) (fun g : TradeGate => g.trades.capacity = tradeWindow) where
  view g := g.trades.window key
  pick := offeredTo key
  keeps g call hcap _ := by
    cases call with
    | trade c =>
      show (g.emitTrade c).1.trades.capacity = _
      rcases emitTrade_windowed g c with ⟨-, htrades, -⟩ | ⟨-, -, -, htrades, -⟩
      · rw [htrades, hcap]
      · rw [htrades, ← hcap]
        rfl
    | authority c => exact hcap
    | drainUnmatched => exact hcap
  moves g call hcap _ := by
    cases call with
    | trade c =>
      show ((if c.key = key then (g.emitTrade c).2.window.map fun a => (c.copy, a) else none) = none ∧
          (g.emitTrade c).1.trades.window key = _) ∨
        ∃ j, (if c.key = key then (g.emitTrade c).2.window.map fun a => (c.copy, a) else none) = some (j, _) ∧
          (g.emitTrade c).1.trades.window key = _
      rcases emitTrade_windowed g c with ⟨hw, htrades, -⟩ | ⟨-, -, hw, htrades, -⟩
      · exact .inl ⟨by rw [hw, Option.map_none, ite_self], by rw [htrades]⟩
      · rw [hw, htrades]
        unfold WindowedDedup.window WindowedDedup.admitCopy
        by_cases hkey : c.key = key
        · refine .inr ⟨c.copy, ?_, ?_⟩
          · rw [if_pos hkey, ← hkey, hcap]
            rfl
          · rw [← hkey, hcap]
            simp only
            rw [FinMap.get_insert_self]
            rfl
        · exact .inl ⟨if_neg hkey, by rw [FinMap.get_insert_of_ne _ _ (Ne.symm hkey)]⟩
    | authority c => exact .inl ⟨rfl, rfl⟩
    | drainUnmatched => exact .inl ⟨rfl, rfl⟩

/-- The copies that the window of a key decided in a run. -/
abbrev windowOf (key : SourceKey × String) (t : List (Call × Option TradeRuling)) :
    List (Copy Nat Transport × Admit Transport) := t.filterMap (offeredTo key)

/-- **Each trade goes out once.**  A print with a trade id goes out exactly when its tape lets it through and its window
takes it, and one without exactly when its tape lets it through.  The window decides by the prints of its own symbol that
passed their tape and by no other: the first copy of a trade id goes out, a repeated one only past `tradeWindow` others,
and one kept back has gone out before.  So a copy that the tape refused cannot keep back the copy of the leading path. -/
theorem trades_once (modes : FinMap String ArbitrationMode) (cfg : AuthorityConfig) (matchWindowNs tradeWindow : Nat)
    (calls : List Call) (key : SourceKey × String) :
    let t := machine.trace (.new modes cfg matchWindowNs tradeWindow) calls
    (∀ c r, (Call.trade c, some r) ∈ t →
      (r.window.isSome = true ↔ r.passed = true ∧ c.trade.tradeId ≠ 0) ∧
      (r.forwarded = true ↔ r.passed = true ∧ (c.trade.tradeId = 0 ∨ ∃ o, r.window = some (.emitted o)))) ∧
    ∀ u c a v, windowOf key t = u ++ (c, a) :: v → Decided tradeWindow u c a := by
  intro t
  refine ⟨fun c r he => ?_, fun u c a v hsplit => ?_⟩
  · obtain ⟨pre, post, htrace⟩ := List.append_of_mem he
    obtain ⟨js, ks, -, -, hreply, -⟩ := Machine.trace_cut _ htrace
    replace hreply : r = ((machine.exec (.new modes cfg matchWindowNs tradeWindow) js).emitTrade c).2 :=
      Option.some.inj hreply
    rw [hreply]
    rcases emitTrade_windowed (machine.exec (.new modes cfg matchWindowNs tradeWindow) js) c with
      ⟨hw, -, hout, hno⟩ | ⟨hpassed, hid, hw, -, hout⟩
    · rw [hw, hout]
      refine ⟨?_, ?_⟩
      · simpa using hno
      · simp
    · rw [hw, hout, hpassed]
      refine ⟨by simp [hid], ?_⟩
      simp only [true_and, hid, false_or, Option.some.injEq]
      cases (((machine.exec (.new modes cfg matchWindowNs tradeWindow) js).trades.admitCopy c.key c.copy).2) with
      | emitted o => simp [Admit.isEmitted]
      | dropped => simp [Admit.isEmitted]
      | contest winner leadNs => simp [Admit.isEmitted]
  · obtain ⟨htrace, -, -⟩ := (byWindow tradeWindow key).run calls (.new modes cfg matchWindowNs tradeWindow) rfl
      fun _ _ => trivial
    have hsplit' := htrace.symm.trans hsplit
    obtain ⟨js, ks, -, hu, he, -⟩ := Machine.trace_cut _ hsplit'
    rw [← hu]
    replace he : a = ((keyWindow tradeWindow).step ((keyWindow tradeWindow).exec .default js) c).2 := he
    rw [he]
    exact (retains_run tradeWindow js).decided c

/-! ## The tape -/

/-- Why another path may take the tape over from its leading one. -/
def Takes (lead : TapeLead) (t : Print) : Prop :=
  (t.books.tracksPath t.scope t.publisher = true ∧ t.books.tracksPath t.scope lead.path = false) ∨
    (t.books.scopeLeader t.scope = some t.publisher ∧ lead.honoredElection ≠ t.books.scopeLeader t.scope) ∨
    t.recvTsNs - lead.lastNs > NO_ID_TAPE_HANDOVER_NS

/-- Everything a print can do to its tape. -/
inductive TapeStep (m : FinMap TapeKey TapeLead) (t : Print) (r : FinMap TapeKey TapeLead × Bool) : Prop
  | led (lead : TapeLead) (hout : r.2 = true) (hget : r.1.get t.key = some lead) (hpath : lead.path = t.publisher)
      (hlast : lead.lastNs = t.recvTsNs)
      (hwhy : ∀ before, m.get t.key = some before → before.path = t.publisher ∨ Takes before t)
  | refused (before : TapeLead) (hbefore : m.get t.key = some before) (hpath : before.path ≠ t.publisher)
      (hwhy : ¬ Takes before t) (hr : r = (m, false))

theorem tapePathAdmits_step (m : FinMap TapeKey TapeLead) (t : Print) : TapeStep m t (tapePathAdmits m t) := by
  unfold tapePathAdmits
  simp only
  split
  · rename_i hnone
    refine .led _ rfl (FinMap.get_insert_self _ _ _) rfl rfl fun before hb => ?_
    rw [hnone] at hb
    cases hb
  · rename_i lead hlead
    split
    · rename_i hpath
      split
      · rename_i hwhy
        refine .led _ rfl (FinMap.get_insert_self _ _ _) rfl rfl fun before hb => .inr ?_
        rw [hlead] at hb
        cases hb
        simpa [Takes, or_assoc] using hwhy
      · rename_i hwhy
        refine .refused lead hlead hpath (fun h => hwhy ?_) rfl
        simpa [Takes, or_assoc] using h
    · rename_i hpath
      have hpath : lead.path = t.publisher := not_not.mp hpath
      refine .led _ rfl (FinMap.get_insert_self _ _ _) hpath rfl fun before hb => .inl ?_
      rw [hlead] at hb
      cases hb
      exact hpath

/-- The prints of a tape that a run let through, oldest first. -/
def printsOf (key : TapeKey) (t : List (Call × Option TradeRuling)) : List TradeCall :=
  t.filterMap fun e =>
    match e with
    | (.trade c, some r) => if c.tape = key ∧ r.passed then some c else none
    | _ => none

theorem printsOf_append (key : TapeKey) (t u : List (Call × Option TradeRuling)) :
    printsOf key (t ++ u) = printsOf key t ++ printsOf key u := List.filterMap_append

/-- The leading path and its last print are those of the last print that was let through. -/
def Leading (key : TapeKey) (t : List (Call × Option TradeRuling)) (g : TradeGate) : Prop :=
  (g.tapeLeader.get key).map (fun lead => (lead.path, lead.lastNs)) =
    (printsOf key t).getLast?.map fun c => (c.publisher, c.trade.recvTsNs)

theorem modes_run (calls : List Call) (g : TradeGate) : (machine.exec g calls).modes = g.modes := by
  refine Machine.invariant_rule (P := fun g' : TradeGate => g'.modes = g.modes) (fun g' call h => ?_) calls g rfl
  cases call with
  | trade c =>
    show (g'.emitTrade c).1.modes = _
    have hprinted := emitTrade_printed g' c
    generalize g'.emitTrade c = r at hprinted
    cases hprinted with
    | refused hmode htape hg =>
      obtain ⟨books, race, hnote⟩ := noteRace_frame g' c
      rw [hg, hnote]
      exact h
    | passed hpassed hmodes => exact hmodes.trans h
  | authority c => exact h
  | drainUnmatched => exact h

theorem modeFor_run (modes : FinMap String ArbitrationMode) (cfg : AuthorityConfig) (matchWindowNs tradeWindow : Nat)
    (calls : List Call) (venue : String) : (machine.exec (.new modes cfg matchWindowNs tradeWindow) calls).modeFor venue =
      (modes.get venue).getD .coordinated := by
  unfold modeFor
  rw [modes_run]
  rfl

/-- A Source is named as its venue. -/
theorem name_source (c : TradeCall) : c.source.name = c.trade.venue := by
  unfold TradeCall.source SourceKey.new
  split <;> rfl

/-- The tapes of a single-path venue. -/
def StickyTape (key : TapeKey) (g : TradeGate) : Prop := g.modeFor key.1.source.name = .sticky

theorem Leading.step {key : TapeKey} {t : List (Call × Option TradeRuling)} (h : Leading key t g) (hsticky : StickyTape key g)
    (call : Call) : Leading key (t ++ [(call, (machine.step g call).2)]) (machine.step g call).1 := by
  unfold Leading at h ⊢
  rw [printsOf_append]
  cases call with
  | authority c =>
    rw [show printsOf key [(Call.authority c, (machine.step g (.authority c)).2)] = [] from rfl, List.append_nil]
    exact h
  | drainUnmatched =>
    rw [show printsOf key [(Call.drainUnmatched, (machine.step g .drainUnmatched).2)] = [] from rfl, List.append_nil]
    exact h
  | trade c =>
    show ((g.emitTrade c).1.tapeLeader.get key).map _ =
      (printsOf key t ++ printsOf key [(.trade c, some (g.emitTrade c).2)]).getLast?.map _
    have hstep := tapePathAdmits_step g.tapeLeader (c.print (g.noteRace c).books)
    have hothers : c.tape ≠ key → (tapePathAdmits g.tapeLeader (c.print (g.noteRace c).books)).1.get key =
        g.tapeLeader.get key := fun hne => tape_others hne
    by_cases hkey : c.tape = key
    · have hmode : g.modeFor c.trade.venue = .sticky := by
        have hname : key.1.source.name = c.trade.venue := by
          rw [← hkey]
          exact name_source c
        rw [← hname]
        exact hsticky
      have hprinted := emitTrade_printed g c
      generalize g.emitTrade c = r at hprinted
      cases hprinted with
      | refused _ htape hg =>
        have hsame : tapePathAdmits g.tapeLeader (c.print (g.noteRace c).books) = (g.tapeLeader, false) := by
          rcases hstep with ⟨lead, hout, -⟩ | ⟨before, -, -, -, hr⟩
          · rw [htape] at hout
            cases hout
          · exact hr
        rw [hg, hsame]
        simpa [printsOf] using h
      | passed hpassed _ _ _ htape =>
        rw [if_pos hmode] at htape
        rw [htape] at hstep
        have hpass : r.2.passed = true := by
          rcases hpassed with ⟨-, hr, -⟩ | ⟨-, hr, -⟩ <;> rw [hr]
        rcases hstep with ⟨lead, -, hget, hpath, hlast, -⟩ | ⟨_, -, -, -, hr⟩
        · have hget' : r.1.tapeLeader.get key = some lead := by rw [← hkey]; exact hget
          rw [hget']
          simp only [printsOf, List.filterMap_cons, List.filterMap_nil, hkey, hpass, and_self, if_true,
            List.getLast?_append, List.getLast?_singleton, Option.some_or, Option.map_some]
          rw [hpath, hlast]
          rfl
        · exact absurd (Prod.mk.inj hr).2 (by simp)
    · have hnone : printsOf key [(.trade c, some (g.emitTrade c).2)] = [] := by simp [printsOf, hkey]
      rw [hnone, List.append_nil, ← h]
      have hprinted := emitTrade_printed g c
      generalize g.emitTrade c = r at hprinted
      cases hprinted with
      | refused _ _ hg => rw [hg, hothers hkey]
      | passed _ _ _ _ htape =>
        split at htape
        · rw [htape] at hothers
          rw [hothers hkey]
        · rw [htape]

theorem leading_run (modes : FinMap String ArbitrationMode) (cfg : AuthorityConfig) (matchWindowNs tradeWindow : Nat)
    {key : TapeKey} (hsticky : (modes.get key.1.source.name).getD .coordinated = .sticky) (calls : List Call) :
    Leading key (machine.trace (.new modes cfg matchWindowNs tradeWindow) calls)
      (machine.exec (.new modes cfg matchWindowNs tradeWindow) calls) := by
  induction calls using List.reverseRecOn with
  | nil => rfl
  | append_singleton calls call ih =>
    rw [Machine.trace_append, Machine.exec_append]
    exact ih.step ((modeFor_run modes cfg matchWindowNs tradeWindow calls _).trans hsticky) call

/-- **A tape changes hands for a reason.**  In a single-path venue, after any run, let `last` be the path and time of the
last print of a tape that was let through.  A print of another path is let through only if that path is tracked and the
last one is not, or it is the elected one, or the tape was silent for the handover time; a print of the same path, or of a
tape without one, always is.  A print that is refused does not go out and leaves the tape, its windows and its owners as
they were. -/
theorem tape_changes_hands (modes : FinMap String ArbitrationMode) (cfg : AuthorityConfig) (matchWindowNs tradeWindow : Nat)
    (calls : List Call) (c : TradeCall) (hsticky : (modes.get c.trade.venue).getD .coordinated = .sticky) :
    let g := machine.exec (.new modes cfg matchWindowNs tradeWindow) calls
    let last := (printsOf c.tape (machine.trace (.new modes cfg matchWindowNs tradeWindow) calls)).getLast?
    let books := (g.noteRace c).books
    ((g.emitTrade c).2.passed = true → ∀ a, last = some a → a.publisher ≠ c.publisher →
      (books.tracksPath c.scope c.publisher = true ∧ books.tracksPath c.scope a.publisher = false) ∨
        books.scopeLeader c.scope = some c.publisher ∨ c.trade.recvTsNs - a.trade.recvTsNs > NO_ID_TAPE_HANDOVER_NS) ∧
    ((∀ a, last = some a → a.publisher = c.publisher) → (g.emitTrade c).2.passed = true) ∧
    ((g.emitTrade c).2.passed = false → (g.emitTrade c).2.forwarded = false ∧ (g.emitTrade c).1 = g.noteRace c ∧
      ∃ a, last = some a ∧ a.publisher ≠ c.publisher ∧ c.trade.recvTsNs - a.trade.recvTsNs ≤ NO_ID_TAPE_HANDOVER_NS) := by
  intro g last books
  have hname : (modes.get c.tape.1.source.name).getD .coordinated = .sticky := by
    show (modes.get c.source.name).getD .coordinated = .sticky
    rw [name_source]
    exact hsticky
  have hleading := leading_run modes cfg matchWindowNs tradeWindow hname calls
  have hmode : g.modeFor c.trade.venue = .sticky :=
    (modeFor_run modes cfg matchWindowNs tradeWindow calls _).trans hsticky
  have hbefore : ∀ lead, g.tapeLeader.get c.tape = some lead → ∃ a, last = some a ∧ lead.path = a.publisher ∧
      lead.lastNs = a.trade.recvTsNs := by
    intro lead hlead
    unfold Leading at hleading
    rw [show (machine.exec (.new modes cfg matchWindowNs tradeWindow) calls).tapeLeader.get c.tape = some lead from hlead]
      at hleading
    obtain ⟨a, ha, heq⟩ := Option.map_eq_some_iff.mp hleading.symm
    obtain ⟨hp, hl⟩ := Prod.mk.inj heq
    exact ⟨a, ha, hp.symm, hl.symm⟩
  have hlast : ∀ a, last = some a → ∃ lead, g.tapeLeader.get c.tape = some lead ∧ lead.path = a.publisher ∧
      lead.lastNs = a.trade.recvTsNs := by
    intro a ha
    unfold Leading at hleading
    rw [show (printsOf c.tape (machine.trace (.new modes cfg matchWindowNs tradeWindow) calls)).getLast? = some a from ha]
      at hleading
    obtain ⟨lead, hlead, heq⟩ := Option.map_eq_some_iff.mp hleading
    obtain ⟨hp, hl⟩ := Prod.mk.inj heq
    exact ⟨lead, hlead, hp, hl⟩
  have hstep := tapePathAdmits_step g.tapeLeader (c.print books)
  have hprinted := emitTrade_printed g c
  generalize g.emitTrade c = r at hprinted
  have hpasses : r.2.passed = (tapePathAdmits g.tapeLeader (c.print books)).2 := by
    cases hprinted with
    | refused _ htape hg => rw [hg, htape]
    | passed hpassed _ _ _ htape =>
      rw [if_pos hmode] at htape
      rw [htape]
      rcases hpassed with ⟨-, hr, -⟩ | ⟨-, hr, -⟩ <;> rw [hr]
  rw [hpasses]
  rcases hstep with ⟨lead, hout, -, -, -, hwhy⟩ | ⟨before, hget, hpath, hwhy, hr⟩
  · refine ⟨fun _ a ha hne => ?_, fun _ => hout, fun h => ?_⟩
    · obtain ⟨before, hget, hp, hl⟩ := hlast a ha
      rcases hwhy before hget with hsame | hreason
      · exact absurd (hp.symm.trans hsame) hne
      · unfold Takes at hreason
        rw [hp, hl] at hreason
        rcases hreason with htracked | ⟨helected, -⟩ | hsilent
        · exact .inl htracked
        · exact .inr (.inl helected)
        · exact .inr (.inr hsilent)
    · rw [hout] at h
      cases h
  · obtain ⟨a, ha, hp, hl⟩ := hbefore before hget
    refine ⟨fun h => ?_, fun h => ?_, fun _ => ?_⟩
    · rw [hr] at h
      cases h
    · exact absurd (hp.trans (h a ha)) hpath
    · have hrefused : r = (g.noteRace c, ⟨false, false, none, false⟩) := by
        cases hprinted with
        | refused _ htape hg =>
          obtain ⟨books', race, hnote⟩ := noteRace_frame g c
          rw [hg, hr, hnote]
        | passed _ _ _ _ htape =>
          rw [if_pos hmode, hr] at htape
          cases (Prod.mk.inj htape).2
      rw [hrefused]
      refine ⟨rfl, rfl, a, ha, fun h => hpath (hp.trans h), ?_⟩
      rw [← hl]
      by_contra hlate
      exact hwhy (.inr (.inr (Nat.not_le.mp hlate)))

/-- A trade of one symbol. -/
def tradeOf (path tradeId ns : Nat) : TradeCall :=
  ⟨⟨"V", 1, "X", 0, ⟨1⟩, ⟨1⟩, .buy, tradeId, ns⟩, .edge path, "c", false⟩

/-- A path without books is refused while the one that printed last is not silent. -/
theorem tape_changes_hands_refused :
    ((machine.exec (.new ((∅ : FinMap String ArbitrationMode).insert "V" .sticky) .DEFAULT 5 8)
        [.trade (tradeOf 1 7 10)]).emitTrade (tradeOf 2 7 11)).2 = ⟨false, false, none, false⟩ ∧
      ∃ a, (printsOf (tradeOf 2 7 11).tape (machine.trace
          (.new ((∅ : FinMap String ArbitrationMode).insert "V" .sticky) .DEFAULT 5 8) [.trade (tradeOf 1 7 10)])).getLast? =
          some a ∧ a.publisher ≠ .edge 2 ∧ 11 - a.trade.recvTsNs ≤ NO_ID_TAPE_HANDOVER_NS := by
  have hrefused : ((machine.exec (.new ((∅ : FinMap String ArbitrationMode).insert "V" .sticky) .DEFAULT 5 8)
        [.trade (tradeOf 1 7 10)]).emitTrade (tradeOf 2 7 11)).2 = ⟨false, false, none, false⟩ := by decide +kernel
  have hlast := ((tape_changes_hands ((∅ : FinMap String ArbitrationMode).insert "V" .sticky) .DEFAULT 5 8
    [.trade (tradeOf 1 7 10)] (tradeOf 2 7 11) rfl).2.2 (by rw [hrefused])).2.2
  exact ⟨hrefused, hlast⟩

end TradeGate

/-! ## Prints without a trade id -/

/-- The tape of one symbol's prints without a trade id. -/
def ownerMachine : Machine (Option (Transport × Nat)) (Transport × Nat) Bool :=
  ⟨fun owner p => (some (claimOwner owner p.1 p.2).1, (claimOwner owner p.1 p.2).2)⟩

/-- The owner is the path of the last print that was not reported, at its time. -/
def Owns (t : List ((Transport × Nat) × Bool)) : Option (Transport × Nat) → Prop
  | none => t = []
  | some p => ∃ u v, t = u ++ (p, false) :: v ∧ ∀ e ∈ v, e.2 = true

theorem Owns.step {t : List ((Transport × Nat) × Bool)} {owner : Option (Transport × Nat)} (h : Owns t owner)
    (p : Transport × Nat) : Owns (t ++ [(p, (ownerMachine.step owner p).2)]) (ownerMachine.step owner p).1 := by
  show Owns (t ++ [(p, (claimOwner owner p.1 p.2).2)]) (some (claimOwner owner p.1 p.2).1)
  unfold claimOwner
  cases owner with
  | none => exact ⟨t, [], rfl, fun _ he => by cases he⟩
  | some o =>
    obtain ⟨u, v, rfl, hv⟩ := h
    simp only
    split
    · rename_i hconcurrent
      refine ⟨u, v ++ [(p, true)], by simp, fun e he => ?_⟩
      rcases List.mem_append.mp he with he | he
      · exact hv e he
      · rw [List.mem_singleton.mp he]
    · exact ⟨u ++ (o, false) :: v, [], rfl, fun _ he => by cases he⟩

/-- A print is reported exactly when another path printed last, within the handover time, and then it leaves the owner. -/
theorem claimOwner_some (o p : Transport × Nat) : claimOwner (some o) p.1 p.2 =
    if o.1 ≠ p.1 ∧ p.2 - o.2 ≤ NO_ID_TAPE_HANDOVER_NS then (o, true) else (p, false) := by
  simp only [claimOwner, Bool.and_eq_true, decide_eq_true_eq, Bool.not_eq_true', decide_eq_false_iff_not, gt_iff_lt, not_lt]

theorem claimOwner_iff (o p : Transport × Nat) : (claimOwner (some o) p.1 p.2).2 = true ↔
    o.1 ≠ p.1 ∧ p.2 - o.2 ≤ NO_ID_TAPE_HANDOVER_NS := by
  rw [claimOwner_some]
  split
  · exact iff_of_true rfl ‹_›
  · exact iff_of_false Bool.false_ne_true ‹_›

theorem claimOwner_kept {o p : Transport × Nat} (h : (claimOwner (some o) p.1 p.2).2 = false) :
    (claimOwner (some o) p.1 p.2).1 = p := by
  have hnot := mt (claimOwner_iff o p).mpr (by rw [h]; exact Bool.false_ne_true)
  rw [claimOwner_some, if_neg hnot]

theorem claimOwner_left {o p : Transport × Nat} (h : (claimOwner (some o) p.1 p.2).2 = true) :
    (claimOwner (some o) p.1 p.2).1 = o := by
  rw [claimOwner_some, if_pos ((claimOwner_iff o p).mp h)]

/-- Unreported prints within the handover time of one of them are all of its path. -/
theorem owner_constant {a b : Nat} (hab : b - a ≤ NO_ID_TAPE_HANDOVER_NS) :
    ∀ (ps : List (Transport × Nat)) (o : Transport × Nat), a ≤ o.2 → (∀ p ∈ ps, a ≤ p.2 ∧ p.2 ≤ b) →
      (∀ e ∈ ownerMachine.trace (some o) ps, e.2 = false) → ∀ p ∈ ps, p.1 = o.1
  | [], _, _, _, _ => fun _ hp => by cases hp
  | q :: ps, o, ho, hps, hquiet => by
    have hq : (claimOwner (some o) q.1 q.2).2 = false := hquiet (q, _) List.mem_cons_self
    have hpath : q.1 = o.1 := by
      by_contra hne
      have hin := hps q List.mem_cons_self
      have hreported := (claimOwner_iff o q).mpr ⟨Ne.symm hne, by omega⟩
      rw [hq] at hreported
      cases hreported
    have hnext : (ownerMachine.step (some o) q).1 = some q := congrArg some (claimOwner_kept hq)
    have hrest := owner_constant hab ps q (hps q List.mem_cons_self).1 (fun p hp => hps p (List.mem_cons_of_mem _ hp))
      fun e he => hquiet e (by rw [Machine.trace_cons, hnext]; exact List.mem_cons_of_mem _ he)
    intro p hp
    rcases List.mem_cons.mp hp with rfl | hp
    · exact hpath
    · exact (hrest p hp).trans hpath

/-- What is known of the reports of one tape. -/
structure Reports (t : List ((Transport × Nat) × Bool)) : Prop where
  /-- a report names a print of another path, within the handover time -/
  sound : ∀ u p v, t = u ++ (p, true) :: v → ∃ o, (o, false) ∈ u ∧ o.1 ≠ p.1 ∧ p.2 - o.2 ≤ NO_ID_TAPE_HANDOVER_NS
  /-- two paths that print within the handover time are reported, at the latest by the second print -/
  complete : ∀ u p x mid q y v, t = u ++ (p, x) :: mid ++ (q, y) :: v → p.1 ≠ q.1 →
    q.2 - p.2 ≤ NO_ID_TAPE_HANDOVER_NS → (∀ e ∈ mid ++ [(q, y)], p.2 ≤ e.1.2 ∧ e.1.2 ≤ q.2) →
    ∃ e ∈ (p, x) :: mid ++ [(q, y)], e.2 = true

theorem reports_run (ps : List (Transport × Nat)) : Reports (ownerMachine.trace none ps) := by
  refine ⟨fun u p v hcut => ?_, fun u p x mid q y v hcut hne hsoon hclock => ?_⟩
  · obtain ⟨js, ks, -, hu, hreply, -⟩ := Machine.trace_cut _ hcut
    have howns : Owns (ownerMachine.trace none js) (ownerMachine.exec none js) :=
      Machine.history_rule (P := Owns) (show Owns [] none from rfl) (fun _ _ p h => h.step p) js
    replace hreply : true = (claimOwner (ownerMachine.exec none js) p.1 p.2).2 := hreply
    cases howner : ownerMachine.exec none js with
    | none => rw [howner] at hreply; cases hreply
    | some o =>
      rw [howner] at hreply howns
      obtain ⟨u', v', ht, -⟩ := howns
      obtain ⟨hpath, hlate⟩ := (claimOwner_iff o p).mp hreply.symm
      refine ⟨o, ?_, hpath, hlate⟩
      rw [← hu, ht]
      simp
  · by_contra hquiet
    have hfalse : ∀ e ∈ (p, x) :: mid ++ [(q, y)], e.2 = false := by
      intro e he
      rw [← Bool.not_eq_true]
      exact fun h => hquiet ⟨e, he, h⟩
    rw [List.append_assoc, List.cons_append] at hcut
    obtain ⟨js, ks, -, -, hx, hrest⟩ := Machine.trace_cut _ hcut
    have hxf : (ownerMachine.step (ownerMachine.exec none js) p).2 = false := by
      rw [← hx]
      exact hfalse (p, x) (by simp)
    have hafter : (ownerMachine.step (ownerMachine.exec none js) p).1 = some p := by
      cases howner : ownerMachine.exec none js with
      | none => rfl
      | some o =>
        rw [howner] at hxf
        exact congrArg some (claimOwner_kept hxf)
    rw [hafter] at hrest
    obtain ⟨ms, ks', hks, hmid, hy, -⟩ := Machine.trace_cut _ hrest.symm
    replace hy : y = (ownerMachine.step (ownerMachine.exec (some p) ms) q).2 := hy
    have hms : ms = mid.map Prod.fst := by rw [← hmid, Machine.map_fst_trace]
    have htrace : ownerMachine.trace (some p) (ms ++ [q]) = mid ++ [(q, y)] := by
      rw [Machine.trace_append, hmid, Machine.trace_cons, Machine.trace_nil, hy]
    have hpath := owner_constant hsoon (ms ++ [q]) p (Nat.le_refl _) (fun z hz => ?_) (fun e he => ?_) q (by simp)
    · exact hne hpath.symm
    · have hz' : z ∈ (mid ++ [(q, y)]).map Prod.fst := by
        rw [List.map_append, ← hms]
        exact hz
      obtain ⟨e, he, rfl⟩ := List.mem_map.mp hz'
      exact hclock e he
    · rw [htrace] at he
      refine hfalse e ?_
      rw [List.cons_append]
      exact List.mem_cons_of_mem _ he

namespace TradeGate

variable {g : TradeGate} {c : TradeCall} {modes : FinMap String ArbitrationMode}

/-- A print of a symbol without a trade id, its path and time, and whether it was reported. -/
def unkeyedPrint (key : SourceKey × String) (e : Call × Option TradeRuling) : Option ((Transport × Nat) × Bool) :=
  match e with
  | (.trade c, some r) =>
    if c.key = key ∧ c.trade.tradeId = 0 then some ((c.publisher, c.trade.recvTsNs), r.conflict) else none
  | _ => none

/-- What a print does to the owners where the paths are coordinated. -/
theorem emitTrade_owners (hcoord : g.modeFor c.trade.venue = .coordinated) :
    if c.trade.tradeId = 0 then
      (g.emitTrade c).2.forwarded = true ∧ (g.emitTrade c).2.conflict = (g.claimNoIdTape c).2 ∧
        (g.emitTrade c).1.noIdOwner = (g.claimNoIdTape c).1.noIdOwner
    else (g.emitTrade c).1.noIdOwner = g.noIdOwner := by
  have hnot : ¬ g.modeFor c.trade.venue = .sticky := by rw [hcoord]; simp
  have hprinted := emitTrade_printed g c
  generalize g.emitTrade c = r at hprinted
  cases hprinted with
  | refused hmode => exact absurd hmode hnot
  | passed hpassed =>
    rcases hpassed with ⟨hid, hr, -, howner⟩ | ⟨hid, -, -, howner⟩
    · rw [if_neg hnot] at howner
      rw [if_pos hid]
      exact ⟨by rw [hr], howner.2, howner.1⟩
    · rw [if_neg hid]
      exact howner

/-- What the claim of a print leaves of the owners. -/
theorem claimNoIdTape_owner (g : TradeGate) (c : TradeCall) :
    (g.claimNoIdTape c).2 = (ownerMachine.step (g.noIdOwner.get c.key) (c.publisher, c.trade.recvTsNs)).2 ∧
      (g.claimNoIdTape c).1.noIdOwner.get c.key =
        (ownerMachine.step (g.noIdOwner.get c.key) (c.publisher, c.trade.recvTsNs)).1 ∧
      ∀ key, key ≠ c.key → (g.claimNoIdTape c).1.noIdOwner.get key = g.noIdOwner.get key := by
  unfold claimNoIdTape ownerMachine
  simp only
  refine ⟨trivial, ?_, fun key hkey => ?_⟩
  · cases hc : (claimOwner (g.noIdOwner.get c.key) c.publisher c.trade.recvTsNs).2 with
    | false =>
      simp only [Bool.false_eq_true, if_false]
      exact FinMap.get_insert_self _ _ _
    | true =>
      simp only [if_true]
      cases howner : g.noIdOwner.get c.key with
      | none =>
        rw [howner] at hc
        cases hc
      | some o =>
        rw [howner] at hc
        exact congrArg some (claimOwner_left (p := (c.publisher, c.trade.recvTsNs)) hc).symm
  · split
    · rfl
    · exact FinMap.get_insert_of_ne _ _ hkey

/-- The owner of a symbol's tape, as a part of the gate where the paths are coordinated. -/
def byOwner (key : SourceKey × String) (hcoord : (modes.get key.1.name).getD .coordinated = .coordinated) :
    Projection machine ownerMachine (fun _ => True) (fun g : TradeGate => g.modes = modes) where
  view g := g.noIdOwner.get key
  pick := unkeyedPrint key
  keeps g call hmodes _ := (modes_run [call] g).trans hmodes
  moves g call hmodes _ := by
    cases call with
    | trade c =>
      show ((if c.key = key ∧ c.trade.tradeId = 0 then some ((c.publisher, c.trade.recvTsNs), (g.emitTrade c).2.conflict)
          else none) = none ∧ (g.emitTrade c).1.noIdOwner.get key = _) ∨
        ∃ j, (if c.key = key ∧ c.trade.tradeId = 0 then some ((c.publisher, c.trade.recvTsNs), (g.emitTrade c).2.conflict)
          else none) = some (j, _) ∧ (g.emitTrade c).1.noIdOwner.get key = _
      obtain ⟨hconflict, howner, hothers⟩ := claimNoIdTape_owner g c
      by_cases hasked : c.key = key ∧ c.trade.tradeId = 0
      · obtain ⟨hkey, hid⟩ := hasked
        have hmode : g.modeFor c.trade.venue = .coordinated := by
          unfold modeFor
          rw [hmodes, ← name_source, show c.source = key.1 from congrArg Prod.fst hkey]
          exact hcoord
        have howners := emitTrade_owners hmode
        rw [if_pos hid] at howners
        refine .inr ⟨(c.publisher, c.trade.recvTsNs), ?_, ?_⟩
        · rw [if_pos ⟨hkey, hid⟩, howners.2.1, hconflict, hkey]
        · rw [howners.2.2, ← hkey, howner]
      · refine .inl ⟨if_neg hasked, ?_⟩
        have hprinted := emitTrade_printed g c
        generalize g.emitTrade c = r at hprinted
        cases hprinted with
        | refused _ _ hg =>
          obtain ⟨books, race, hnote⟩ := noteRace_frame g c
          rw [hg, hnote]
        | passed hpassed =>
          rcases hpassed with ⟨hid, -, -, hclaim⟩ | ⟨-, -, -, hclaim⟩
          · split at hclaim
            · rw [hclaim.2]
            · rw [hclaim.1]
              exact hothers key fun hkey => hasked ⟨hkey.symm, hid⟩
          · rw [hclaim]
    | authority c => exact .inl ⟨rfl, rfl⟩
    | drainUnmatched => exact .inl ⟨rfl, rfl⟩

/-- The prints of a symbol without a trade id in a run, and which of them were reported. -/
abbrev unkeyedOf (key : SourceKey × String) (t : List (Call × Option TradeRuling)) : List ((Transport × Nat) × Bool) :=
  t.filterMap (unkeyedPrint key)

/-- **A double print is always reported.**  Where the paths of a venue are coordinated every print without a trade id goes
out.  One is reported only if another path printed the tape within the handover time before, and when two paths print
within that time, on a clock that does not go back, at least one of the prints from the first to the second is. -/
theorem double_print_reported (modes : FinMap String ArbitrationMode) (cfg : AuthorityConfig)
    (matchWindowNs tradeWindow : Nat) (calls : List Call) (key : SourceKey × String)
    (hcoord : (modes.get key.1.name).getD .coordinated = .coordinated) :
    let t := machine.trace (.new modes cfg matchWindowNs tradeWindow) calls
    (∀ c r, (Call.trade c, some r) ∈ t → c.key = key → c.trade.tradeId = 0 → r.forwarded = true) ∧
      Reports (unkeyedOf key t) := by
  intro t
  refine ⟨fun c r he hkey hid => ?_, ?_⟩
  · obtain ⟨pre, post, htrace⟩ := List.append_of_mem he
    obtain ⟨js, ks, -, -, hreply, -⟩ := Machine.trace_cut _ htrace
    replace hreply : r = ((machine.exec (.new modes cfg matchWindowNs tradeWindow) js).emitTrade c).2 :=
      Option.some.inj hreply
    have hmode : (machine.exec (.new modes cfg matchWindowNs tradeWindow) js).modeFor c.trade.venue = .coordinated := by
      rw [modeFor_run, ← name_source, show c.source = key.1 from congrArg Prod.fst hkey]
      exact hcoord
    have howners := emitTrade_owners hmode
    rw [if_pos hid] at howners
    rw [hreply]
    exact howners.1
  · obtain ⟨htrace, -, -⟩ := (byOwner key hcoord).run calls (.new modes cfg matchWindowNs tradeWindow) rfl fun _ _ => trivial
    rw [show unkeyedOf key t = (byOwner key hcoord).picked t from rfl, htrace]
    exact reports_run _

/-- Two paths print one symbol without trade ids, a nanosecond apart. -/
def doublePrints : List Call := [.trade (tradeOf 1 0 10), .trade (tradeOf 2 0 11)]

theorem double_print_reported_pair :
    unkeyedOf (⟨1, "V"⟩, "X") (machine.trace (.new ∅ .DEFAULT 5 8) doublePrints) =
        [((.edge 1, 10), false), ((.edge 2, 11), true)] ∧
      ∃ o, (o, false) ∈ [((Transport.edge 1, 10), false)] ∧ o.1 ≠ Transport.edge 2 ∧ 11 - o.2 ≤ NO_ID_TAPE_HANDOVER_NS := by
  have ht : unkeyedOf (⟨1, "V"⟩, "X") (machine.trace (.new ∅ .DEFAULT 5 8) doublePrints) =
      [((.edge 1, 10), false), ((.edge 2, 11), true)] := by decide +kernel
  exact ⟨ht, (double_print_reported ∅ .DEFAULT 5 8 doublePrints (⟨1, "V"⟩, "X") rfl).2.sound
    [((.edge 1, 10), false)] (.edge 2, 11) [] ht⟩

end TradeGate

end EdgeConnect.Arbiter
