import EdgeConnect.Lib.Projection
import EdgeConnect.Ingest.ChannelClock
import EdgeConnect.Ingest.Floor
import EdgeConnect.Ingest.UpdateIdFloor
import EdgeConnect.Ingest.Authority

/-!
# Quotes through the arbiter (`Arbiter::emit_scoped` and `judge_update_id` in `src/ingest/arbiter.rs`)

Executable model of the quote branch: a quote is judged by its Venue Update ID where its key is in that regime, and by the
floor on `source_ts` otherwise; one without a `source_ts` passes, one from the far future is refused, and a Source whose
identifiers conflict stops being judged by them for a while.

* `emitQuote` — one quote; `Ruling` tells by which rule it was decided;
* `byFloor`, `byId` — the two gates as parts of the whole;
* `quotes_latched` — what goes out, and why a quote that does not was late;
* `live_regime_rules` — while a key is in the regime nothing of it goes out but by a newer identifier;
* `conflict_contained` — a conflict silences the identifiers of its own Source, for `QUOTE_ID_DISABLE_NS`.
-/

set_option autoImplicit false

namespace EdgeConnect.Arbiter

open Authority

/-! ## The model -/

def QUOTE_TICK_CAP : Nat := 8192

/-- How long a Source does not use its identifiers after a conflict. -/
def QUOTE_ID_DISABLE_NS : Nat := 60000000000

/-- The canonical content of a quote, prices and sizes in units of `10^-8`. -/
structure QuoteId where
  bidPx : Int
  bidSz : Int
  askPx : Int
  askSz : Int
  bidN : Nat
  askN : Nat
  deriving DecidableEq, Repr

/-- A quote, with decimals in `P`. -/
structure NormalizedQuote (P : Type) where
  venue : String
  sourceId : Nat
  symbol : String
  bid : P
  ask : P
  bidSize : P
  askSize : P
  bidN : Nat
  askN : Nat
  sourceTsNs : Nat
  recvTsNs : Nat
  venueUpdateId : BitVec 32
  wire : QuoteWire

abbrev QuoteIdKey := SourceKey × Nat × String

/-- A quote handed to the arbiter: its path, the monotonic clock, and the wall clock as each gate would read it. -/
structure QuoteCall (P : Type) where
  quote : NormalizedQuote P
  publisher : Transport
  monoNs : Nat
  idWallNs : Nat
  floorWallNs : Nat

variable {P : Type}

/-- `QuoteId::of`; `canon` is the rounding to a multiple of `10^-8`. -/
def QuoteId.of (canon : P → Int) (q : NormalizedQuote P) : QuoteId :=
  ⟨canon q.bid, canon q.bidSize, canon q.ask, canon q.askSize, q.bidN, q.askN⟩

namespace QuoteCall

/-- `SourceKey::of`. -/
def source (c : QuoteCall P) : SourceKey := .new c.quote.sourceId c.quote.venue

def idKey (c : QuoteCall P) : QuoteIdKey := (c.source, c.quote.wire.channel, c.quote.symbol)

def floorKey (c : QuoteCall P) : SourceKey × String := (c.source, c.quote.symbol)

def idQuote (c : QuoteCall P) : IdQuote QuoteWire Transport :=
  ⟨c.quote.venueUpdateId, c.quote.wire, c.publisher, c.monoNs⟩

def sample (canon : P → Int) (c : QuoteCall P) : Sample QuoteId Transport :=
  ⟨c.quote.sourceTsNs, .of canon c.quote, c.publisher, c.quote.recvTsNs⟩

/-- The wall clock at the quote's arrival: `wall` where it was not stamped. -/
def arrived (c : QuoteCall P) (wall : Nat) : Nat := if c.quote.recvTsNs ≠ 0 then c.quote.recvTsNs else wall

/-- The quote is stamped too far ahead of its arrival. -/
def farFuture (c : QuoteCall P) (wall : Nat) : Bool :=
  c.quote.sourceTsNs > saturatingAdd (c.arrived wall) MAX_FUTURE_SKEW_NS

theorem le_of_farFuture {c : QuoteCall P} {wall : Nat} (h : c.farFuture wall = false) :
    c.quote.sourceTsNs ≤ c.arrived wall + MAX_FUTURE_SKEW_NS := by
  have hle : c.quote.sourceTsNs ≤ saturatingAdd (c.arrived wall) MAX_FUTURE_SKEW_NS := by
    simpa [farFuture] using h
  exact Nat.le_trans hle (saturatingAdd_le _ _)

end QuoteCall

/-- What the arbiter keeps of the quotes. -/
structure QuoteGate where
  quotes : StalenessFloor (SourceKey × String) QuoteId Transport
  quoteIds : UpdateIdFloor QuoteIdKey QuoteWire Transport
  quoteIdDisabled : FinMap SourceKey Nat

inductive IdOutcome where
  | legacy
  | forward
  | decided
  deriving DecidableEq, Repr

/-- How a quote was decided: the verdict on its identifier and the decision of the floor, where they were asked. -/
structure Ruling where
  verdict : Option IdVerdict
  floor : Option (Admit Transport)
  forwarded : Bool
  deriving DecidableEq, Repr

namespace Ruling

/-- The quote went out by its identifier. -/
def byId (r : Ruling) : Prop := ∃ v, r.verdict = some v ∧ v.decision = .admitted

/-- Its identifier was seen with another content. -/
def conflict (r : Ruling) : Prop := ∃ v, r.verdict = some v ∧ v.decision = .drop .conflict

end Ruling

namespace QuoteGate

def new (maxJump : BitVec 32) : QuoteGate := ⟨.new QUOTE_TICK_CAP, .new maxJump, ∅⟩

/-- `judge_update_id` past the disablement, with the verdict it came from. -/
def judgeEnabled (g : QuoteGate) (c : QuoteCall P) : QuoteGate × IdOutcome × Option IdVerdict :=
  if c.farFuture c.idWallNs then (g, .decided, none)
  else
    let (quoteIds, v) := g.quoteIds.judge c.idKey c.idQuote
    let g : QuoteGate := { g with quoteIds }
    match v.decision with
    | .legacy => (g, .legacy, some v)
    | .admitted => (g, .forward, some v)
    | .drop reason =>
      if reason = .conflict then
        ({ g with
            quoteIds := (g.quoteIds.resetWhere fun k => k.1 = c.source).1
            quoteIdDisabled := g.quoteIdDisabled.insert c.source (saturatingAdd c.monoNs QUOTE_ID_DISABLE_NS) },
          .decided, some v)
      else (g, .decided, some v)

/-- `judge_update_id`. -/
def judgeUpdateId (g : QuoteGate) (c : QuoteCall P) : QuoteGate × IdOutcome × Option IdVerdict :=
  match g.quoteIdDisabled.get c.source with
  | some disabledUntil =>
    if c.monoNs < disabledUntil then (g, .legacy, none)
    else { g with quoteIdDisabled := g.quoteIdDisabled.erase c.source }.judgeEnabled c
  | none => g.judgeEnabled c

/-- The identifiers, for a quote that carries one or whose key is in the regime. -/
def judgeQuote (g : QuoteGate) (c : QuoteCall P) : QuoteGate × IdOutcome × Option IdVerdict :=
  if c.quote.venueUpdateId ≠ 0 ∨ g.quoteIds.state.size ≠ 0 then
    if c.quote.venueUpdateId ≠ 0 ∨ g.quoteIds.state.contains c.idKey then g.judgeUpdateId c
    else (g, .legacy, none)
  else (g, .legacy, none)

/-- The `source_ts` bypass and floor. -/
def emitLegacy (canon : P → Int) (g : QuoteGate) (verdict : Option IdVerdict) (c : QuoteCall P) : QuoteGate × Ruling :=
  if c.quote.sourceTsNs = 0 then (g, ⟨verdict, none, true⟩)
  else if c.farFuture c.floorWallNs then (g, ⟨verdict, none, false⟩)
  else
    let (quotes, a) := g.quotes.admitSample c.floorKey (c.sample canon)
    ({ g with quotes }, ⟨verdict, some a, a.isEmitted⟩)

/-- The `Quote` branch of `emit_scoped`. -/
def emitQuote (canon : P → Int) (g : QuoteGate) (c : QuoteCall P) : QuoteGate × Ruling :=
  match g.judgeQuote c with
  | (g, .legacy, verdict) => g.emitLegacy canon verdict c
  | (g, .forward, verdict) => (g, ⟨verdict, none, true⟩)
  | (g, .decided, verdict) => (g, ⟨verdict, none, false⟩)

/-- The gate as a machine over the quotes. -/
def machine (canon : P → Int) : Machine QuoteGate (QuoteCall P) Ruling := ⟨emitQuote canon⟩

end QuoteGate

/-- What a sample leaves of the keys of a floor. -/
theorem StalenessFloor.get_admitSample {K V : Type} [DecidableEq K] [DecidableEq V] (f : StalenessFloor K V Transport)
    (key : K) (s : Sample V Transport) (k : K) : (f.admitSample key s).1.state.get k =
      if k = key then some (TickState.admitSample f.tickCap (f.state.get key) s).1 else f.state.get k := rfl

/-! ## One quote -/

namespace QuoteGate

variable {canon : P → Int} {g : QuoteGate} {c : QuoteCall P}

/-- The disablements as a quote of an enabled Source leaves them. -/
structure Enabled (g : QuoteGate) (c : QuoteCall P) (d : FinMap SourceKey Nat) : Prop where
  free : d.get c.source = none
  others : ∀ s, s ≠ c.source → d.get s = g.quoteIdDisabled.get s
  since : ∀ disabledUntil, g.quoteIdDisabled.get c.source = some disabledUntil → disabledUntil ≤ c.monoNs

/-- Everything the identifiers can say of a quote. -/
inductive Asked (g : QuoteGate) (c : QuoteCall P) : QuoteGate × IdOutcome × Option IdVerdict → Prop
  | disabled (disabledUntil : Nat) (hd : g.quoteIdDisabled.get c.source = some disabledUntil)
      (ht : c.monoNs < disabledUntil) : Asked g c (g, .legacy, none)
  | unasked (hid : c.quote.venueUpdateId = 0) (hkey : g.quoteIds.state.get c.idKey = none) : Asked g c (g, .legacy, none)
  | future (d : FinMap SourceKey Nat) (hd : Enabled g c d) (hf : c.farFuture c.idWallNs = true) :
      Asked g c ({ g with quoteIdDisabled := d }, .decided, none)
  | judged (d : FinMap SourceKey Nat) (outcome : IdOutcome) (hd : Enabled g c d) (hf : c.farFuture c.idWallNs = false)
      (hlegacy : outcome = .legacy ↔ (g.quoteIds.judge c.idKey c.idQuote).2.decision = .legacy)
      (hforward : outcome = .forward ↔ (g.quoteIds.judge c.idKey c.idQuote).2.decision = .admitted)
      (hcalm : (g.quoteIds.judge c.idKey c.idQuote).2.decision ≠ .drop .conflict) :
      Asked g c (⟨g.quotes, (g.quoteIds.judge c.idKey c.idQuote).1, d⟩, outcome,
        some (g.quoteIds.judge c.idKey c.idQuote).2)
  | conflicted (d : FinMap SourceKey Nat) (hd : Enabled g c d) (hf : c.farFuture c.idWallNs = false)
      (hconflict : (g.quoteIds.judge c.idKey c.idQuote).2.decision = .drop .conflict) :
      Asked g c (⟨g.quotes, ((g.quoteIds.judge c.idKey c.idQuote).1.resetWhere fun k => k.1 = c.source).1,
        d.insert c.source (saturatingAdd c.monoNs QUOTE_ID_DISABLE_NS)⟩, .decided,
        some (g.quoteIds.judge c.idKey c.idQuote).2)

theorem judgeEnabled_asked {d : FinMap SourceKey Nat} (hd : Enabled g c d) :
    Asked g c ({ g with quoteIdDisabled := d }.judgeEnabled c) := by
  unfold judgeEnabled
  split
  · rename_i hf
    exact .future d hd hf
  · rename_i hf
    have hf : c.farFuture c.idWallNs = false := by simpa using hf
    simp only
    split
    · rename_i hv
      exact .judged d .legacy hd hf (by simp [hv]) (by simp [hv]) (by simp [hv])
    · rename_i hv
      exact .judged d .forward hd hf (by simp [hv]) (by simp [hv]) (by simp [hv])
    · rename_i reason hv
      split
      · rename_i hreason
        exact .conflicted d hd hf (by rw [hv, hreason])
      · rename_i hreason
        exact .judged d .decided hd hf (by simp [hv]) (by simp [hv]) (by simp [hv, hreason])

theorem judgeUpdateId_asked : Asked g c (g.judgeUpdateId c) := by
  unfold judgeUpdateId
  split
  · rename_i disabledUntil hd
    split
    · rename_i ht
      exact .disabled disabledUntil hd ht
    · rename_i ht
      refine judgeEnabled_asked ⟨FinMap.get_erase_self _ _, fun s hs => FinMap.get_erase_of_ne _ hs, ?_⟩
      intro t htd
      rw [hd] at htd
      cases htd
      exact Nat.not_lt.mp ht
  · rename_i hd
    refine judgeEnabled_asked (d := g.quoteIdDisabled) ⟨hd, fun _ _ => rfl, ?_⟩
    intro t htd
    rw [hd] at htd
    cases htd

/-- An empty map of identifiers has no key: the shortcut asks what `contains_key` would. -/
theorem get_of_size (h : g.quoteIds.state.size = 0) (key : QuoteIdKey) : g.quoteIds.state.get key = none := by
  have hkeys : g.quoteIds.state.keys = ∅ := Finset.card_eq_zero.mp h
  rw [← FinMap.notMem_keys_iff, hkeys]
  exact Finset.notMem_empty _

/-- **The identifiers do one of the things `Asked` lists.** -/
theorem judgeQuote_asked : Asked g c (g.judgeQuote c) := by
  unfold judgeQuote
  split
  · split
    · exact judgeUpdateId_asked
    · rename_i hnone
      simp only [not_or, not_not, Bool.not_eq_true] at hnone
      exact .unasked hnone.1 (FinMap.contains_eq_false.mp hnone.2)
  · rename_i hnone
    simp only [not_or, not_not] at hnone
    exact .unasked hnone.1 (get_of_size hnone.2 _)

theorem Asked.quotes {r : QuoteGate × IdOutcome × Option IdVerdict} (h : Asked g c r) : r.1.quotes = g.quotes := by
  cases h <;> rfl

/-- What the floor did with a quote. -/
inductive Floored (canon : P → Int) (g g' : QuoteGate) (c : QuoteCall P) (r : Ruling) : Prop
  | byId (hf : r.floor = none) (hq : g'.quotes = g.quotes) (hid : r.byId) (hfuture : c.farFuture c.idWallNs = false)
      (hout : r.forwarded = true)
  | unstamped (hf : r.floor = none) (hq : g'.quotes = g.quotes) (hts : c.quote.sourceTsNs = 0) (hout : r.forwarded = true)
  | refused (hf : r.floor = none) (hq : g'.quotes = g.quotes) (hout : r.forwarded = false)
  | asked (a : Admit Transport) (hf : r.floor = some a) (hfuture : c.farFuture c.floorWallNs = false)
      (hq : g'.quotes = (g.quotes.admitSample c.floorKey (c.sample canon)).1)
      (ha : a = (g.quotes.admitSample c.floorKey (c.sample canon)).2) (hout : r.forwarded = a.isEmitted)

variable (canon g c) in
/-- **What one quote does to the floor.** -/
theorem emitQuote_floored : Floored canon g (g.emitQuote canon c).1 c (g.emitQuote canon c).2 := by
  have hasked := judgeQuote_asked (g := g) (c := c)
  have hquotes := hasked.quotes
  unfold emitQuote
  generalize g.judgeQuote c = r at hasked hquotes
  obtain ⟨g₁, outcome, verdict⟩ := r
  cases outcome with
  | legacy =>
    simp only at hquotes ⊢
    unfold emitLegacy
    split
    · rename_i hts
      exact .unstamped rfl hquotes hts rfl
    · split
      · exact .refused rfl hquotes rfl
      · rename_i hf
        exact .asked _ rfl (by simpa using hf) (by rw [← hquotes]) (by rw [← hquotes]) rfl
  | forward =>
    cases hasked with
    | judged d _ hd hf hlegacy hforward hcalm => exact .byId rfl hquotes ⟨_, rfl, hforward.mp rfl⟩ hf rfl
  | decided => exact .refused rfl hquotes rfl

/-- The floor is left alone, or asked of the quote. -/
theorem Floored.moved {g' : QuoteGate} {r : Ruling} (h : Floored canon g g' c r) :
    (r.floor = none ∧ g'.quotes = g.quotes) ∨
      (r.floor = some (g.quotes.admitSample c.floorKey (c.sample canon)).2 ∧
        g'.quotes = (g.quotes.admitSample c.floorKey (c.sample canon)).1) := by
  rcases h with ⟨hf, hq, -⟩ | ⟨hf, hq, -⟩ | ⟨hf, hq, -⟩ | ⟨a, hf, -, hq, ha, -⟩
  · exact .inl ⟨hf, hq⟩
  · exact .inl ⟨hf, hq⟩
  · exact .inl ⟨hf, hq⟩
  · exact .inr ⟨by rw [hf, ha], hq⟩

variable (canon g c) in
/-- The identifiers after a quote, and the verdict on it, are those of `judge_update_id`. -/
theorem emitQuote_ids : (g.emitQuote canon c).1.quoteIds = (g.judgeQuote c).1.quoteIds ∧
    (g.emitQuote canon c).1.quoteIdDisabled = (g.judgeQuote c).1.quoteIdDisabled ∧
    (g.emitQuote canon c).2.verdict = (g.judgeQuote c).2.2 := by
  unfold emitQuote
  generalize g.judgeQuote c = r
  obtain ⟨g₁, outcome, verdict⟩ := r
  cases outcome with
  | legacy =>
    simp only
    unfold emitLegacy
    split
    · exact ⟨rfl, rfl, rfl⟩
    · split
      · exact ⟨rfl, rfl, rfl⟩
      · exact ⟨rfl, rfl, rfl⟩
  | forward => exact ⟨rfl, rfl, rfl⟩
  | decided => exact ⟨rfl, rfl, rfl⟩

variable (canon g c) in
/-- A quote decided by its identifier goes out exactly when that was admitted. -/
theorem emitQuote_decided (h : (g.judgeQuote c).2.1 ≠ .legacy) :
    (g.emitQuote canon c).2.forwarded = true ↔ (g.judgeQuote c).2.1 = .forward := by
  unfold emitQuote
  generalize g.judgeQuote c = r at h ⊢
  obtain ⟨g₁, outcome, verdict⟩ := r
  cases outcome with
  | legacy => exact absurd rfl h
  | forward => simp
  | decided => simp

/-! ## The floor -/

/-- The machine of one key's floor. -/
abbrev quoteTick : Machine (Option (TickState QuoteId Transport)) (Sample QuoteId Transport) (Admit Transport) :=
  tick QUOTE_TICK_CAP

/-- The floor of one key, as a part of the gate. -/
def byFloor (canon : P → Int) (key : SourceKey × String) : Projection (machine canon) quoteTick
    (fun _ => True) (fun g : QuoteGate => g.quotes.tickCap = QUOTE_TICK_CAP) where
  view g := g.quotes.state.get key
  pick e := if e.1.floorKey = key then e.2.floor.map fun a => (e.1.sample canon, a) else none
  keeps g c hcap _ := by
    show (g.emitQuote canon c).1.quotes.tickCap = _
    rcases (emitQuote_floored canon g c).moved with ⟨-, hq⟩ | ⟨-, hq⟩ <;> rw [hq] <;> exact hcap
  moves g c hcap _ := by
    show ((if c.floorKey = key then (g.emitQuote canon c).2.floor.map fun a => (c.sample canon, a) else none) = none ∧
        (g.emitQuote canon c).1.quotes.state.get key = _) ∨
      ∃ j, (if c.floorKey = key then (g.emitQuote canon c).2.floor.map fun a => (c.sample canon, a) else none) = some (j, _) ∧
        (g.emitQuote canon c).1.quotes.state.get key = _
    rcases (emitQuote_floored canon g c).moved with ⟨hf, hq⟩ | ⟨hf, hq⟩
    · exact .inl ⟨by rw [hf, Option.map_none, ite_self], by rw [hq]⟩
    · by_cases hkey : c.floorKey = key
      · subst hkey
        have hstep : quoteTick.step (g.quotes.state.get c.floorKey) (c.sample canon) =
            ((g.quotes.admitSample c.floorKey (c.sample canon)).1.state.get c.floorKey,
              (g.quotes.admitSample c.floorKey (c.sample canon)).2) := by
          rw [StalenessFloor.get_admitSample, if_pos rfl, hcap]
          show _ = (_, (TickState.admitSample g.quotes.tickCap _ _).2)
          rw [hcap]
          rfl
        exact .inr ⟨c.sample canon, by rw [if_pos rfl, hf, hstep]; rfl, by rw [hq, hstep]⟩
      · refine .inl ⟨if_neg hkey, ?_⟩
        rw [hq]
        exact FinMap.get_insert_of_ne _ _ (Ne.symm hkey)

/-- What the floor decided of a key in a run. -/
abbrev floorOf (canon : P → Int) (key : SourceKey × String) (t : List (QuoteCall P × Ruling)) :
    List (Sample QuoteId Transport × Admit Transport) := (byFloor canon key).picked t

theorem floor_inv (canon : P → Int) (maxJump : BitVec 32) (calls : List (QuoteCall P)) (key : SourceKey × String) :
    TickInv QUOTE_TICK_CAP (floorOf canon key ((machine canon).trace (.new maxJump) calls))
      (((machine canon).exec (.new maxJump) calls).quotes.state.get key) := by
  refine (byFloor canon key).history_rule (fun _ st s h => TickInv.step (by decide) s h) ?_ rfl calls fun _ _ => trivial
  exact (rfl : TickInv QUOTE_TICK_CAP ([] : List (Sample QuoteId Transport × Admit Transport)) none)

/-- A sample that the floor keeps back is not later than its high water. -/
theorem late_of_not_emitted {cap : Nat} {st : Option (TickState QuoteId Transport)} {s : Sample QuoteId Transport}
    (h : (TickState.admitSample cap st s).2.isEmitted = false) : ∃ t, st = some t ∧ s.sourceTs ≤ t.highWater := by
  unfold TickState.admitSample at h
  cases st with
  | none => cases h
  | some t =>
    refine ⟨t, rfl, ?_⟩
    by_contra hlt
    rw [not_le] at hlt
    simp only [Nat.not_lt_of_lt hlt, gt_iff_lt, hlt, if_true, if_false] at h
    cases h

/-- What the floor let out of a run is in its trace, and was not stamped from the far future. -/
theorem exists_of_mem_emissions {canon : P → Int} {key : SourceKey × String} {maxJump : BitVec 32}
    {calls : List (QuoteCall P)} {x : Sample QuoteId Transport × Bool}
    (h : x ∈ emissions (floorOf canon key ((machine canon).trace (.new maxJump) calls))) :
    ∃ e ∈ (machine canon).trace (.new maxJump) calls, e.1.floorKey = key ∧ e.2.floor = some (.emitted x.2) ∧
      e.1.sample canon = x.1 ∧ e.1.farFuture e.1.floorWallNs = false := by
  unfold emissions at h
  obtain ⟨y, hy, hx⟩ := List.mem_filterMap.mp h
  obtain ⟨e, he, hpick⟩ := (Projection.mem_picked _).mp hy
  replace hpick : (if e.1.floorKey = key then e.2.floor.map fun a => (e.1.sample canon, a) else none) = some y := hpick
  split at hpick
  · rename_i hkey
    obtain ⟨a, hf, rfl⟩ := Option.map_eq_some_iff.mp hpick
    split at hx
    · rename_i o ho
      obtain rfl : a = .emitted o := ho
      cases hx
      refine ⟨e, he, hkey, hf, rfl, ?_⟩
      obtain ⟨pre, post, htrace⟩ := List.append_of_mem he
      obtain ⟨js, i, ks, -, -, rfl⟩ := Machine.trace_split _ htrace
      rcases emitQuote_floored canon ((machine canon).exec (.new maxJump) js) i with
        ⟨hf', -⟩ | ⟨hf', -⟩ | ⟨hf', -⟩ | ⟨-, -, hfuture, -⟩
      · exact absurd (hf.symm.trans hf') (by simp)
      · exact absurd (hf.symm.trans hf') (by simp)
      · exact absurd (hf.symm.trans hf') (by simp)
      · exact hfuture
    · cases hx
  · cases hpick

/-- Why a quote goes out, and how far ahead of its arrival it may be stamped. -/
theorem emitQuote_forwarded (hout : (g.emitQuote canon c).2.forwarded = true) :
    ((g.emitQuote canon c).2.byId ∨ c.quote.sourceTsNs = 0 ∨ ∃ o, (g.emitQuote canon c).2.floor = some (.emitted o)) ∧
      c.quote.sourceTsNs ≤ max (c.arrived c.idWallNs) (c.arrived c.floorWallNs) + MAX_FUTURE_SKEW_NS := by
  have hmax := Nat.le_max_left (c.arrived c.idWallNs) (c.arrived c.floorWallNs)
  have hmax' := Nat.le_max_right (c.arrived c.idWallNs) (c.arrived c.floorWallNs)
  rcases emitQuote_floored canon g c with
    ⟨-, -, hid, hfuture, -⟩ | ⟨-, -, hts, -⟩ | ⟨-, -, hno⟩ | ⟨a, hf, hfuture, -, -, ha⟩
  · have hle := QuoteCall.le_of_farFuture hfuture
    exact ⟨.inl hid, by omega⟩
  · exact ⟨.inr (.inl hts), by omega⟩
  · exact absurd (hout.symm.trans hno) (by simp)
  · have hle := QuoteCall.le_of_farFuture hfuture
    have hemitted : a.isEmitted = true := ha.symm.trans hout
    refine ⟨.inr (.inr ?_), by omega⟩
    cases a with
    | emitted o => exact ⟨o, hf⟩
    | dropped => cases hemitted
    | contest winner leadNs => cases hemitted

/-- **What goes out.**  The quotes of a symbol that the floor lets out never go back in time, each `source_ts` belongs to
the path that opened it, and a content comes back at its `source_ts` only past `QUOTE_TICK_CAP` others.  Nothing goes out
stamped later than `MAX_FUTURE_SKEW_NS` past its arrival, and what the floor keeps back is not later than a quote that went
out so: a forged stamp mutes its symbol for that long at most. -/
theorem quotes_latched (canon : P → Int) (maxJump : BitVec 32) (calls : List (QuoteCall P)) (key : SourceKey × String) :
    let t := (machine canon).trace (.new maxJump) calls
    Latched QUOTE_TICK_CAP (emissions (floorOf canon key t)) (contests (floorOf canon key t)) ∧
      (∀ e ∈ t, e.2.forwarded = true →
        (e.2.byId ∨ e.1.quote.sourceTsNs = 0 ∨ ∃ o, e.2.floor = some (.emitted o)) ∧
          e.1.quote.sourceTsNs ≤ max (e.1.arrived e.1.idWallNs) (e.1.arrived e.1.floorWallNs) + MAX_FUTURE_SKEW_NS) ∧
      ∀ pre c r post a, t = pre ++ (c, r) :: post → c.floorKey = key → r.floor = some a → r.forwarded = false →
        ∃ e ∈ pre, e.1.floorKey = key ∧ (∃ o, e.2.floor = some (.emitted o)) ∧
          c.quote.sourceTsNs ≤ e.1.quote.sourceTsNs ∧
          e.1.quote.sourceTsNs ≤ e.1.arrived e.1.floorWallNs + MAX_FUTURE_SKEW_NS := by
  intro t
  refine ⟨?_, ?_, ?_⟩
  · have hinv := floor_inv canon maxJump calls key
    generalize ((machine canon).exec (.new maxJump) calls).quotes.state.get key = st at hinv
    cases st with
    | none =>
      have hnil : floorOf canon key t = [] := hinv
      rw [hnil]
      exact .nil
    | some st => exact hinv.1
  · intro e he hout
    obtain ⟨pre, post, htrace⟩ := List.append_of_mem he
    obtain ⟨js, c, ks, -, -, rfl⟩ := Machine.trace_split _ htrace
    exact emitQuote_forwarded hout
  · intro pre c r post a htrace hkey hr hout
    obtain ⟨js, c', ks, -, hpre, he⟩ := Machine.trace_split _ htrace
    obtain ⟨rfl, hreply⟩ := Prod.mk.inj he
    have hinv := floor_inv canon maxJump js key
    rw [hpre] at hinv
    replace hreply : r = (((machine canon).exec (.new maxJump) js).emitQuote canon c).2 := hreply
    rcases emitQuote_floored canon ((machine canon).exec (.new maxJump) js) c with
      ⟨hf, -⟩ | ⟨hf, -⟩ | ⟨hf, -⟩ | ⟨a', hf, -, -, ha, hemit⟩
    · rw [← hreply, hr] at hf; cases hf
    · rw [← hreply, hr] at hf; cases hf
    · rw [← hreply, hr] at hf; cases hf
    · rw [← hreply, hout] at hemit
      rw [ha] at hemit
      obtain ⟨st, hst, hle⟩ := late_of_not_emitted hemit.symm
      rw [hkey] at hst
      rw [hst] at hinv
      obtain ⟨x, hx, hts⟩ := hinv.2.opened
      rw [← hpre] at hx
      obtain ⟨e, hemem, hekey, hefloor, hesample, hefuture⟩ := exists_of_mem_emissions hx
      rw [hpre] at hemem
      refine ⟨e, hemem, hekey, ⟨x.2, hefloor⟩, ?_, QuoteCall.le_of_farFuture hefuture⟩
      have hstamp : e.1.quote.sourceTsNs = st.highWater := by rw [← hts, ← hesample]; rfl
      rw [hstamp]
      exact hle

/-! ## The identifiers -/

/-- The machine of one key's identifiers. -/
abbrev quoteRegime (maxJump : BitVec 32) :
    Machine (Option (UpdateIdState QuoteWire Transport)) (IdQuote QuoteWire Transport) IdVerdict :=
  UpdateIdFloor.regime maxJump

/-- The entry is no conflict of the Source. -/
def CalmOn (source : SourceKey) (e : QuoteCall P × Ruling) : Prop := e.1.source = source → ¬ e.2.conflict

/-- The Source uses its identifiers. -/
def Uses (maxJump : BitVec 32) (source : SourceKey) (g : QuoteGate) : Prop :=
  g.quoteIds.maxJump = maxJump ∧ g.quoteIdDisabled.get source = none

theorem Enabled.free_of {d : FinMap SourceKey Nat} (hd : Enabled g c d) {source : SourceKey}
    (h : g.quoteIdDisabled.get source = none) : d.get source = none := by
  by_cases hs : source = c.source
  · rw [hs]
    exact hd.free
  · rw [hd.others source hs]
    exact h

/-- What a quote does to the identifiers of a key, while no identifier of its Source conflicts. -/
inductive IdStep (maxJump : BitVec 32) (key : QuoteIdKey) (g g' : QuoteGate) (c : QuoteCall P) (v : Option IdVerdict) : Prop
  | hidden (hv : c.idKey = key → v = none) (hget : g'.quoteIds.state.get key = g.quoteIds.state.get key)
  | shown (hkey : c.idKey = key) (hv : v = some (UpdateIdState.judge maxJump (g.quoteIds.state.get key) c.idQuote).2)
      (hget : g'.quoteIds.state.get key = (UpdateIdState.judge maxJump (g.quoteIds.state.get key) c.idQuote).1)

theorem emitQuote_idStep {maxJump : BitVec 32} (key : QuoteIdKey) (hcap : g.quoteIds.maxJump = maxJump)
    (hcalm : CalmOn key.1 (c, (g.emitQuote canon c).2)) :
    IdStep maxJump key g (g.emitQuote canon c).1 c (g.emitQuote canon c).2.verdict := by
  obtain ⟨hids, -, hverdict⟩ := emitQuote_ids canon g c
  have hasked := judgeQuote_asked (g := g) (c := c)
  unfold CalmOn Ruling.conflict at hcalm
  simp only [hverdict] at hcalm
  rw [hverdict]
  suffices h : ∀ g' : QuoteGate, g'.quoteIds = (g.judgeQuote c).1.quoteIds → IdStep maxJump key g g' c (g.judgeQuote c).2.2 from
    h _ hids
  intro g' hids
  generalize g.judgeQuote c = r at hasked hids hcalm
  cases hasked with
  | disabled => exact .hidden (fun _ => rfl) (by rw [hids])
  | unasked => exact .hidden (fun _ => rfl) (by rw [hids])
  | future => exact .hidden (fun _ => rfl) (by rw [hids])
  | judged d outcome hd hf hlegacy hforward hno =>
    by_cases hkey : c.idKey = key
    · refine .shown hkey ?_ ?_
      · rw [← hkey, ← hcap]
        rfl
      · rw [hids, ← hkey, ← hcap]
        exact UpdateIdFloor.get_put_self _ _ _
    · refine .hidden (fun h => absurd h hkey) ?_
      rw [hids]
      exact UpdateIdFloor.get_put_of_ne _ _ (Ne.symm hkey)
  | conflicted d hd hf hconflict =>
    have hother : c.source ≠ key.1 := fun hs => hcalm hs ⟨_, rfl, hconflict⟩
    have hkey : key ≠ c.idKey := fun h => hother (congrArg Prod.fst h).symm
    refine .hidden (fun h => absurd h.symm hkey) ?_
    rw [hids]
    show ((g.quoteIds.judge c.idKey c.idQuote).1.state.filter fun k _ => !decide (k.1 = c.source)).get key = _
    rw [FinMap.get_filter, decide_eq_false (Ne.symm hother)]
    have hget : (g.quoteIds.judge c.idKey c.idQuote).1.state.get key = g.quoteIds.state.get key :=
      UpdateIdFloor.get_put_of_ne _ _ hkey
    rw [hget]
    cases g.quoteIds.state.get key <;> rfl

theorem emitQuote_maxJump : (g.emitQuote canon c).1.quoteIds.maxJump = g.quoteIds.maxJump := by
  rw [(emitQuote_ids canon g c).1]
  have hasked := judgeQuote_asked (g := g) (c := c)
  generalize g.judgeQuote c = r at hasked
  cases hasked with
  | disabled => rfl
  | unasked => rfl
  | future => rfl
  | judged => exact UpdateIdFloor.put_maxJump _ _ _
  | conflicted => exact UpdateIdFloor.put_maxJump _ _ _

/-- A Source goes on using its identifiers until one of them conflicts. -/
theorem emitQuote_uses {maxJump : BitVec 32} {source : SourceKey} (huses : Uses maxJump source g)
    (hcalm : CalmOn source (c, (g.emitQuote canon c).2)) : Uses maxJump source (g.emitQuote canon c).1 := by
  obtain ⟨-, hdisabled, hverdict⟩ := emitQuote_ids canon g c
  have hasked := judgeQuote_asked (g := g) (c := c)
  unfold CalmOn Ruling.conflict at hcalm
  simp only [hverdict] at hcalm
  refine ⟨emitQuote_maxJump.trans huses.1, ?_⟩
  rw [hdisabled]
  generalize g.judgeQuote c = r at hasked hcalm
  cases hasked with
  | disabled => exact huses.2
  | unasked => exact huses.2
  | future d hd => exact hd.free_of huses.2
  | judged d outcome hd => exact hd.free_of huses.2
  | conflicted d hd hf hconflict =>
    have hother : c.source ≠ source := fun hs => hcalm hs ⟨_, rfl, hconflict⟩
    exact (FinMap.get_insert_of_ne _ _ (Ne.symm hother)).trans (hd.free_of huses.2)

/-- The identifiers of one key, as a part of the gate while its Source uses them. -/
def byIds (canon : P → Int) (maxJump : BitVec 32) (key : QuoteIdKey) : Projection (machine canon) (quoteRegime maxJump)
    (CalmOn key.1) (Uses maxJump key.1) where
  view g := g.quoteIds.state.get key
  pick e := if e.1.idKey = key then e.2.verdict.map fun v => (e.1.idQuote, v) else none
  keeps _ _ huses hcalm := emitQuote_uses huses hcalm
  moves g c huses hcalm := by
    show ((if c.idKey = key then (g.emitQuote canon c).2.verdict.map fun v => (c.idQuote, v) else none) = none ∧ _) ∨
      ∃ j, (if c.idKey = key then (g.emitQuote canon c).2.verdict.map fun v => (c.idQuote, v) else none) = some (j, _) ∧ _
    rcases emitQuote_idStep key huses.1 hcalm with ⟨hv, hget⟩ | ⟨hkey, hv, hget⟩
    · refine .inl ⟨?_, hget⟩
      split
      · rename_i hkey
        rw [hv hkey, Option.map_none]
      · rfl
    · exact .inr ⟨c.idQuote, by rw [if_pos hkey, hv]; rfl, hget⟩

/-- What a trace shows of the identifiers of a key is a verdict on a quote of that key. -/
theorem exists_of_mem_byIds {canon : P → Int} {maxJump : BitVec 32} {key : QuoteIdKey} {t : List (QuoteCall P × Ruling)}
    {x : IdQuote QuoteWire Transport × IdVerdict} (hx : x ∈ (byIds canon maxJump key).picked t) :
    ∃ e ∈ t, e.1.idKey = key ∧ e.1.idQuote = x.1 ∧ e.2.verdict = some x.2 := by
  obtain ⟨e, he, hpick⟩ := (Projection.mem_picked _).mp hx
  replace hpick : (if e.1.idKey = key then e.2.verdict.map fun v => (e.1.idQuote, v) else none) = some x := hpick
  split at hpick
  · rename_i hkey
    obtain ⟨w, hw, rfl⟩ := Option.map_eq_some_iff.mp hpick
    exact ⟨e, he, hkey, rfl, hw⟩
  · cases hpick

theorem maxJump_run (canon : P → Int) (maxJump : BitVec 32) (calls : List (QuoteCall P)) :
    ((machine canon).exec (.new maxJump) calls).quoteIds.maxJump = maxJump :=
  Machine.invariant_rule (P := fun g : QuoteGate => g.quoteIds.maxJump = maxJump)
    (fun _ _ h => emitQuote_maxJump.trans h) calls _ rfl

/-- A quote that goes out by its identifier leaves the last word of its key to it. -/
theorem emitQuote_byId {maxJump : BitVec 32} (hcap : g.quoteIds.maxJump = maxJump) (hid : (g.emitQuote canon c).2.byId) :
    ∃ v : IdVerdict, v.decision = .admitted ∧
      v = (UpdateIdState.judge maxJump (g.quoteIds.state.get c.idKey) c.idQuote).2 ∧
      (g.emitQuote canon c).1.quoteIds.state.get c.idKey =
        (UpdateIdState.judge maxJump (g.quoteIds.state.get c.idKey) c.idQuote).1 ∧
      Uses maxJump c.source (g.emitQuote canon c).1 := by
  obtain ⟨v, hv, hadmitted⟩ := hid
  have hcalm : CalmOn c.source (c, (g.emitQuote canon c).2) := by
    rintro - ⟨v', hv', hconflict⟩
    rw [hv] at hv'
    cases hv'
    rw [hadmitted] at hconflict
    cases hconflict
  rcases emitQuote_idStep c.idKey hcap hcalm with ⟨hnone, -⟩ | ⟨-, hsome, hget⟩
  · rw [hnone rfl] at hv
    cases hv
  · rw [hv] at hsome
    refine ⟨v, hadmitted, Option.some.inj hsome, hget, emitQuote_maxJump.trans hcap, ?_⟩
    obtain ⟨-, hdisabled, hverdict⟩ := emitQuote_ids canon g c
    have hasked := judgeQuote_asked (g := g) (c := c)
    rw [hdisabled]
    rw [hverdict] at hv
    generalize g.judgeQuote c = r at hasked hv
    cases hasked with
    | disabled => cases hv
    | unasked => cases hv
    | future => cases hv
    | judged d outcome hd => exact hd.free
    | conflicted d hd hf hconflict =>
      cases hv
      rw [hadmitted] at hconflict
      cases hconflict

/-- **A live regime**: some quotes after one that went out by its identifier, none of them out by its own and no identifier
of the Source in conflict, the key still holds the first one. -/
theorem regime_held {canon : P → Int} {maxJump : BitVec 32} {g : QuoteGate} (hcap : g.quoteIds.maxJump = maxJump)
    {a : QuoteCall P} (hid : (g.emitQuote canon a).2.byId) {mids : List (QuoteCall P)}
    (hcalm : ∀ e ∈ (machine canon).trace (g.emitQuote canon a).1 mids, CalmOn a.source e)
    (hmid : ∀ e ∈ (machine canon).trace (g.emitQuote canon a).1 mids, e.1.idKey = a.idKey → ¬ e.2.byId)
    (hsoon : ∀ c ∈ mids, c.monoNs - a.monoNs < QUOTE_ID_REGIME_TIMEOUT_NS) :
    Uses maxJump a.source ((machine canon).exec (g.emitQuote canon a).1 mids) ∧
      ∃ s, ((machine canon).exec (g.emitQuote canon a).1 mids).quoteIds.state.get a.idKey = some s ∧
        UpdateIdFloor.Holds maxJump s a.idQuote
          ((byIds canon maxJump a.idKey).picked ((machine canon).trace (g.emitQuote canon a).1 mids)) := by
  obtain ⟨v, hadmitted, hv, hget, huses⟩ := emitQuote_byId hcap hid
  have hempty : UpdateIdFloor.Regime maxJump [] (g.quoteIds.state.get a.idKey) :=
    ⟨fun _ _ x y h => absurd h (UpdateIdFloor.not_lastAdmit_nil x y),
      fun _ x y h => absurd h (UpdateIdFloor.not_lastAdmit_nil x y)⟩
  have hopen := hempty.judge a.idQuote
  rw [← hv, ← hget] at hopen
  have hregime := (byIds canon maxJump a.idKey).history_rule
    (P := fun t st => UpdateIdFloor.Regime maxJump ((a.idQuote, v) :: t) st)
    (fun _ _ q h => h.judge q) hopen huses mids hcalm
  obtain ⟨-, -, hkept⟩ := (byIds canon maxJump a.idKey).run mids _ huses hcalm
  refine ⟨hkept, ?_⟩
  have hlast : UpdateIdFloor.LastAdmit ((a.idQuote, v) ::
      (byIds canon maxJump a.idKey).picked ((machine canon).trace (g.emitQuote canon a).1 mids)) a.idQuote
      ((byIds canon maxJump a.idKey).picked ((machine canon).trace (g.emitQuote canon a).1 mids)) := by
    refine ⟨⟨[], v, rfl, hadmitted⟩, fun x hx hx' => ?_⟩
    obtain ⟨e, he, hkey, -, hw⟩ := exists_of_mem_byIds hx
    exact hmid e he hkey ⟨_, hw, hx'⟩
  cases hst : ((machine canon).exec (g.emitQuote canon a).1 mids).quoteIds.state.get a.idKey with
  | some s => exact ⟨s, rfl, hregime.held s hst _ _ hlast⟩
  | none =>
    obtain ⟨x, hx, hgone⟩ := hregime.cleared hst _ _ hlast
    obtain ⟨e, he, -, hq, -⟩ := exists_of_mem_byIds hx
    have hlate := hsoon e.1 ((machine canon).mem_of_mem_trace he)
    rw [← hq] at hgone
    exact absurd hgone (Nat.not_le.mpr hlate)

variable (canon) in
/-- A quote of a key that holds an identifier: it goes out by a newer one only, and within the cap it does. -/
theorem emitQuote_held {maxJump : BitVec 32} {s : UpdateIdState QuoteWire Transport} (huses : Uses maxJump c.source g)
    (hs : g.quoteIds.state.get c.idKey = some s) (hsoon : c.monoNs - s.lastAdmitNs < QUOTE_ID_REGIME_TIMEOUT_NS) :
    ((g.emitQuote canon c).2.forwarded = true → (g.emitQuote canon c).2.byId ∧ c.quote.venueUpdateId ≠ 0 ∧
      (UpdateIdFloor.Within maxJump s.last c.quote.venueUpdateId ∨
        ∃ cand, s.candidate = some cand ∧ cand.source ≠ c.publisher ∧
          (c.quote.venueUpdateId - cand.id).toInt.natAbs ≤ maxJump.toNat)) ∧
    (c.farFuture c.idWallNs = false → c.quote.venueUpdateId ≠ 0 →
      UpdateIdFloor.Within maxJump s.last c.quote.venueUpdateId → (g.emitQuote canon c).2.forwarded = true) := by
  obtain ⟨-, -, hverdict⟩ := emitQuote_ids canon g c
  have hdecided := emitQuote_decided canon g c
  have hasked := judgeQuote_asked (g := g) (c := c)
  have hjudged := UpdateIdFloor.judge_judged maxJump (some s) c.idQuote
  have hverdict' : (g.quoteIds.judge c.idKey c.idQuote).2 = (UpdateIdState.judge maxJump (some s) c.idQuote).2 := by
    rw [← hs, ← huses.1]
    rfl
  unfold Ruling.byId
  rw [hverdict]
  generalize g.judgeQuote c = r at hasked hdecided
  generalize UpdateIdState.judge maxJump (some s) c.idQuote = j at hjudged hverdict'
  cases hasked with
  | disabled disabledUntil hd => rw [huses.2] at hd; cases hd
  | unasked hid hkey => rw [hs] at hkey; cases hkey
  | future d hd hf =>
    have hout := hdecided (by simp)
    refine ⟨fun h => absurd (hout.mp h) (by simp), fun h => ?_⟩
    rw [hf] at h
    cases h
  | judged d outcome hd hf hlegacy hforward hcalm =>
    rw [hverdict'] at hlegacy hforward hcalm ⊢
    cases hjudged with
    | opened v hid hv hopens =>
      have hout := hdecided (by rw [hforward.mpr hv]; simp)
      refine ⟨fun _ => ⟨⟨v, rfl, hv⟩, hid, ?_⟩, fun _ _ _ => hout.mpr (hforward.mpr hv)⟩
      rcases hopens s rfl with ht | hw | ⟨-, cand, hc, hsource, hnear⟩
      · exact absurd ht (Nat.not_le.mpr hsoon)
      · exact .inl hw
      · exact .inr ⟨cand, hc, hsource, hnear⟩
    | cleared v hid hv hgone => exact absurd (hgone s rfl) (Nat.not_le.mpr hsoon)
    | refused s' v reason hst hv hid =>
      cases hst
      have hl : outcome ≠ .legacy := fun h => absurd ((hlegacy.mp h).symm.trans hv) (by simp)
      have hnf : outcome ≠ .forward := fun h => absurd ((hforward.mp h).symm.trans hv) (by simp)
      have hout := hdecided hl
      refine ⟨fun h => absurd (hout.mp h) hnf, fun _ hne hw => ?_⟩
      rcases hid with hid | hid
      · exact absurd hid hne
      · exact absurd hw hid
    | jumped s' v hst hv hp =>
      cases hst
      have hl : outcome ≠ .legacy := fun h => absurd ((hlegacy.mp h).symm.trans hv) (by simp)
      have hnf : outcome ≠ .forward := fun h => absurd ((hforward.mp h).symm.trans hv) (by simp)
      have hout := hdecided hl
      exact ⟨fun h => absurd (hout.mp h) hnf, fun _ _ hw => absurd hw.2 (not_le.mpr hp)⟩
  | conflicted d hd hf hconflict =>
    have hout := hdecided (by simp)
    refine ⟨fun h => absurd (hout.mp h) (by simp), fun _ hne hw => ?_⟩
    rw [hverdict'] at hconflict
    cases hjudged with
    | opened v hid hv hopens => rw [hv] at hconflict; cases hconflict
    | cleared v hid hv hgone => rw [hv] at hconflict; cases hconflict
    | refused s' v reason hst hv hid =>
      cases hst
      rcases hid with hid | hid
      · exact absurd hid hne
      · exact absurd hw hid
    | jumped s' v hst hv hp => rw [hv] at hconflict; cases hconflict

/-- A quote of the key next in a live regime: it goes out by an identifier of its own only, newer within the cap or next to
one that another path was refused, and within the cap it does. -/
theorem regime_next {canon : P → Int} {maxJump : BitVec 32} {g : QuoteGate} (hcap : g.quoteIds.maxJump = maxJump)
    {a : QuoteCall P} (hid : (g.emitQuote canon a).2.byId) {mids : List (QuoteCall P)}
    (hcalm : ∀ e ∈ (machine canon).trace (g.emitQuote canon a).1 mids, CalmOn a.source e)
    (hmid : ∀ e ∈ (machine canon).trace (g.emitQuote canon a).1 mids, e.1.idKey = a.idKey → ¬ e.2.byId)
    (hsoon : ∀ c ∈ mids, c.monoNs - a.monoNs < QUOTE_ID_REGIME_TIMEOUT_NS) {b : QuoteCall P} (hkey : b.idKey = a.idKey)
    (hlate : b.monoNs - a.monoNs < QUOTE_ID_REGIME_TIMEOUT_NS) {rb : Ruling}
    (hrb : rb = (((machine canon).exec (g.emitQuote canon a).1 mids).emitQuote canon b).2) :
    (rb.forwarded = true → rb.byId ∧ b.quote.venueUpdateId ≠ 0 ∧
      (UpdateIdFloor.Within maxJump a.quote.venueUpdateId b.quote.venueUpdateId ∨
        ∃ e ∈ (machine canon).trace (g.emitQuote canon a).1 mids, e.1.idKey = a.idKey ∧ e.1.publisher ≠ b.publisher ∧
          (∃ v, e.2.verdict = some v ∧ v.decision = .drop .jump) ∧
          UpdateIdFloor.Past maxJump a.quote.venueUpdateId e.1.quote.venueUpdateId ∧
          (b.quote.venueUpdateId - e.1.quote.venueUpdateId).toInt.natAbs ≤ maxJump.toNat)) ∧
    (b.farFuture b.idWallNs = false → b.quote.venueUpdateId ≠ 0 →
      UpdateIdFloor.Within maxJump a.quote.venueUpdateId b.quote.venueUpdateId → rb.forwarded = true) := by
  subst hrb
  obtain ⟨huses, s, hs, hholds⟩ := regime_held hcap hid hcalm hmid hsoon
  have hsource : b.source = a.source := congrArg Prod.fst hkey
  rw [← hsource] at huses
  rw [← hkey] at hs
  obtain ⟨hgoes, hwithin⟩ := emitQuote_held canon huses hs (by rw [hholds.since]; exact hlate)
  replace hlast : s.last = a.quote.venueUpdateId := hholds.last
  rw [hlast] at hgoes hwithin
  refine ⟨fun hout => ?_, hwithin⟩
  obtain ⟨hbyId, hne, hw | ⟨cand, hcand, hpath, hnear⟩⟩ := hgoes hout
  · exact ⟨hbyId, hne, .inl hw⟩
  · obtain ⟨x, hx, hxsource, hxid, hjump, hpast⟩ := hholds.candidate cand hcand
    obtain ⟨e, he, hekey, hq, hv⟩ := exists_of_mem_byIds hx
    rw [← hq] at hxsource hxid hpast
    refine ⟨hbyId, hne, .inr ⟨e, he, hekey, ?_, ⟨_, hv, hjump⟩, hpast, ?_⟩⟩
    · intro h
      exact hpath (hxsource.symm.trans h)
    · replace hxid : e.1.quote.venueUpdateId = cand.id := hxid
      rw [hxid]
      exact hnear

/-- In the order of the clock, no quote before another comes after it. -/
theorem monoNs_le_of_cut {js mids ks : List (QuoteCall P)} {a b : QuoteCall P}
    (h : ((js ++ a :: mids ++ b :: ks).map (·.monoNs)).Pairwise (· ≤ ·)) : ∀ c ∈ mids, c.monoNs ≤ b.monoNs := by
  intro c hc
  rw [List.map_append, List.map_append, List.pairwise_append] at h
  exact h.2.2 _ (List.mem_append_right _ (List.mem_map_of_mem (List.mem_cons_of_mem _ hc))) _
    (List.mem_map_of_mem List.mem_cons_self)

/-- **While a key is in the regime.**  Let `a` be a quote that went out by its identifier and `b` a later one of its key,
within the timeout, with no quote of the key out by its identifier in between and no conflict of the Source.  Then nothing
of the key went out in between; `b` goes out only by an identifier of its own, newer than that of `a` by `1 .. maxJump` or
next to one that another path was refused; and one newer by at most `maxJump` does go out, unless its stamp is from the far
future.  So no path without identifiers reaches a consumer of the key, however it is interleaved. -/
theorem live_regime_rules (canon : P → Int) (maxJump : BitVec 32) (calls : List (QuoteCall P))
    (hclock : (calls.map (·.monoNs)).Pairwise (· ≤ ·)) (pre mid post : List (QuoteCall P × Ruling)) (a b : QuoteCall P)
    (ra rb : Ruling)
    (hcut : (machine canon).trace (.new maxJump) calls = pre ++ (a, ra) :: mid ++ (b, rb) :: post)
    (hkey : b.idKey = a.idKey) (hra : ra.byId) (hcalm : ∀ e ∈ mid, CalmOn a.source e)
    (hmid : ∀ e ∈ mid, e.1.idKey = a.idKey → ¬ e.2.byId) (hsoon : b.monoNs - a.monoNs < QUOTE_ID_REGIME_TIMEOUT_NS) :
    (rb.forwarded = true → rb.byId ∧ b.quote.venueUpdateId ≠ 0 ∧
      (UpdateIdFloor.Within maxJump a.quote.venueUpdateId b.quote.venueUpdateId ∨
        ∃ e ∈ mid, e.1.idKey = a.idKey ∧ e.1.publisher ≠ b.publisher ∧
          (∃ v, e.2.verdict = some v ∧ v.decision = .drop .jump) ∧
          UpdateIdFloor.Past maxJump a.quote.venueUpdateId e.1.quote.venueUpdateId ∧
          (b.quote.venueUpdateId - e.1.quote.venueUpdateId).toInt.natAbs ≤ maxJump.toNat)) ∧
    (b.farFuture b.idWallNs = false → b.quote.venueUpdateId ≠ 0 →
      UpdateIdFloor.Within maxJump a.quote.venueUpdateId b.quote.venueUpdateId → rb.forwarded = true) ∧
    ∀ e ∈ mid, e.1.idKey = a.idKey → e.2.forwarded = false := by
  obtain ⟨js, ks, rfl, htrace, hrb, -⟩ := Machine.trace_cut _ hcut
  obtain ⟨js₁, mids, rfl, -, hra', hmids⟩ := Machine.trace_cut _ htrace
  rw [Machine.exec_append, Machine.exec_cons] at hrb
  have hcap := maxJump_run canon maxJump js₁
  generalize (machine canon).exec (.new maxJump) js₁ = g at hcap hra' hmids hrb
  replace hra' : ra = (g.emitQuote canon a).2 := hra'
  replace hmids : mid = (machine canon).trace (g.emitQuote canon a).1 mids := hmids
  replace hrb : rb = (((machine canon).exec (g.emitQuote canon a).1 mids).emitQuote canon b).2 := hrb
  subst hra' hmids
  have hlate : ∀ c ∈ mids, c.monoNs - a.monoNs < QUOTE_ID_REGIME_TIMEOUT_NS := fun c hc =>
    Nat.lt_of_le_of_lt (Nat.sub_le_sub_right (monoNs_le_of_cut hclock c hc) _) hsoon
  obtain ⟨hgoes, hwithin⟩ := regime_next hcap hra hcalm hmid hlate hkey hsoon hrb
  refine ⟨hgoes, hwithin, ?_⟩
  -- what holds of `b` holds of any quote of the key before it
  intro e he hekey
  obtain ⟨t, u, htu⟩ := List.append_of_mem he
  obtain ⟨ks, rest, rfl, -, hreply, -⟩ := Machine.trace_cut _ htu
  have hsub : ∀ x ∈ (machine canon).trace (g.emitQuote canon a).1 ks,
      x ∈ (machine canon).trace (g.emitQuote canon a).1 (ks ++ e.1 :: rest) := by
    intro x hx
    rw [Machine.trace_append]
    exact List.mem_append_left _ hx
  have hnext := regime_next hcap hra (fun x hx => hcalm x (hsub x hx)) (fun x hx => hmid x (hsub x hx))
    (fun c hc => hlate c (List.mem_append_left _ hc)) hekey (hlate e.1 ((machine canon).mem_of_mem_trace he)) hreply
  rw [← Bool.not_eq_true]
  intro hout
  exact hmid e he hekey (hnext.1 hout).1

/-- A quote of one symbol. -/
def quoteOf (id : BitVec 32) (path ns : Nat) : QuoteCall Int where
  quote := ⟨"V", 1, "X", 100, 101, 1, 1, 0, 0, 1000 + ns, 1000 + ns, id, ⟨1, 100, 1, 101, 1, 0, 0⟩⟩
  publisher := .edge path
  monoNs := ns
  idWallNs := 1000 + ns
  floorWallNs := 1000 + ns

/-- A path with identifiers and one without. -/
def mixedCalls : List (QuoteCall Int) := [quoteOf 100 1 0, quoteOf 0 2 1, quoteOf 101 1 2]

theorem live_regime_rules_mixed :
    (machine id).trace (.new 10) mixedCalls =
        [(quoteOf 100 1 0, ⟨some ⟨.admitted, none⟩, none, true⟩),
          (quoteOf 0 2 1, ⟨some ⟨.drop .regime, none⟩, none, false⟩),
          (quoteOf 101 1 2, ⟨some ⟨.admitted, none⟩, none, true⟩)] ∧
      UpdateIdFloor.Within 10 100 101 := by
  have hcut : (machine id).trace (.new 10) mixedCalls =
      [] ++ (quoteOf 100 1 0, ⟨some ⟨.admitted, none⟩, none, true⟩) ::
        [(quoteOf 0 2 1, ⟨some ⟨.drop .regime, none⟩, none, false⟩)] ++
        (quoteOf 101 1 2, ⟨some ⟨.admitted, none⟩, none, true⟩) :: [] := rfl
  refine ⟨hcut, ?_⟩
  have hrules := live_regime_rules id 10 mixedCalls (by decide) [] _ [] _ _ _ _ hcut rfl ⟨_, rfl, rfl⟩
    (by simp [CalmOn, Ruling.conflict]) (by simp [Ruling.byId]) (by decide)
  obtain ⟨-, -, hw | ⟨e, he, -, -, ⟨v, hv, hjump⟩, -⟩⟩ := hrules.1 rfl
  · exact hw
  · rw [List.mem_singleton] at he
    subst he
    cases hv
    cases hjump

/-! ## A conflict -/

/-- Two gates agree on everything they keep of a Source. -/
structure AgreeOn (source : SourceKey) (g g' : QuoteGate) : Prop where
  cap : g.quotes.tickCap = g'.quotes.tickCap
  ticks : ∀ symbol, g.quotes.state.get (source, symbol) = g'.quotes.state.get (source, symbol)
  maxJump : g.quoteIds.maxJump = g'.quoteIds.maxJump
  ids : ∀ key : QuoteIdKey, key.1 = source → g.quoteIds.state.get key = g'.quoteIds.state.get key
  disabled : g.quoteIdDisabled.get source = g'.quoteIdDisabled.get source

theorem AgreeOn.trans {source : SourceKey} {g g' g'' : QuoteGate} (h : AgreeOn source g g') (h' : AgreeOn source g' g'') :
    AgreeOn source g g'' :=
  ⟨h.cap.trans h'.cap, fun s => (h.ticks s).trans (h'.ticks s), h.maxJump.trans h'.maxJump,
    fun k hk => (h.ids k hk).trans (h'.ids k hk), h.disabled.trans h'.disabled⟩

variable (canon) in
/-- A quote of one Source leaves what is kept of another. -/
theorem emitQuote_frame {source : SourceKey} (hs : c.source ≠ source) : AgreeOn source (g.emitQuote canon c).1 g := by
  refine ⟨?_, fun symbol => ?_, emitQuote_maxJump, fun key hkey => ?_, ?_⟩
  · rcases (emitQuote_floored canon g c).moved with ⟨-, hq⟩ | ⟨-, hq⟩ <;> rw [hq]
    rfl
  · rcases (emitQuote_floored canon g c).moved with ⟨-, hq⟩ | ⟨-, hq⟩ <;> rw [hq]
    exact FinMap.get_insert_of_ne _ _ fun h => hs (congrArg Prod.fst h).symm
  · have hcalm : CalmOn key.1 (c, (g.emitQuote canon c).2) := fun h => absurd (h.trans hkey) hs
    rcases emitQuote_idStep key rfl hcalm with ⟨-, hget⟩ | ⟨hk, -⟩
    · exact hget
    · exact absurd ((congrArg Prod.fst hk).trans hkey) hs
  · rw [(emitQuote_ids canon g c).2.1]
    have hasked := judgeQuote_asked (g := g) (c := c)
    generalize g.judgeQuote c = r at hasked
    cases hasked with
    | disabled => rfl
    | unasked => rfl
    | future d hd => exact hd.others source (Ne.symm hs)
    | judged d outcome hd => exact hd.others source (Ne.symm hs)
    | conflicted d hd =>
      exact (FinMap.get_insert_of_ne _ _ (Ne.symm hs)).trans (hd.others source (Ne.symm hs))

/-- Storing the same at a key, and clearing the same keys, keeps the agreement. -/
theorem AgreeOn.judged {g g' : QuoteGate} (h : AgreeOn c.source g g') :
    (g.quoteIds.judge c.idKey c.idQuote).2 = (g'.quoteIds.judge c.idKey c.idQuote).2 ∧
      (g.quoteIds.judge c.idKey c.idQuote).1.maxJump = (g'.quoteIds.judge c.idKey c.idQuote).1.maxJump ∧
      ∀ key : QuoteIdKey, key.1 = c.source → (g.quoteIds.judge c.idKey c.idQuote).1.state.get key =
        (g'.quoteIds.judge c.idKey c.idQuote).1.state.get key := by
  have hget : g.quoteIds.state.get c.idKey = g'.quoteIds.state.get c.idKey := h.ids _ rfl
  have hput : ∀ f : UpdateIdFloor QuoteIdKey QuoteWire Transport, (f.judge c.idKey c.idQuote).1 =
    f.put c.idKey (UpdateIdState.judge f.maxJump (f.state.get c.idKey) c.idQuote).1 := fun _ => rfl
  refine ⟨?_, ?_, fun key hkey => ?_⟩
  · show (UpdateIdState.judge _ _ _).2 = (UpdateIdState.judge _ _ _).2
    rw [hget, h.maxJump]
  · rw [hput, hput, UpdateIdFloor.put_maxJump, UpdateIdFloor.put_maxJump]
    exact h.maxJump
  · rw [hput, hput, hget, h.maxJump]
    by_cases hk : key = c.idKey
    · rw [hk, UpdateIdFloor.get_put_self, UpdateIdFloor.get_put_self]
    · rw [UpdateIdFloor.get_put_of_ne _ _ hk, UpdateIdFloor.get_put_of_ne _ _ hk]
      exact h.ids key hkey

/-- What is decided of a quote reads only what the gate keeps of its Source. -/
theorem judgeEnabled_agree {g g' : QuoteGate} (h : AgreeOn c.source g g') :
    (g.judgeEnabled c).2 = (g'.judgeEnabled c).2 ∧ AgreeOn c.source (g.judgeEnabled c).1 (g'.judgeEnabled c).1 := by
  obtain ⟨hv, hjump, hids⟩ := h.judged
  unfold judgeEnabled
  split
  · exact ⟨rfl, h⟩
  · simp only
    rw [← hv]
    split
    · exact ⟨rfl, h.cap, h.ticks, hjump, hids, h.disabled⟩
    · exact ⟨rfl, h.cap, h.ticks, hjump, hids, h.disabled⟩
    · split
      · refine ⟨rfl, h.cap, h.ticks, hjump, fun key hkey => ?_, ?_⟩
        · show Option.filter _ _ = Option.filter _ _
          rw [hids key hkey]
        · exact (FinMap.get_insert_self _ _ _).trans (FinMap.get_insert_self _ _ _).symm
      · exact ⟨rfl, h.cap, h.ticks, hjump, hids, h.disabled⟩

theorem judgeQuote_eq (g : QuoteGate) (c : QuoteCall P) : g.judgeQuote c =
    if c.quote.venueUpdateId ≠ 0 ∨ g.quoteIds.state.contains c.idKey then g.judgeUpdateId c else (g, .legacy, none) := by
  unfold judgeQuote
  split
  · rfl
  · rename_i hnone
    simp only [not_or, not_not] at hnone
    have hkey := FinMap.contains_eq_false.mpr (get_of_size hnone.2 c.idKey)
    rw [if_neg (by simp [hnone.1, hkey])]

theorem judgeQuote_agree {g g' : QuoteGate} (h : AgreeOn c.source g g') :
    (g.judgeQuote c).2 = (g'.judgeQuote c).2 ∧ AgreeOn c.source (g.judgeQuote c).1 (g'.judgeQuote c).1 := by
  have hcontains : g.quoteIds.state.contains c.idKey = g'.quoteIds.state.contains c.idKey :=
    congrArg Option.isSome (h.ids c.idKey rfl)
  rw [judgeQuote_eq, judgeQuote_eq, hcontains]
  split
  · unfold judgeUpdateId
    rw [h.disabled]
    split
    · split
      · exact ⟨rfl, h⟩
      · refine judgeEnabled_agree ⟨h.cap, h.ticks, h.maxJump, h.ids, ?_⟩
        exact (FinMap.get_erase_self _ _).trans (FinMap.get_erase_self _ _).symm
    · exact judgeEnabled_agree h
  · exact ⟨rfl, h⟩

theorem emitQuote_agree {g g' : QuoteGate} (h : AgreeOn c.source g g') :
    AgreeOn c.source (g.emitQuote canon c).1 (g'.emitQuote canon c).1 ∧
      (g.emitQuote canon c).2 = (g'.emitQuote canon c).2 := by
  obtain ⟨hr, hagree⟩ := judgeQuote_agree h
  unfold emitQuote
  generalize g.judgeQuote c = r at hr hagree
  generalize g'.judgeQuote c = r' at hr hagree
  obtain ⟨g₁, outcome, verdict⟩ := r
  obtain ⟨g₁', outcome', verdict'⟩ := r'
  cases hr
  cases outcome with
  | forward => exact ⟨hagree, rfl⟩
  | decided => exact ⟨hagree, rfl⟩
  | legacy =>
    replace hagree : AgreeOn c.source g₁ g₁' := hagree
    simp only
    unfold emitLegacy
    split
    · exact ⟨hagree, rfl⟩
    · split
      · exact ⟨hagree, rfl⟩
      · have hget : g₁.quotes.state.get c.floorKey = g₁'.quotes.state.get c.floorKey := hagree.ticks c.quote.symbol
        have hasked : TickState.admitSample g₁.quotes.tickCap (g₁.quotes.state.get c.floorKey) (c.sample canon) =
            TickState.admitSample g₁'.quotes.tickCap (g₁'.quotes.state.get c.floorKey) (c.sample canon) := by
          rw [hget, hagree.cap]
        refine ⟨⟨hagree.cap, fun symbol => ?_, hagree.maxJump, hagree.ids, hagree.disabled⟩, ?_⟩
        · show (g₁.quotes.admitSample c.floorKey (c.sample canon)).1.state.get (c.source, symbol) =
            (g₁'.quotes.admitSample c.floorKey (c.sample canon)).1.state.get (c.source, symbol)
          rw [StalenessFloor.get_admitSample, StalenessFloor.get_admitSample, hasked, hagree.ticks symbol]
        · unfold StalenessFloor.admitSample
          rw [hasked]

/-- The identifiers of a Source are out of use until then. -/
def Silenced (source : SourceKey) (disabledUntil : Nat) (g : QuoteGate) : Prop :=
  g.quoteIdDisabled.get source = some disabledUntil

/-- Until then no identifier of the Source is judged, and it stays so. -/
theorem emitQuote_silenced {source : SourceKey} {disabledUntil : Nat} (h : Silenced source disabledUntil g)
    (ht : c.monoNs < disabledUntil) : Silenced source disabledUntil (g.emitQuote canon c).1 ∧
      (c.source = source → (g.emitQuote canon c).2.verdict = none) := by
  by_cases hs : c.source = source
  · subst hs
    obtain ⟨-, hdisabled, hverdict⟩ := emitQuote_ids canon g c
    unfold Silenced
    rw [hdisabled, hverdict, judgeQuote_eq]
    split
    · unfold judgeUpdateId
      rw [show g.quoteIdDisabled.get c.source = some disabledUntil from h]
      simp only [ht, if_true]
      exact ⟨h, fun _ => trivial⟩
    · exact ⟨h, fun _ => rfl⟩
  · refine ⟨?_, fun h => absurd h hs⟩
    exact (emitQuote_frame canon (g := g) hs).disabled.trans h

variable (canon) in
theorem silenced_run {source : SourceKey} {disabledUntil : Nat} : ∀ (calls : List (QuoteCall P)) (g : QuoteGate),
    (∀ c ∈ calls, c.monoNs < disabledUntil) → Silenced source disabledUntil g →
    Silenced source disabledUntil ((machine canon).exec g calls)
  | [], _, _, h => h
  | c :: calls, _, ht, h => silenced_run calls _ (fun c hc => ht c (List.mem_cons_of_mem _ hc))
      (emitQuote_silenced h (ht c List.mem_cons_self)).1

/-- A conflict silences its Source. -/
theorem emitQuote_conflict (h : (g.emitQuote canon c).2.conflict) : (g.emitQuote canon c).2.forwarded = false ∧
    Silenced c.source (saturatingAdd c.monoNs QUOTE_ID_DISABLE_NS) (g.emitQuote canon c).1 := by
  obtain ⟨v, hv, hconflict⟩ := h
  obtain ⟨-, hdisabled, hverdict⟩ := emitQuote_ids canon g c
  have hdecided := emitQuote_decided canon g c
  have hasked := judgeQuote_asked (g := g) (c := c)
  rw [hverdict] at hv
  unfold Silenced
  rw [hdisabled, ← Bool.not_eq_true]
  generalize g.judgeQuote c = r at hasked hv hdecided
  cases hasked with
  | disabled => cases hv
  | unasked => cases hv
  | future => cases hv
  | judged d outcome hd hf hlegacy hforward hcalm =>
    cases hv
    exact absurd hconflict hcalm
  | conflicted d hd =>
    have hout := hdecided (by simp)
    exact ⟨fun h => absurd (hout.mp h) (by simp), FinMap.get_insert_self _ _ _⟩

/-- **A conflict is contained.**  What becomes of the quotes of a Source does not depend on the quotes of any other.  A
quote whose identifier conflicts does not go out, and none of its Source is judged by its identifier until
`QUOTE_ID_DISABLE_NS` later: the bypass or the floor decides them, as if they carried none. -/
theorem conflict_contained (canon : P → Int) (maxJump : BitVec 32) (calls : List (QuoteCall P)) (source : SourceKey) :
    ((machine canon).trace (.new maxJump) calls).filter (fun e => e.1.source = source) =
        (machine canon).trace (.new maxJump) (calls.filter fun c => c.source = source) ∧
      ∀ pre c r mid b rb post, (machine canon).trace (.new maxJump) calls = pre ++ (c, r) :: mid ++ (b, rb) :: post →
        c.source = source → b.source = source → r.conflict → r.forwarded = false ∧
        ((calls.map (·.monoNs)).Pairwise (· ≤ ·) → b.monoNs < saturatingAdd c.monoNs QUOTE_ID_DISABLE_NS →
          rb.verdict = none) := by
  refine ⟨?_, ?_⟩
  · have hhidden : ∀ (g g' : QuoteGate) (c : QuoteCall P), decide (c.source = source) = false → AgreeOn source g g' →
        AgreeOn source ((machine canon).step g c).1 g' := by
      intro g g' c hs hagree
      exact (emitQuote_frame canon (g := g) (by simpa using hs)).trans hagree
    have hshown : ∀ (g g' : QuoteGate) (c : QuoteCall P), decide (c.source = source) = true → AgreeOn source g g' →
        AgreeOn source ((machine canon).step g c).1 ((machine canon).step g' c).1 ∧
          ((machine canon).step g c).2 = ((machine canon).step g' c).2 := by
      intro g g' c hs hagree
      have hs : c.source = source := by simpa using hs
      subst hs
      exact emitQuote_agree hagree
    exact (Machine.unwinding_rule hhidden hshown calls _ _ ⟨rfl, fun _ => rfl, rfl, fun _ _ => rfl, rfl⟩).1
  · rintro pre c r mid b rb post hcut rfl hsource hconflict
    obtain ⟨js, ks, rfl, htrace, hrb, -⟩ := Machine.trace_cut _ hcut
    obtain ⟨js₁, mids, rfl, -, hr, -⟩ := Machine.trace_cut _ htrace
    rw [Machine.exec_append, Machine.exec_cons] at hrb
    generalize (machine canon).exec (.new maxJump) js₁ = g at hr hrb
    replace hr : r = (g.emitQuote canon c).2 := hr
    subst hr
    obtain ⟨hout, hsilenced⟩ := emitQuote_conflict hconflict
    refine ⟨hout, fun hclock hsoon => ?_⟩
    have hkept := silenced_run canon mids _ (fun c' hc' => Nat.lt_of_le_of_lt (monoNs_le_of_cut hclock c' hc') hsoon)
      hsilenced
    replace hrb : rb = (((machine canon).exec (g.emitQuote canon c).1 mids).emitQuote canon b).2 := hrb
    rw [hrb]
    exact (emitQuote_silenced hkept hsoon).2 hsource

end QuoteGate

end EdgeConnect.Arbiter
