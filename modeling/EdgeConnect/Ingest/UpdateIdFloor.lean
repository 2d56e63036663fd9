import EdgeConnect.Lib.FinMap
import EdgeConnect.Lib.Machine

/-!
# The Venue Update ID floor (`UpdateIdFloor` in `src/ingest/arbiter.rs`)

Executable model of the per-key quote dedupe on the venue's own 32-bit counter: one key's regime is
`UpdateIdState`, its decision `UpdateIdState.judge`, and `UpdateIdFloor` keeps one regime per key.
Identifiers are `BitVec 32` and their distance is the signed one.

* `floor_judges_per_key` — for a key no reset names, the floor is one copy of the per-key machine
  `regime`, run on that key's own quotes;
* `Regime` — what ties a key's state to its last admitted quote and to what was refused since;
* `consecutive_admits` — how far two consecutive admitted identifiers can be apart.
-/

set_option autoImplicit false

namespace EdgeConnect.Arbiter

/-! ## The model -/

/-- `QUOTE_ID_REGIME_TIMEOUT_NS`: 5 s. -/
def QUOTE_ID_REGIME_TIMEOUT_NS : Nat := 5000000000

/-- `update_id_newer`: serial-number comparison; exactly `2^31` apart is newer in neither direction. -/
def updateIdNewer (a b : BitVec 32) : Bool := 0 < (a - b).toInt

/-- The content two copies of one identifier are compared on. -/
class IdContent (V : Type*) where
  sameScale : V → V → Bool

/-- The wire content of a quote. -/
structure QuoteWire where
  channel : Nat
  bidPrice : Int
  bidQty : Nat
  askPrice : Int
  askQty : Nat
  priceExponent : Int
  qtyExponent : Int
  deriving DecidableEq, Repr

instance : IdContent QuoteWire where
  sameScale a b := a.priceExponent == b.priceExponent && a.qtyExponent == b.qtyExponent

/-- The `ID_DROP_*` reasons. -/
inductive IdDrop where
  | duplicate
  | conflict
  | stale
  | regime
  | jump
  | skew
  deriving DecidableEq, Repr

/-- The `ID_RESET_*` reasons. -/
inductive IdReset where
  | regimeTimeout
  | corroboratedJump
  | venueReset
  deriving DecidableEq, Repr

/-- What `judge` decided for one quote. -/
inductive IdDecision where
  | legacy
  | admitted
  | drop (reason : IdDrop)
  deriving DecidableEq, Repr

/-- The decision, with the reason for which the key's state was cleared on the way. -/
structure IdVerdict where
  decision : IdDecision
  reset : Option IdReset
  deriving DecidableEq, Repr

/-- A forward jump past the cap, held until a different path corroborates it. -/
structure JumpCandidate (P : Type*) where
  id : BitVec 32
  source : P
  deriving DecidableEq, Repr

/-- One key's regime: the last admitted identifier, its content, when it was admitted, and the jump
refused since. -/
structure UpdateIdState (V P : Type*) where
  last : BitVec 32
  content : V
  lastAdmitNs : Nat
  candidate : Option (JumpCandidate P)

/-- One quote offered to the floor; the identifier `0` is none. -/
structure IdQuote (V P : Type*) where
  id : BitVec 32
  content : V
  source : P
  nowNs : Nat
  deriving DecidableEq, Repr

variable {K V P : Type*} [DecidableEq K] [DecidableEq V] [DecidableEq P] [IdContent V]

namespace UpdateIdState

/-- `UpdateIdState::new`. -/
def new (q : IdQuote V P) : UpdateIdState V P := ⟨q.id, q.content, q.nowNs, none⟩

/-- Whether an identifier advances past `last` by at most the cap. -/
def advances (maxJump : BitVec 32) (st : UpdateIdState V P) (id : BitVec 32) : Bool :=
  updateIdNewer id st.last && id - st.last ≤ maxJump

/-- The key's state when nothing was admitted for `QUOTE_ID_REGIME_TIMEOUT_NS`: judged as if it had
none, and counted by what the old state would have refused. -/
def expire (maxJump : BitVec 32) (st : UpdateIdState V P) (q : IdQuote V P) :
    Option (UpdateIdState V P) × IdVerdict :=
  if q.id = 0 then (none, ⟨.legacy, some .regimeTimeout⟩)
  else if q.id - st.last = 0 ∨ st.advances maxJump q.id then (some (new q), ⟨.admitted, none⟩)
  else (some (new q), ⟨.admitted, some .venueReset⟩)

/-- Whether a quote corroborates the held jump: from another path and within the cap of it. -/
def corroborates (maxJump : BitVec 32) (st : UpdateIdState V P) (q : IdQuote V P) : Bool :=
  match st.candidate with
  | some c => c.source ≠ q.source && (q.id - c.id).toInt.natAbs ≤ maxJump.toNat
  | none => false

/-- The decision within the regime, for a quote that carries an identifier. -/
def order (maxJump : BitVec 32) (st : UpdateIdState V P) (q : IdQuote V P) :
    UpdateIdState V P × IdVerdict :=
  if q.id - st.last = 0 then
    if !IdContent.sameScale q.content st.content then (st, ⟨.drop .skew, none⟩)
    else if q.content = st.content then (st, ⟨.drop .duplicate, none⟩)
    else (st, ⟨.drop .conflict, none⟩)
  else if st.advances maxJump q.id then (new q, ⟨.admitted, none⟩)
  -- any refused identifier may corroborate: one near a candidate `2^31` ahead can compare as older
  else if st.corroborates maxJump q then (new q, ⟨.admitted, some .corroboratedJump⟩)
  else if updateIdNewer q.id st.last then
    ({ st with candidate := some ⟨q.id, q.source⟩ }, ⟨.drop .jump, none⟩)
  else (st, ⟨.drop .stale, none⟩)

/-- The decision for one key: its state after the quote, if it is still in the regime. -/
def judge (maxJump : BitVec 32) (st : Option (UpdateIdState V P)) (q : IdQuote V P) :
    Option (UpdateIdState V P) × IdVerdict :=
  match st with
  | none => if q.id = 0 then (none, ⟨.legacy, none⟩) else (some (new q), ⟨.admitted, none⟩)
  | some st =>
    if QUOTE_ID_REGIME_TIMEOUT_NS ≤ q.nowNs - st.lastAdmitNs then st.expire maxJump q
    else if q.id = 0 then (some st, ⟨.drop .regime, none⟩)
    else (some (st.order maxJump q).1, (st.order maxJump q).2)

end UpdateIdState

/-- Per-key quote dedupe on the Venue Update ID. -/
structure UpdateIdFloor (K V P : Type*) where
  state : FinMap K (UpdateIdState V P)
  maxJump : BitVec 32

namespace UpdateIdFloor

def new (maxJump : BitVec 32) : UpdateIdFloor K V P := ⟨∅, maxJump⟩

/-- Store what a decision leaves of a key: its new state, or nothing. -/
def put (f : UpdateIdFloor K V P) (key : K) : Option (UpdateIdState V P) → UpdateIdFloor K V P
  | some st => { f with state := f.state.insert key st }
  | none => { f with state := f.state.erase key }

def judge (f : UpdateIdFloor K V P) (key : K) (q : IdQuote V P) : UpdateIdFloor K V P × IdVerdict :=
  let (st, v) := UpdateIdState.judge f.maxJump (f.state.get key) q
  (f.put key st, v)

/-- `reset_where`: drop the state of every key matching `pred`, returning how many. -/
def resetWhere (f : UpdateIdFloor K V P) (pred : K → Bool) : UpdateIdFloor K V P × Nat :=
  let state := f.state.filter fun k _ => !pred k
  ({ f with state }, f.state.size - state.size)

/-- One call on the floor. -/
inductive Call (K V P : Type*) where
  | judge (key : K) (quote : IdQuote V P)
  | resetWhere (pred : K → Bool)

/-- What a call answers. -/
inductive Reply where
  | judged (v : IdVerdict)
  | cleared (n : Nat)

def step (f : UpdateIdFloor K V P) : Call K V P → UpdateIdFloor K V P × Reply
  | .judge key q => ((f.judge key q).1, .judged (f.judge key q).2)
  | .resetWhere pred => ((f.resetWhere pred).1, .cleared (f.resetWhere pred).2)

/-- The floor as a machine over its calls. -/
def machine : Machine (UpdateIdFloor K V P) (Call K V P) Reply := ⟨step⟩

omit [DecidableEq V] [DecidableEq P] [IdContent V] in
theorem put_maxJump (f : UpdateIdFloor K V P) (key : K) (st : Option (UpdateIdState V P)) :
    (f.put key st).maxJump = f.maxJump := by
  cases st <;> rfl

omit [DecidableEq V] [DecidableEq P] [IdContent V] in
theorem get_put_self (f : UpdateIdFloor K V P) (key : K) (st : Option (UpdateIdState V P)) :
    (f.put key st).state.get key = st := by
  cases st with
  | none => exact FinMap.get_erase_self _ _
  | some st => exact FinMap.get_insert_self _ _ _

omit [DecidableEq V] [DecidableEq P] [IdContent V] in
theorem get_put_of_ne (f : UpdateIdFloor K V P) {key k : K} (st : Option (UpdateIdState V P))
    (h : k ≠ key) : (f.put key st).state.get k = f.state.get k := by
  cases st with
  | none => exact FinMap.get_erase_of_ne _ h
  | some st => exact FinMap.get_insert_of_ne _ _ h

/-! ## One key -/

/-- The per-key machine: its state is the regime, if the key is in one. -/
def regime (maxJump : BitVec 32) : Machine (Option (UpdateIdState V P)) (IdQuote V P) IdVerdict :=
  ⟨UpdateIdState.judge maxJump⟩

/-- The quotes a run offers for one key. -/
def quotesFor (key : K) : List (Call K V P) → List (IdQuote V P)
  | [] => []
  | .judge k q :: cs => if k = key then q :: quotesFor key cs else quotesFor key cs
  | .resetWhere _ :: cs => quotesFor key cs

/-- The quotes of one key in a run, each with its verdict. -/
def verdictsFor (key : K) :
    List (Call K V P × Reply) → List (IdQuote V P × IdVerdict)
  | [] => []
  | (.judge k q, .judged v) :: t =>
    if k = key then (q, v) :: verdictsFor key t else verdictsFor key t
  | _ :: t => verdictsFor key t

/-- **The floor is one machine per key**: the verdicts for a key that no reset names are those of the
per-key machine on that key's own quotes. -/
theorem floor_judges_per_key (key : K) :
    ∀ (calls : List (Call K V P)) (f : UpdateIdFloor K V P),
    (∀ pred, .resetWhere pred ∈ calls → pred key = false) →
    verdictsFor key (machine.trace f calls) =
      (regime f.maxJump).trace (f.state.get key) (quotesFor key calls)
  | [], _, _ => rfl
  | .judge k q :: cs, f, h => by
    have ih := floor_judges_per_key key cs (f.judge k q).1 fun p hp => h p (List.mem_cons_of_mem _ hp)
    have hcap : (f.judge k q).1.maxJump = f.maxJump := put_maxJump _ _ _
    rw [Machine.trace_cons]
    show verdictsFor key ((.judge k q, .judged (f.judge k q).2) ::
      machine.trace (f.judge k q).1 cs) = _
    rw [verdictsFor, quotesFor, ih, hcap]
    by_cases hk : k = key
    · subst hk
      have hget : (f.judge k q).1.state.get k =
          (UpdateIdState.judge f.maxJump (f.state.get k) q).1 := get_put_self _ _ _
      rw [if_pos rfl, if_pos rfl, hget]
      rfl
    · have hget : (f.judge k q).1.state.get key = f.state.get key :=
        get_put_of_ne _ _ fun he => hk he.symm
      rw [if_neg hk, if_neg hk, hget]
  | .resetWhere pred :: cs, f, h => by
    have ih := floor_judges_per_key key cs (f.resetWhere pred).1
      fun p hp => h p (List.mem_cons_of_mem _ hp)
    have hcap : (f.resetWhere pred).1.maxJump = f.maxJump := rfl
    have hget : (f.resetWhere pred).1.state.get key = f.state.get key := by
      show (f.state.filter fun k _ => !pred k).get key = f.state.get key
      rw [FinMap.get_filter, h pred List.mem_cons_self]
      cases f.state.get key <;> rfl
    rw [Machine.trace_cons]
    show verdictsFor key ((.resetWhere pred, .cleared (f.resetWhere pred).2) ::
      machine.trace (f.resetWhere pred).1 cs) = _
    rw [verdictsFor, quotesFor, ih, hcap, hget]
    exact fun k q v he => by cases he

/-! ## What one decision can do -/

/-- The signed advance of one identifier past another lies in `1 .. maxJump`. -/
def Within (maxJump a b : BitVec 32) : Prop := 0 < (b - a).toInt ∧ (b - a).toInt ≤ maxJump.toNat

/-- An identifier is ahead of another by more than the cap. -/
def Past (maxJump a b : BitVec 32) : Prop := (maxJump.toNat : Int) < (b - a).toInt

theorem toInt_of_newer {a b : BitVec 32} (h : updateIdNewer b a = true) :
    (b - a).toInt = ((b - a).toNat : Int) := by
  have hpos : 0 < (b - a).toInt := by simpa [updateIdNewer] using h
  have hlt := (b - a).isLt
  rw [BitVec.toInt_eq_toNat_cond] at hpos ⊢
  by_cases hh : 2 * (b - a).toNat < 2 ^ 32
  · rw [if_pos hh]
  · rw [if_neg hh] at hpos
    omega

omit [DecidableEq V] [DecidableEq P] [IdContent V] in
theorem advances_iff {maxJump : BitVec 32} {st : UpdateIdState V P} {id : BitVec 32} :
    st.advances maxJump id = true ↔ Within maxJump st.last id := by
  constructor
  · intro h
    simp only [UpdateIdState.advances, Bool.and_eq_true, decide_eq_true_eq, BitVec.le_def] at h
    refine ⟨by simpa [updateIdNewer] using h.1, ?_⟩
    rw [toInt_of_newer h.1]
    exact_mod_cast h.2
  · rintro ⟨hpos, hle⟩
    have hn : updateIdNewer id st.last = true := by simpa [updateIdNewer] using hpos
    rw [toInt_of_newer hn] at hle
    simp only [UpdateIdState.advances, Bool.and_eq_true, decide_eq_true_eq, BitVec.le_def]
    exact ⟨hn, by exact_mod_cast hle⟩

omit [DecidableEq V] [DecidableEq P] [IdContent V] in
theorem past_of_newer {maxJump : BitVec 32} {st : UpdateIdState V P} {id : BitVec 32}
    (hn : updateIdNewer id st.last = true) (ha : st.advances maxJump id = false) :
    Past maxJump st.last id := by
  simp only [UpdateIdState.advances, hn, Bool.true_and, decide_eq_false_iff_not, BitVec.le_def] at ha
  show (maxJump.toNat : Int) < _
  rw [toInt_of_newer hn]
  omega

/-- The distance is symmetric: an identifier past the cap of `a` is not within the cap of `a`. -/
theorem not_near_of_past {maxJump a b : BitVec 32} (h : Past maxJump a b) :
    ¬ (a - b).toInt.natAbs ≤ maxJump.toNat := by
  have hp : (maxJump.toNat : Int) < (b - a).toInt := h
  have hj := maxJump.isLt
  rw [BitVec.toInt_eq_toNat_cond, BitVec.toNat_sub] at hp ⊢
  have hblt := b.isLt
  have halt := a.isLt
  split at hp
  · split <;> omega
  · omega

/-- Why a quote of a key in the regime `s` is admitted. -/
inductive Opens (maxJump : BitVec 32) (s : UpdateIdState V P) (q : IdQuote V P) (v : IdVerdict) : Prop
  | expired (h : QUOTE_ID_REGIME_TIMEOUT_NS ≤ q.nowNs - s.lastAdmitNs)
  | advanced (h : Within maxJump s.last q.id)
  | corroborated (hr : v.reset = some .corroboratedJump) (c : JumpCandidate P)
      (hc : s.candidate = some c) (hs : c.source ≠ q.source)
      (hn : (q.id - c.id).toInt.natAbs ≤ maxJump.toNat)

/-- Everything a decision can do to a key. -/
inductive Judged (maxJump : BitVec 32) (st : Option (UpdateIdState V P)) (q : IdQuote V P) :
    Option (UpdateIdState V P) × IdVerdict → Prop
  | opened (v : IdVerdict) (hid : q.id ≠ 0) (hv : v.decision = .admitted)
      (hs : ∀ s, st = some s → Opens maxJump s q v) : Judged maxJump st q (some (.new q), v)
  | cleared (v : IdVerdict) (hid : q.id = 0) (hv : v.decision = .legacy)
      (hs : ∀ s, st = some s → QUOTE_ID_REGIME_TIMEOUT_NS ≤ q.nowNs - s.lastAdmitNs) :
      Judged maxJump st q (none, v)
  | refused (s : UpdateIdState V P) (v : IdVerdict) (reason : IdDrop) (hst : st = some s)
      (hv : v.decision = .drop reason) (hid : q.id = 0 ∨ ¬ Within maxJump s.last q.id) :
      Judged maxJump st q (some s, v)
  | jumped (s : UpdateIdState V P) (v : IdVerdict) (hst : st = some s) (hv : v.decision = .drop .jump)
      (hp : Past maxJump s.last q.id) :
      Judged maxJump st q (some { s with candidate := some ⟨q.id, q.source⟩ }, v)

omit [DecidableEq V] [DecidableEq P] [IdContent V] in
theorem not_within_self (maxJump id : BitVec 32) : ¬ Within maxJump id id := by
  intro h
  have := h.1
  simp at this

/-- `judge` does one of the things `Judged` lists. -/
theorem judge_judged (maxJump : BitVec 32) (st : Option (UpdateIdState V P)) (q : IdQuote V P) :
    Judged maxJump st q (UpdateIdState.judge maxJump st q) := by
  unfold UpdateIdState.judge
  cases st with
  | none =>
    dsimp only
    split
    · rename_i hid
      exact .cleared _ hid rfl (by simp)
    · rename_i hid
      exact .opened _ hid rfl (by simp)
  | some s =>
    dsimp only
    split
    · rename_i ht
      unfold UpdateIdState.expire
      split
      · rename_i hid
        exact .cleared _ hid rfl (by rintro _ ⟨⟩; exact ht)
      · rename_i hid
        split
        · exact .opened _ hid rfl (by rintro _ ⟨⟩; exact .expired ht)
        · exact .opened _ hid rfl (by rintro _ ⟨⟩; exact .expired ht)
    · split
      · rename_i hid
        exact .refused s _ .regime rfl rfl (.inl hid)
      · rename_i hid
        unfold UpdateIdState.order
        split
        · rename_i hz
          have heq : q.id = s.last := by bv_omega
          have hw : ¬ Within maxJump s.last q.id := heq ▸ not_within_self _ _
          split
          · exact .refused s _ .skew rfl rfl (.inr hw)
          · split
            · exact .refused s _ .duplicate rfl rfl (.inr hw)
            · exact .refused s _ .conflict rfl rfl (.inr hw)
        · split
          · rename_i ha
            exact .opened _ hid rfl (by rintro _ ⟨⟩; exact .advanced (advances_iff.mp ha))
          · rename_i ha
            split
            · rename_i hc
              refine .opened _ hid rfl ?_
              rintro _ ⟨⟩
              unfold UpdateIdState.corroborates at hc
              split at hc
              · rename_i c hcand
                simp only [ne_eq, Bool.and_eq_true, decide_eq_true_eq] at hc
                exact .corroborated rfl c hcand hc.1 hc.2
              · cases hc
            · have ha' : s.advances maxJump q.id = false := by simpa using ha
              have hw : ¬ Within maxJump s.last q.id := fun h => ha (advances_iff.mpr h)
              split
              · rename_i hn
                exact .jumped s _ rfl rfl (past_of_newer hn ha')
              · exact .refused s _ .stale rfl rfl (.inr hw)

/-! ## The history of one key -/

/-- In the history `h` the last admitted quote is `a`, and `mid` is what was judged after it. -/
structure LastAdmit (h : List (IdQuote V P × IdVerdict)) (a : IdQuote V P)
    (mid : List (IdQuote V P × IdVerdict)) : Prop where
  cut : ∃ pre v, h = pre ++ (a, v) :: mid ∧ v.decision = .admitted
  none_since : ∀ e ∈ mid, e.2.decision ≠ .admitted

omit [DecidableEq V] [DecidableEq P] [IdContent V] in
theorem not_lastAdmit_nil (a : IdQuote V P) (mid : List (IdQuote V P × IdVerdict)) :
    ¬ LastAdmit [] a mid := by
  rintro ⟨⟨pre, v, h, -⟩, -⟩
  simp at h

omit [DecidableEq V] [DecidableEq P] [IdContent V] in
/-- A further entry either is the last admit itself or comes after it. -/
theorem LastAdmit.snoc {h mid : List (IdQuote V P × IdVerdict)} {a : IdQuote V P}
    {e : IdQuote V P × IdVerdict} (hl : LastAdmit (h ++ [e]) a mid) :
    (mid = [] ∧ e.1 = a ∧ e.2.decision = .admitted) ∨
      e.2.decision ≠ .admitted ∧ ∃ mid', mid = mid' ++ [e] ∧ LastAdmit h a mid' := by
  obtain ⟨⟨pre, v, heq, hv⟩, hmid⟩ := hl
  induction mid using List.reverseRecOn with
  | nil =>
    have hlast := List.append_inj_right' heq rfl
    rw [List.cons.injEq] at hlast
    exact .inl ⟨rfl, by rw [hlast.1], by rw [hlast.1]; exact hv⟩
  | append_singleton mid' x _ =>
    rw [← List.cons_append, ← List.append_assoc] at heq
    have hx := List.append_inj_right' heq rfl
    rw [List.cons.injEq] at hx
    obtain rfl := hx.1
    have hh := List.append_inj_left' heq rfl
    refine .inr ⟨hmid e (by simp), mid', rfl, ⟨pre, v, hh, hv⟩, fun y hy => hmid y ?_⟩
    exact List.mem_append_left _ hy

/-- What a key's state says of its history: the last admitted quote, and the jump refused since. -/
structure Holds (maxJump : BitVec 32) (s : UpdateIdState V P) (a : IdQuote V P)
    (mid : List (IdQuote V P × IdVerdict)) : Prop where
  last : s.last = a.id
  since : s.lastAdmitNs = a.nowNs
  candidate : ∀ c, s.candidate = some c →
    ∃ e ∈ mid, e.1.source = c.source ∧ e.1.id = c.id ∧ e.2.decision = .drop .jump ∧
      Past maxJump a.id e.1.id

/-- The regime of a key after a history: it holds the last admit, or it was cleared a timeout after
it. -/
structure Regime (maxJump : BitVec 32) (h : List (IdQuote V P × IdVerdict))
    (st : Option (UpdateIdState V P)) : Prop where
  held : ∀ s, st = some s → ∀ a mid, LastAdmit h a mid → Holds maxJump s a mid
  cleared : st = none → ∀ a mid, LastAdmit h a mid →
    ∃ e ∈ mid, QUOTE_ID_REGIME_TIMEOUT_NS ≤ e.1.nowNs - a.nowNs

omit [DecidableEq V] [DecidableEq P] [IdContent V] in
theorem Holds.snoc {maxJump : BitVec 32} {s : UpdateIdState V P} {a : IdQuote V P}
    {mid : List (IdQuote V P × IdVerdict)} (h : Holds maxJump s a mid) (e : IdQuote V P × IdVerdict) :
    Holds maxJump s a (mid ++ [e]) where
  last := h.last
  since := h.since
  candidate := by
    intro c hc
    obtain ⟨x, hx, hrest⟩ := h.candidate c hc
    exact ⟨x, List.mem_append_left _ hx, hrest⟩

/-- One decision extends the history and keeps the regime true to it. -/
theorem Regime.judge {maxJump : BitVec 32} {h : List (IdQuote V P × IdVerdict)}
    {st : Option (UpdateIdState V P)} (hr : Regime maxJump h st) (q : IdQuote V P) :
    Regime maxJump (h ++ [(q, (UpdateIdState.judge maxJump st q).2)])
      (UpdateIdState.judge maxJump st q).1 := by
  have hj := judge_judged maxJump st q
  generalize UpdateIdState.judge maxJump st q = r at hj
  cases hj with
  | opened v hid hv hs =>
    refine ⟨?_, by simp⟩
    rintro s ⟨⟩ a mid hl
    obtain ⟨rfl, rfl, -⟩ | ⟨hne, -⟩ := hl.snoc
    · exact ⟨rfl, rfl, by rintro c ⟨⟩⟩
    · exact absurd hv hne
  | cleared v hid hv hs =>
    refine ⟨by simp, ?_⟩
    intro _ a mid hl
    obtain ⟨-, -, had⟩ | ⟨-, mid', rfl, hl'⟩ := hl.snoc
    · simp [hv] at had
    cases st with
    | none =>
      obtain ⟨e, he, ht⟩ := hr.cleared rfl a mid' hl'
      exact ⟨e, List.mem_append_left _ he, ht⟩
    | some s =>
      refine ⟨(q, v), by simp, ?_⟩
      have ht := hs s rfl
      rwa [(hr.held s rfl a mid' hl').since] at ht
  | refused s v reason hst hv hid =>
    refine ⟨?_, by simp⟩
    rintro _ ⟨⟩ a mid hl
    obtain ⟨-, -, had⟩ | ⟨-, mid', rfl, hl'⟩ := hl.snoc
    · simp [hv] at had
    exact (hr.held s hst a mid' hl').snoc _
  | jumped s v hst hv hp =>
    refine ⟨?_, by simp⟩
    rintro _ ⟨⟩ a mid hl
    obtain ⟨-, -, had⟩ | ⟨-, mid', rfl, hl'⟩ := hl.snoc
    · simp [hv] at had
    have hh := hr.held s hst a mid' hl'
    refine ⟨hh.last, hh.since, ?_⟩
    -- the candidate is the refused quote itself
    rintro c ⟨⟩
    exact ⟨(q, v), by simp, rfl, rfl, hv, hh.last ▸ hp⟩

/-- The regime is true to every history of its key. -/
theorem regime_run (maxJump : BitVec 32) (quotes : List (IdQuote V P)) :
    Regime maxJump ((regime maxJump).trace none quotes) ((regime maxJump).exec none quotes) :=
  Machine.history_rule (m := regime maxJump)
    ⟨by simp, fun _ a mid hl => absurd hl (not_lastAdmit_nil a mid)⟩
    (fun _ _ q hr => hr.judge q) quotes

omit [DecidableEq V] [DecidableEq P] [IdContent V] in
/-- On a clock that never goes back, a timeout seen in between has also passed at the end. -/
theorem elapsed_of_between {pre mid post : List (IdQuote V P × IdVerdict)}
    {a b e : IdQuote V P × IdVerdict}
    (hclock : ((pre ++ a :: mid ++ b :: post).map (·.1.nowNs)).Pairwise (· ≤ ·)) (he : e ∈ mid)
    (ht : QUOTE_ID_REGIME_TIMEOUT_NS ≤ e.1.nowNs - a.1.nowNs) :
    QUOTE_ID_REGIME_TIMEOUT_NS ≤ b.1.nowNs - a.1.nowNs := by
  rw [List.map_append, List.pairwise_append] at hclock
  have hle : e.1.nowNs ≤ b.1.nowNs :=
    hclock.2.2 _ (List.mem_map_of_mem (by simp [he])) _ (List.mem_map_of_mem List.mem_cons_self)
  omega

/-- **The Venue Update ID floor.** In a run of the floor in which the key is never reset and its clock
never goes back, let `a` be an admitted quote and `b` a later one with no admit in between. If `b` is
admitted, it is newer than `a` by `1 .. maxJump`, or the regime timed out since `a`, or its verdict
reports a corroborated jump and in between another path was refused a jump, past the cap of `a` and
within the cap of `b`. An identifier newer by at most `maxJump` is always admitted and the last
admitted one never before the timeout; so one path alone never moves the key by more than the cap
before the timeout. -/
theorem consecutive_admits (maxJump : BitVec 32) (key : K) (calls : List (Call K V P))
    (hreset : ∀ pred, .resetWhere pred ∈ calls → pred key = false)
    (hclock : ((quotesFor key calls).map (·.nowNs)).Pairwise (· ≤ ·))
    (pre mid post : List (IdQuote V P × IdVerdict)) (a b : IdQuote V P) (va vb : IdVerdict)
    (hcut : verdictsFor key (machine.trace (.new maxJump) calls) =
      pre ++ (a, va) :: mid ++ (b, vb) :: post)
    (ha : va.decision = .admitted) (hmid : ∀ e ∈ mid, e.2.decision ≠ .admitted) :
    (vb.decision = .admitted →
      Within maxJump a.id b.id ∨ QUOTE_ID_REGIME_TIMEOUT_NS ≤ b.nowNs - a.nowNs ∨
      vb.reset = some .corroboratedJump ∧ ∃ e ∈ mid, e.1.source ≠ b.source ∧
        e.2.decision = .drop .jump ∧ Past maxJump a.id e.1.id ∧
        (b.id - e.1.id).toInt.natAbs ≤ maxJump.toNat) ∧
    (b.id ≠ 0 → Within maxJump a.id b.id → vb.decision = .admitted) ∧
    (b.id = a.id → b.nowNs - a.nowNs < QUOTE_ID_REGIME_TIMEOUT_NS → vb.decision ≠ .admitted) ∧
    (vb.decision = .admitted → (∀ e ∈ mid, e.1.source = b.source) →
      Within maxJump a.id b.id ∨ QUOTE_ID_REGIME_TIMEOUT_NS ≤ b.nowNs - a.nowNs) := by
  rw [floor_judges_per_key key calls _ hreset] at hcut
  have hquotes : quotesFor key calls = (pre ++ (a, va) :: mid ++ (b, vb) :: post).map Prod.fst := by
    rw [← hcut, Machine.map_fst_trace]
  rw [hquotes, List.map_map] at hclock
  -- the state in which `b` is judged
  obtain ⟨js, q, ks, -, htr, he⟩ := Machine.trace_split _ hcut
  obtain ⟨rfl, hvb⟩ := Prod.mk.inj he
  have hrun := regime_run (V := V) (P := P) maxJump js
  have hlast : LastAdmit ((regime maxJump).trace none js) a mid := ⟨⟨pre, va, htr, ha⟩, hmid⟩
  change (regime maxJump).trace none js = _ at htr
  change vb = (UpdateIdState.judge maxJump ((regime maxJump).exec none js) b).2 at hvb
  generalize (regime maxJump).exec none js = st at hrun hvb
  have hj := judge_judged maxJump st b
  rw [← Prod.mk.eta (p := UpdateIdState.judge maxJump st b), ← hvb] at hj
  have hgone : st = none → QUOTE_ID_REGIME_TIMEOUT_NS ≤ b.nowNs - a.nowNs := by
    intro hst
    obtain ⟨e, hemid, ht⟩ := hrun.cleared hst a mid hlast
    exact elapsed_of_between hclock hemid ht
  have hmoved : vb.decision = .admitted →
      Within maxJump a.id b.id ∨ QUOTE_ID_REGIME_TIMEOUT_NS ≤ b.nowNs - a.nowNs ∨
      vb.reset = some .corroboratedJump ∧ ∃ e ∈ mid, e.1.source ≠ b.source ∧
        e.2.decision = .drop .jump ∧ Past maxJump a.id e.1.id ∧
        (b.id - e.1.id).toInt.natAbs ≤ maxJump.toNat := by
    intro hadm
    cases st with
    | none => exact .inr (.inl (hgone rfl))
    | some s =>
      have hh := hrun.held s rfl a mid hlast
      generalize (UpdateIdState.judge maxJump (some s) b).1 = r at hj
      cases hj with
      | opened v hid hv hs =>
        cases hs s rfl with
        | expired ht => exact .inr (.inl (hh.since ▸ ht))
        | advanced hw => exact .inl (hh.last ▸ hw)
        | corroborated hr c hc hsrc hn =>
          obtain ⟨e, hemid, hes, heid, hed, hp⟩ := hh.candidate c hc
          exact .inr (.inr ⟨hr, e, hemid, hes ▸ hsrc, hed, hp, heid ▸ hn⟩)
      | cleared v hid hv hs => simp [hadm] at hv
      | refused s v reason hst hv hid => simp [hadm] at hv
      | jumped s v hst hv hp => simp [hadm] at hv
  refine ⟨hmoved, ?_, ?_, ?_⟩
  · intro hid hw
    generalize (UpdateIdState.judge maxJump st b).1 = r at hj
    cases hj with
    | opened v _ hv hs => exact hv
    | cleared v hz hv hs => exact absurd hz hid
    | refused s v reason hst hv hnot =>
      rw [(hrun.held s hst a mid hlast).last] at hnot
      exact absurd hw (hnot.resolve_left hid)
    | jumped s v hst hv hp =>
      rw [(hrun.held s hst a mid hlast).last] at hp
      exact absurd hw.2 (not_le.mpr hp)
  · intro hid ht hadm
    rcases hmoved hadm with hw | hexp | ⟨-, e, -, -, -, hp, hn⟩
    · exact not_within_self _ _ (hid ▸ hw)
    · omega
    · exact not_near_of_past hp (hid ▸ hn)
  · intro hadm hsame
    rcases hmoved hadm with hw | hexp | ⟨-, e, he, hne, -⟩
    · exact .inl hw
    · exact .inr hexp
    · exact absurd (hsame e he) hne

/-- A quote of one fixed content. -/
def plainQuote (id : BitVec 32) (source nowNs : Nat) : IdQuote QuoteWire Nat :=
  ⟨id, ⟨1, 100, 1, 101, 1, 0, 0⟩, source, nowNs⟩

/-- One path jumps far ahead and another delivers an identifier next to the refused one. -/
def jumpCalls : List (Call Unit QuoteWire Nat) :=
  [.judge () (plainQuote 100 1 0), .judge () (plainQuote 5000 1 1), .judge () (plainQuote 5003 2 1)]

theorem consecutive_admits_jumpCalls :
    Within 10 100 5003 ∨ QUOTE_ID_REGIME_TIMEOUT_NS ≤ 1 - 0 ∨
      some IdReset.corroboratedJump = some .corroboratedJump ∧
        ∃ e ∈ [(plainQuote 5000 1 1, IdVerdict.mk (.drop .jump) none)], e.1.source ≠ 2 ∧
          e.2.decision = .drop .jump ∧ Past 10 100 e.1.id ∧ (5003 - e.1.id).toInt.natAbs ≤ 10 :=
  (consecutive_admits 10 () jumpCalls (by intro pred h; simp [jumpCalls] at h) (by decide)
    [] [(plainQuote 5000 1 1, ⟨.drop .jump, none⟩)] [] (plainQuote 100 1 0) (plainQuote 5003 2 1)
    ⟨.admitted, none⟩ ⟨.admitted, some .corroboratedJump⟩ (by decide) rfl (by decide)).1 rfl

end UpdateIdFloor

end EdgeConnect.Arbiter
