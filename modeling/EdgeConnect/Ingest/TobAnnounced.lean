import EdgeConnect.Ingest.TobProcessor
import EdgeConnect.Lib.Founded
import EdgeConnect.Lib.Upheld

/-!
# Prices and the definitions they go out under (`TobProcessor` and `MidpointProcessor` in `src/ingest/processor.rs`)

No price is published without its exponents: what a processor hands on is what the wire message makes of an instrument
that was announced before it.

* `Telling` — what an announcement says of an instrument from then on; `Once` — that it was made, `Last` — that it is the
  last one made;
* `Tells` — the processor knows no named definition of which that is not said; `act_tells` — a message keeps it;
* `prices_announced` — every price is made under an announcement that went out before it;
* `prices_follow_last` — under the last one, as long as no definition of a named instrument is refused.
-/

set_option autoImplicit false

namespace EdgeConnect.Ingest

theorem RefDataState.onInstrumentDefinition_accepted {s : RefDataState} {d : InstrumentDefinition}
    (h : s.valid = true ∧ d.manifestSeq = s.latestSeq) : (s.onInstrumentDefinition d).definition d.instrumentId = some d := by
  unfold onInstrumentDefinition
  rw [if_pos h]
  exact FinMap.get_insert_self _ _ _

namespace PerPublisher

/-- A write of a publisher's reference data is made on what it had, or on a new state. -/
theorem modify_get_self (s : PerPublisher) (p : IpAddr) (f : RefDataState → RefDataState) :
    (s.modify p f).states.get p = some (f ((s.states.get p).getD .new)) := by
  have hget : ((s.ensure p).states.get p).getD .new = (s.states.get p).getD .new := by
    unfold ensure
    split
    · rfl
    · rename_i hc
      rw [FinMap.contains_eq_false.mp (Bool.eq_false_of_not_eq_true hc)]
      show ((FinMap.insert _ p RefDataState.new).get p).getD .new = _
      rw [FinMap.get_insert_self]
      rfl
  unfold modify
  simp only
  rw [FinMap.get_insert_self, hget]

theorem modify_definition_self (s : PerPublisher) (p : IpAddr) (f : RefDataState → RefDataState) (i : Nat) :
    (s.modify p f).definition p i = (f ((s.states.get p).getD .new)).definition i := by
  unfold definition
  rw [modify_get_self]
  rfl

end PerPublisher

end EdgeConnect.Ingest

namespace EdgeConnect.TobFeed

open Ingest
open CodecCommon (DatagramHeader)

/-! ## What announcements say -/

section Announcements

variable {P : Type}

/-- What an output announces of an instrument. -/
def Out.announces (key : InstrumentKey) : Out P → Option Instrument
  | .instrument k i => if k = key then some i else none
  | _ => none

/-- The scale that an announcement tells. -/
def Scale.told (i : Instrument) : Scale := ⟨i.symbol, i.priceExponent, i.qtyExponent⟩

variable (rd : Render P P) (row : Row)

/-- What an announcement says of its instrument, as long as nothing else announces it. -/
structure Telling (A : List (Out P) → InstrumentKey → Nat → Nat → InstrumentDefinition → Prop) : Prop where
  told : ∀ l key channel sourceId d,
    A (l ++ [.instrument key (Run.instrumentOf rd row key channel sourceId d)]) key channel sourceId d
  other : ∀ l o key channel sourceId d, o.announces key = none → A l key channel sourceId d →
    A (l ++ [o]) key channel sourceId d

/-- It was announced, on whatever channel. -/
def Once (l : List (Out P)) (key : InstrumentKey) (_channel sourceId : Nat) (d : InstrumentDefinition) : Prop :=
  ∃ channel, .instrument key (Run.instrumentOf rd row key channel sourceId d) ∈ l

/-- It is what was announced last. -/
def Last (l : List (Out P)) (key : InstrumentKey) (channel sourceId : Nat) (d : InstrumentDefinition) : Prop :=
  Upheld.latest (Out.announces key) l = some (Run.instrumentOf rd row key channel sourceId d)

theorem once_telling : Telling rd row (Once rd row) where
  told _ _ channel _ _ := ⟨channel, List.mem_append_right _ (List.mem_singleton_self _)⟩
  other _ _ _ _ _ _ _ h := h.imp fun _ hc => List.mem_append_left _ hc

theorem last_telling : Telling rd row (Last rd row) where
  told l key channel sourceId d := by
    unfold Last
    rw [Upheld.latest_snoc]
    simp [Out.announces]
  other l o key channel sourceId d ho h := by
    unfold Last at h ⊢
    rw [Upheld.latest_snoc, ho]
    exact h

/-- What is said for good, on whatever channel a definition comes later. -/
def Loose (A : List (Out P) → InstrumentKey → Nat → Nat → InstrumentDefinition → Prop) : Prop :=
  ∀ l l' key channel channel' sourceId d, A l key channel sourceId d → A (l ++ l') key channel' sourceId d

theorem once_loose : Loose (Once rd row) :=
  fun _ _ _ _ _ _ _ h => h.imp fun _ hc => List.mem_append_left _ hc

end Announcements

/-! ## One message -/

section Messages

variable {P : Type} {rd : Render P P} {row : Row} {cx : Ctx}
  {A : List (Out P) → InstrumentKey → Nat → Nat → InstrumentDefinition → Prop}

/-- Of an instrument that is named and defined, `A` is said under its name, its definition and its channel. -/
def TellsOf (A : List (Out P) → InstrumentKey → Nat → Nat → InstrumentDefinition → Prop) (l : List (Out P)) (p : Announcer)
    (key : InstrumentKey) : Prop :=
  ∀ s d, p.revealed.get key = some s → p.state.definition key.publisher key.instrumentId = some d →
    A l key (Run.channelOf p key) s d

def Tells (A : List (Out P) → InstrumentKey → Nat → Nat → InstrumentDefinition → Prop) (l : List (Out P))
    (p : Announcer) : Prop := ∀ key, TellsOf A l p key

/-- What forgets names or definitions, and says nothing. -/
structure Forgets (p p' : Announcer) : Prop where
  revealed : ∀ key s, p'.revealed.get key = some s → p.revealed.get key = some s ∧
    p'.pendingChannel.get key = p.pendingChannel.get key
  definition : ∀ q i d, p'.state.definition q i = some d → p.state.definition q i = some d

theorem Forgets.tells {p p' : Announcer} {l : List (Out P)} (h : Forgets p p') (hp : Tells A l p) : Tells A l p' := by
  intro key s d hs hd
  obtain ⟨hrevealed, hchannel⟩ := h.revealed key s hs
  have hsaid := hp key s d hrevealed (h.definition _ _ d hd)
  unfold Run.channelOf at hsaid ⊢
  rw [hchannel]
  exact hsaid

theorem Forgets.trans {p p' p'' : Announcer} (h : Forgets p p') (h' : Forgets p' p'') : Forgets p p'' where
  revealed key s hs := by
    obtain ⟨hs', hc'⟩ := h'.revealed key s hs
    obtain ⟨hs, hc⟩ := h.revealed key s hs'
    exact ⟨hs, hc'.trans hc⟩
  definition q i d hd := h.definition q i d (h'.definition q i d hd)

/-- A write that defines nothing new. -/
theorem modify_forgets (r : Run P) {f : RefDataState → RefDataState}
    (hf : ∀ st i d, (f st).definition i = some d → st.definition i = some d) : Forgets r.proc (r.modify cx f).proc where
  revealed _ _ h := ⟨h, rfl⟩
  definition q i d hd := by
    rcases PerPublisher.modify_definition (Q := fun _ _ => False) (fun st i d h => .inl (hf st i d h)) hd with h | h
    · exact h
    · exact h.2.elim

theorem forgetPublisher_forgets (r : Run P) (publisher : IpAddr) : Forgets r.proc (r.forgetPublisher publisher).proc where
  revealed key s h := by
    unfold Run.forgetPublisher at h ⊢
    simp only [FinMap.get_filter, Option.filter_eq_some_iff] at h ⊢
    obtain ⟨hs, hkeep⟩ := h
    rw [hkeep]
    exact ⟨hs, by cases r.proc.pendingChannel.get key <;> rfl⟩
  definition _ _ _ hd := hd

/-- Everything but one instrument's announcements leaves what is said of it. -/
theorem Telling.append (hA : Telling rd row A) {key : InstrumentKey} {channel sourceId : Nat} {d : InstrumentDefinition} :
    ∀ {l' l : List (Out P)}, (∀ o ∈ l', o.announces key = none) → A l key channel sourceId d →
      A (l ++ l') key channel sourceId d
  | [], l, _, h => by rwa [List.append_nil]
  | o :: l', l, hl', h => by
    have hhead := hA.other l o key channel sourceId d (hl' o List.mem_cons_self) h
    have htail := hA.append (fun o' ho' => hl' o' (List.mem_cons_of_mem _ ho')) hhead
    rwa [List.append_assoc, List.singleton_append] at htail

/-- What an announcement hands on says it of its instrument and of no other. -/
theorem announce_out (r : Run P) (key : InstrumentKey) (channel sourceId : Nat) (d : InstrumentDefinition) :
    (r.announce rd row key channel sourceId d).out = r.out ++
      [.upsertInstrument key (Run.instrumentOf rd row key channel sourceId d),
        .instrument key (Run.instrumentOf rd row key channel sourceId d)] :=
  List.append_assoc _ _ _

theorem announce_told (hA : Telling rd row A) (h : List (Out P)) (r : Run P) (key : InstrumentKey) (channel sourceId : Nat)
    (d : InstrumentDefinition) : A (h ++ (r.announce rd row key channel sourceId d).out) key channel sourceId d := by
  show A (h ++ (r.out ++ [_] ++ [_])) _ _ _ _
  rw [← List.append_assoc]
  exact hA.told _ key channel sourceId d

theorem announce_other (hA : Telling rd row A) {h : List (Out P)} {r : Run P} {key key' : InstrumentKey}
    (channel sourceId : Nat) (d : InstrumentDefinition) (hne : key' ≠ key) {channel' sourceId' : Nat}
    {d' : InstrumentDefinition} (hsaid : A (h ++ r.out) key' channel' sourceId' d') :
    A (h ++ (r.announce rd row key channel sourceId d).out) key' channel' sourceId' d' := by
  rw [announce_out, ← List.append_assoc]
  refine hA.append (fun o ho => ?_) hsaid
  simp only [List.mem_cons, List.not_mem_nil, or_false] at ho
  rcases ho with rfl | rfl
  · rfl
  · exact if_neg (Ne.symm hne)

variable (rd row) in
theorem retire_proc (r : Run P) (key : InstrumentKey) (channel : Nat) : (r.retire rd row key channel).proc = r.proc := by
  unfold Run.retire
  split <;> rfl

/-- The removal of a name announces nothing. -/
theorem retire_said (hA : Telling rd row A) {h : List (Out P)} {r : Run P} (key : InstrumentKey) (channel : Nat)
    {key' : InstrumentKey} {channel' sourceId' : Nat} {d' : InstrumentDefinition}
    (hsaid : A (h ++ r.out) key' channel' sourceId' d') :
    A (h ++ (r.retire rd row key channel).out) key' channel' sourceId' d' := by
  unfold Run.retire
  split
  · exact hsaid
  · show A (h ++ (r.out ++ [_])) _ _ _ _
    rw [← List.append_assoc]
    exact hA.other _ _ _ _ _ _ rfl hsaid

variable (cx) in
/-- **A reveal says an instrument's new name.**  Of the others, and of an instrument that has that name, what was said
stays said. -/
theorem revealIfNeeded_tells (hA : Telling rd row A) {h : List (Out P)} {r : Run P} (instrumentId sourceId : Nat)
    (hothers : ∀ key, key ≠ ⟨cx.publisher, instrumentId⟩ → TellsOf A (h ++ r.out) r.proc key)
    (hsame : r.proc.revealed.get ⟨cx.publisher, instrumentId⟩ = some sourceId →
      TellsOf A (h ++ r.out) r.proc ⟨cx.publisher, instrumentId⟩) :
    Tells A (h ++ (r.revealIfNeeded rd row cx instrumentId sourceId).out)
      (r.revealIfNeeded rd row cx instrumentId sourceId).proc := by
  unfold Run.revealIfNeeded
  generalize hkey₀ : (⟨cx.publisher, instrumentId⟩ : InstrumentKey) = key₀ at hothers hsame ⊢
  simp only
  split
  · rename_i hnamed
    intro key
    by_cases hkey : key = key₀
    · rw [hkey]
      exact hsame hnamed
    · exact hothers key hkey
  · split
    · rename_i hnone
      intro key
      by_cases hkey : key = key₀
      · intro s d _ hd
        rw [hkey, ← hkey₀, hnone] at hd
        cases hd
      · exact hothers key hkey
    · rename_i d hd
      intro key s d' hs hd'
      have hproc := retire_proc rd row r key₀ (Run.channelOf r.proc key₀)
      replace hs : ((r.retire rd row key₀ (Run.channelOf r.proc key₀)).proc.revealed.insert key₀ sourceId).get key = some s := hs
      replace hd' : (r.retire rd row key₀ (Run.channelOf r.proc key₀)).proc.state.definition key.publisher
        key.instrumentId = some d' := hd'
      rw [hproc] at hs hd'
      have hchannel : Run.channelOf (((r.retire rd row key₀ (Run.channelOf r.proc key₀)).name key₀ sourceId).announce rd row
          key₀ (Run.channelOf r.proc key₀) sourceId d).proc key = Run.channelOf r.proc key := by
        show Run.channelOf (r.retire rd row key₀ (Run.channelOf r.proc key₀)).proc key = _
        rw [hproc]
      rw [hchannel]
      by_cases hkey : key = key₀
      · rw [hkey, FinMap.get_insert_self, Option.some.injEq] at hs
        rw [hkey, ← hkey₀, hd, Option.some.injEq] at hd'
        rw [hkey, ← hs, ← hd']
        exact announce_told hA h _ _ _ _ _
      · rw [FinMap.get_insert_of_ne _ _ hkey] at hs
        exact announce_other hA _ _ _ hkey (retire_said hA key₀ _ (hothers key hkey s d' hs hd'))

theorem reannounce_proc (r : Run P) (key : InstrumentKey) (channel : Nat) (d : InstrumentDefinition) :
    (r.reannounce rd row key channel d).proc = r.proc := by
  unfold Run.reannounce
  split
  · rfl
  · split <;> rfl

/-- What a definition leaves of the processor, before the Source ID that it names. -/
theorem define_proc (r : Run P) (channel : Nat) (d : InstrumentDefinition) :
    (r.define rd row cx channel d).proc =
      { r.proc with
        state := r.proc.state.modify cx.publisher fun s => s.onInstrumentDefinition d
        pendingChannel := r.proc.pendingChannel.insert ⟨cx.publisher, d.instrumentId⟩ channel } := by
  unfold Run.define Run.modify
  simp only
  rw [reannounce_proc]
  rfl

/-- A definition says nothing of the other instruments. -/
theorem define_others (hA : Telling rd row A) {h : List (Out P)} {r : Run P} (channel : Nat) {d : InstrumentDefinition}
    (ht : Tells A (h ++ r.out) r.proc) {key : InstrumentKey} (hkey : key ≠ ⟨cx.publisher, d.instrumentId⟩) :
    TellsOf A (h ++ (r.define rd row cx channel d).out) (r.define rd row cx channel d).proc key := by
  intro s d' hs hd'
  rw [define_proc] at hs hd'
  have hold : r.proc.state.definition key.publisher key.instrumentId = some d' := by
    rcases PerPublisher.modify_definition (Q := fun i d'' => i = d.instrumentId ∧ d'' = d)
      (fun _ _ _ => RefDataState.onInstrumentDefinition_definition) hd' with hold | ⟨hp, hi, -⟩
    · exact hold
    · refine absurd ?_ hkey
      rw [← hp, ← hi]
  have hsaid := ht key s d' hs hold
  have hchannel : Run.channelOf (r.define rd row cx channel d).proc key = Run.channelOf r.proc key := by
    unfold Run.channelOf
    rw [define_proc, FinMap.get_insert_of_ne _ _ hkey]
  rw [hchannel]
  show A (h ++ (Run.reannounce rd row _ _ channel d).out) key _ s d'
  unfold Run.reannounce
  split
  · exact hsaid
  · split
    · exact announce_other hA _ _ _ hkey hsaid
    · exact hsaid

/-- A definition is of the manifest in force, where its instrument has a name. -/
def Run.Current (cx : Ctx) (r : Run P) : Action P → Prop
  | .define _ d => (r.proc.revealed.get ⟨cx.publisher, d.instrumentId⟩).isSome = true →
      ((r.proc.state.states.get cx.publisher).getD .new).valid = true ∧
        d.manifestSeq = ((r.proc.state.states.get cx.publisher).getD .new).latestSeq
  | _ => True

/-- An instrument is announced again under the name it keeps: with what is known of it then, if the definition is taken or
`A` is said for good. -/
theorem define_own (hA : Telling rd row A) {h : List (Out P)} {r : Run P} {channel : Nat} {d : InstrumentDefinition}
    (hok : Loose A ∨ r.Current cx (.define channel d)) (ht : Tells A (h ++ r.out) r.proc) {id : Nat}
    (hid : r.proc.revealed.get ⟨cx.publisher, d.instrumentId⟩ = some id) (hsame : (d.sourceId.all fun s => s = id) = true) :
    TellsOf A (h ++ (r.define rd row cx channel d).out) (r.define rd row cx channel d).proc
      ⟨cx.publisher, d.instrumentId⟩ := by
  intro s d' hs hd'
  rw [define_proc] at hs hd'
  rw [hid, Option.some.injEq] at hs
  subst hs
  have hchannel : Run.channelOf (r.define rd row cx channel d).proc ⟨cx.publisher, d.instrumentId⟩ = channel := by
    unfold Run.channelOf
    rw [define_proc, FinMap.get_insert_self]
    rfl
  have hkept : (r.setChannel ⟨cx.publisher, d.instrumentId⟩ channel).proc.revealed.get ⟨cx.publisher, d.instrumentId⟩ =
      some id := hid
  have hout : (r.define rd row cx channel d).out =
      ((r.setChannel ⟨cx.publisher, d.instrumentId⟩ channel).announce rd row ⟨cx.publisher, d.instrumentId⟩ channel id
        d).out := by
    show (Run.reannounce rd row _ _ channel d).out = _
    unfold Run.reannounce
    rw [hkept]
    exact congrArg Run.out (if_pos hsame)
  rw [hchannel, hout]
  by_cases hd : d' = d
  · rw [hd]
    exact announce_told hA h _ _ _ _ _
  · rcases hok with hloose | hcurrent
    · rcases PerPublisher.modify_definition (Q := fun i d'' => i = d.instrumentId ∧ d'' = d)
        (fun _ _ _ => RefDataState.onInstrumentDefinition_definition) hd' with hold | ⟨-, -, hnew⟩
      · rw [announce_out, ← List.append_assoc]
        exact hloose _ _ _ _ _ _ _ (ht _ id d' hid hold)
      · exact absurd hnew hd
    · have haccepted := hcurrent (by rw [hid]; rfl)
      rw [PerPublisher.modify_definition_self, RefDataState.onInstrumentDefinition_accepted haccepted] at hd'
      exact absurd (Option.some.inj hd').symm hd

/-- **A definition keeps what is said of every instrument**, if it is taken or `A` is said for good. -/
theorem onInstrumentDefinition_tells (hA : Telling rd row A) {h : List (Out P)} {r : Run P} {channel : Nat}
    {d : InstrumentDefinition} (hok : Loose A ∨ r.Current cx (.define channel d)) (ht : Tells A (h ++ r.out) r.proc) :
    Tells A (h ++ (r.onInstrumentDefinition rd row cx channel d).out)
      (r.onInstrumentDefinition rd row cx channel d).proc := by
  unfold Run.onInstrumentDefinition
  cases hsource : d.sourceId with
  | none =>
    intro key
    by_cases hkey : key = ⟨cx.publisher, d.instrumentId⟩
    · rw [hkey]
      cases hid : r.proc.revealed.get ⟨cx.publisher, d.instrumentId⟩ with
      | none =>
        intro s d' hs
        simp only at hs
        rw [define_proc, hid] at hs
        cases hs
      | some id => exact define_own hA hok ht hid (by rw [hsource]; rfl)
    · exact define_others hA channel ht hkey
  | some b =>
    refine revealIfNeeded_tells _ hA _ _ (fun key hkey => define_others hA channel ht hkey) fun hb => ?_
    rw [define_proc] at hb
    exact define_own hA hok ht hb (by rw [hsource]; simp)

/-- **A price is made once its instrument has its name**, so that what is said of that is what the price is made of. -/
theorem onPrice_tells (hA : Telling rd row A) {h : List (Out P)} {r : Run P} {instrumentId sourceId : Nat}
    {price : InstrumentKey → Nat → Scale → Option (Out P)}
    (hquiet : ∀ key channel s o key', price key channel s = some o → o.announces key' = none)
    (ht : Tells A (h ++ r.out) r.proc) :
    Tells A (h ++ (r.onPrice rd row cx instrumentId sourceId price).out) (r.onPrice rd row cx instrumentId sourceId price).proc := by
  have hreveal := revealIfNeeded_tells cx hA instrumentId sourceId
    (fun key _ => ht key) fun _ => ht _
  unfold Run.onPrice
  split
  · exact ht
  · simp only
    split
    · exact hreveal
    · rename_i o ho
      intro key s d' hs hd'
      show A (h ++ (_ ++ [o])) key _ s d'
      rw [← List.append_assoc]
      exact hA.other _ _ _ _ _ _ (hquiet _ _ _ _ _ ho) (hreveal key s d' hs hd')

/-- What a message of an action may say besides announcements. -/
def Action.Quiet : Action P → Prop
  | .price _ _ make => ∀ key channel s o key', make key channel s = some o → o.announces key' = none
  | _ => True

/-- **A message keeps what is said of every instrument.** -/
theorem act_tells (hA : Telling rd row A) {h : List (Out P)} {r : Run P} {a : Action P} (hquiet : a.Quiet)
    (hok : Loose A ∨ r.Current cx a) (ht : Tells A (h ++ r.out) r.proc) :
    Tells A (h ++ (r.act rd row cx a).out) (r.act rd row cx a).proc := by
  cases a with
  | manifest valid manifestSeq instrumentCount =>
    exact (modify_forgets r fun _ _ _ => RefDataState.onManifest_definition).tells ht
  | define channel d => exact onInstrumentDefinition_tells hA hok ht
  | channelReset =>
    have hnew : Forgets r.proc (r.modify cx fun _ => .new).proc :=
      modify_forgets r fun _ _ d h => nomatch (show none = some d from h)
    exact (hnew.trans (forgetPublisher_forgets _ cx.publisher)).tells ht
  | price instrumentId sourceId price => exact onPrice_tells hA hquiet ht
  | skip => exact ht

/-! ## What a price is made of -/

def Out.isPrice : Out P → Bool
  | .quote _ _ | .trade _ _ | .midpoint _ _ => true
  | _ => false

/-- A price is what one of the actions makes of an instrument of which `A` is said. -/
def MadeOf (cx : Ctx) (A : List (Out P) → InstrumentKey → Nat → Nat → InstrumentDefinition → Prop) (actions : List (Action P))
    (l : List (Out P)) (o : Out P) : Prop :=
  o.isPrice = true → ∃ instrumentId sourceId price channel d, .price instrumentId sourceId price ∈ actions ∧
    A l ⟨cx.publisher, instrumentId⟩ channel sourceId d ∧ price ⟨cx.publisher, instrumentId⟩ channel (.of d) = some o

section Made

variable {actions : List (Action P)} {h : List (Out P)} {r : Run P}

theorem emit_made {o : Out P} (ho : o.isPrice = false) (hf : Founded (MadeOf cx A actions) h r.out) :
    Founded (MadeOf cx A actions) h (r.emit o).out := by
  refine founded_snoc.mpr ⟨hf, fun hprice => ?_⟩
  rw [ho] at hprice
  cases hprice

theorem announce_made {key : InstrumentKey} {channel sourceId : Nat} {d : InstrumentDefinition}
    (hf : Founded (MadeOf cx A actions) h r.out) :
    Founded (MadeOf cx A actions) h (r.announce rd row key channel sourceId d).out :=
  emit_made rfl (emit_made rfl hf)

variable (rd row) in
theorem revealIfNeeded_made (instrumentId sourceId : Nat) (hf : Founded (MadeOf cx A actions) h r.out) :
    Founded (MadeOf cx A actions) h (r.revealIfNeeded rd row cx instrumentId sourceId).out := by
  unfold Run.revealIfNeeded
  simp only
  split
  · exact hf
  · split
    · exact hf
    · refine announce_made (r := Run.name _ _ _) ?_
      show Founded _ h (Run.retire rd row _ _ _).out
      unfold Run.retire
      split
      · exact hf
      · exact emit_made rfl hf

theorem onInstrumentDefinition_made (channel : Nat) (d : InstrumentDefinition)
    (hf : Founded (MadeOf cx A actions) h r.out) :
    Founded (MadeOf cx A actions) h (r.onInstrumentDefinition rd row cx channel d).out := by
  have hdefine : Founded (MadeOf cx A actions) h (r.define rd row cx channel d).out := by
    show Founded _ h (Run.reannounce rd row _ _ channel d).out
    unfold Run.reannounce
    split
    · exact hf
    · split
      · exact announce_made hf
      · exact hf
  unfold Run.onInstrumentDefinition
  cases d.sourceId with
  | none => exact hdefine
  | some id => exact revealIfNeeded_made rd row _ _ hdefine

variable (rd row) in
/-- After a reveal an instrument that is defined has the name that was revealed. -/
theorem revealIfNeeded_named (r : Run P) {instrumentId : Nat} (sourceId : Nat) {d : InstrumentDefinition}
    (hd : r.proc.state.definition cx.publisher instrumentId = some d) :
    (r.revealIfNeeded rd row cx instrumentId sourceId).proc.revealed.get ⟨cx.publisher, instrumentId⟩ = some sourceId ∧
      (r.revealIfNeeded rd row cx instrumentId sourceId).proc.state = r.proc.state := by
  unfold Run.revealIfNeeded
  simp only
  split
  · rename_i hnamed
    exact ⟨hnamed, rfl⟩
  · rw [hd]
    have hproc := retire_proc rd row r ⟨cx.publisher, instrumentId⟩
      (Run.channelOf r.proc ⟨cx.publisher, instrumentId⟩)
    refine ⟨FinMap.get_insert_self _ _ _, ?_⟩
    show (Run.retire rd row r _ _).proc.state = _
    rw [hproc]

theorem act_made (hA : Telling rd row A) {a : Action P} (ha : a ∈ actions)
    (ht : Tells A (h ++ r.out) r.proc) (hf : Founded (MadeOf cx A actions) h r.out) :
    Founded (MadeOf cx A actions) h (r.act rd row cx a).out := by
  cases a with
  | manifest => exact hf
  | define channel d => exact onInstrumentDefinition_made channel d hf
  | channelReset => exact hf
  | skip => exact hf
  | price instrumentId sourceId price =>
    have hreveal := revealIfNeeded_tells cx hA instrumentId sourceId
      (fun key _ => ht key) fun _ => ht _
    have hmade := revealIfNeeded_made rd row instrumentId sourceId hf
    show Founded _ h (r.onPrice rd row cx instrumentId sourceId price).out
    unfold Run.onPrice
    split
    · exact hf
    · rename_i d hd
      simp only
      split
      · exact hmade
      · rename_i o ho
        obtain ⟨hnamed, hstate⟩ := revealIfNeeded_named rd row r sourceId hd
        refine founded_snoc.mpr ⟨hmade, fun _ => ⟨instrumentId, sourceId, price, _, d, ha, ?_, ho⟩⟩
        exact hreveal _ sourceId d hnamed (by rw [hstate]; exact hd)

end Made

end Messages

/-! ## Whole runs -/

section Runs

variable {P M : Type} {rd : Render P P} {row : Row} {action : Ctx → DatagramHeader → Bool → M → Action P}
  {A : List (Out P) → InstrumentKey → Nat → Nat → InstrumentDefinition → Prop}

theorem begin_forgets (cx : Ctx) (resetCount : Nat) (p : Announcer) :
    Forgets p (begin (P := P) cx resetCount p).proc ∧ (begin (P := P) cx resetCount p).out = [] := by
  have hmodify : Forgets p (Run.modify (P := P) cx ⟨p, []⟩ fun s => s.onDatagram resetCount).proc :=
    modify_forgets ⟨p, []⟩ fun _ _ _ => RefDataState.onDatagram_definition
  have htaken : Forgets p (Run.modify (P := P) cx ⟨p, []⟩ fun s => s.onDatagram resetCount).takeEvicted.1.proc :=
    ⟨hmodify.revealed, hmodify.definition⟩
  unfold begin
  split
  · split
    · rename_i r heq
      rw [heq] at htaken
      exact ⟨htaken, (congrArg (fun x => x.1.out) heq).symm⟩
    · rename_i r evicted heq
      rw [heq] at htaken
      exact ⟨htaken.trans (forgetPublisher_forgets r evicted), (congrArg (fun x => x.1.out) heq).symm⟩
  · exact ⟨⟨fun _ _ h => ⟨h, rfl⟩, fun _ _ _ h => h⟩, rfl⟩

theorem checkSeq_forgets (cx : Ctx) (h : DatagramHeader) (r : Run P) :
    Forgets r.proc (checkSeq cx h r).1.proc ∧ (checkSeq cx h r).1.out = r.out := by
  unfold checkSeq
  split
  · exact ⟨⟨fun _ _ h => ⟨h, rfl⟩, fun _ _ _ h => h⟩, rfl⟩
  · exact ⟨⟨fun _ _ h => ⟨h, rfl⟩, fun _ _ _ h => h⟩, rfl⟩

/-- Every message of a datagram meets a condition in the state it is read in. -/
def Reads (rd : Render P P) (row : Row) (cx : Ctx) (ok : Run P → Action P → Prop) : Run P → List (Action P) → Prop
  | _, [] => True
  | r, a :: as => ok r a ∧ Reads rd row cx ok (r.act rd row cx a) as

theorem acts_made {cx : Ctx} (actions : List (Action P)) (hA : Telling rd row A) {h : List (Out P)} :
    ∀ (as : List (Action P)) {r : Run P}, (∀ a ∈ as, a ∈ actions ∧ a.Quiet) →
      Loose A ∨ Reads rd row cx (Run.Current cx) r as → Tells A (h ++ r.out) r.proc →
      Founded (MadeOf cx A actions) h r.out →
      Tells A (h ++ (as.foldl (Run.act rd row cx) r).out) (as.foldl (Run.act rd row cx) r).proc ∧
        Founded (MadeOf cx A actions) h (as.foldl (Run.act rd row cx) r).out
  | [], _, _, _, ht, hf => ⟨ht, hf⟩
  | a :: as, r, hin, hok, ht, hf => by
    obtain ⟨ha, hquiet⟩ := hin a List.mem_cons_self
    have hhead : Loose A ∨ r.Current cx a := hok.imp id fun h => h.1
    exact acts_made actions hA as (fun a' ha' => hin a' (List.mem_cons_of_mem _ ha')) (hok.imp id fun h => h.2)
      (act_tells hA hquiet hhead ht) (act_made hA ha ht hf)

/-- The messages of a datagram as actions, and the processor that they are read in. -/
def Input.actions (action : Ctx → DatagramHeader → Bool → M → Action P) (p : Announcer) (i : Input M) : List (Action P) :=
  i.messages.map (action i.cx i.header
    (checkSeq (P := P) i.cx i.header (begin i.cx i.header.resetCount.toNat p)).2)

/-- Every definition of a named instrument is of the manifest in force when it comes. -/
def Current (rd : Render P P) (row : Row) (action : Ctx → DatagramHeader → Bool → M → Action P) (p : Announcer)
    (i : Input M) : Prop :=
  Reads rd row i.cx (Run.Current i.cx) (checkSeq i.cx i.header (begin i.cx i.header.resetCount.toNat p)).1
    (i.actions action p)

theorem onDatagram_eq (p : Announcer) (i : Input M) : onDatagram rd row action p i =
    (i.actions action p).foldl (Run.act rd row i.cx) (checkSeq i.cx i.header (begin i.cx i.header.resetCount.toNat p)).1 := by
  unfold onDatagram Input.actions
  rw [List.foldl_map]

/-- **Every price of a run is made of an instrument of which `A` is said.** -/
theorem announcer_made (hA : Telling rd row A)
    (hquiet : ∀ cx h fresh m, (action cx h fresh m).Quiet) (is : List (Input M))
    (hok : Loose A ∨ (announcer rd row action).Along (Current rd row action) .new is) :
    Founded (fun l e => ∃ p, MadeOf e.1.cx A (e.1.actions action p) (l.map Prod.snd) e.2) []
      ((announcer rd row action).log .new is) := by
  have hrun : (announcer rd row action).Along (fun p i => Loose A ∨ Current rd row action p i) .new is := by
    rcases hok with hloose | hcurrent
    · exact Machine.along_of_forall (p := fun _ => True) is _ (fun _ _ => trivial) |>.mono fun _ _ _ => .inl hloose
    · exact hcurrent.mono fun _ _ => .inr
  refine (Machine.founded_rule (J := fun l p => Tells A (l.map Prod.snd) p) (fun l p i hi ht => ?_) is [] .new hrun ?_).1
  · have hsnd : ((((announcer rd row action).step p i).2.map fun o => (i, o)).map Prod.snd) =
        ((announcer rd row action).step p i).2 := by
      rw [List.map_map]
      exact List.map_id _
    obtain ⟨hbegin, hnone⟩ := begin_forgets (P := P) i.cx i.header.resetCount.toNat p
    obtain ⟨hseq, hout⟩ := checkSeq_forgets i.cx i.header (begin (P := P) i.cx i.header.resetCount.toNat p)
    have hstart := (hbegin.trans hseq).tells ht
    obtain ⟨hnext, hsaid⟩ := acts_made (i.actions action p) hA (i.actions action p)
      (r := (checkSeq i.cx i.header (begin i.cx i.header.resetCount.toNat p)).1)
      (fun a ha => ⟨ha, by
        obtain ⟨m, -, rfl⟩ := List.mem_map.mp ha
        exact hquiet _ _ _ m⟩) hi
      (by rw [hout, hnone, List.append_nil]; exact hstart) (by rw [hout, hnone]; trivial)
    rw [← onDatagram_eq] at hnext hsaid
    rw [List.map_append, hsnd]
    refine ⟨?_, hnext⟩
    have hmade : Founded (MadeOf i.cx A (i.actions action p)) (l.map Prod.snd)
        ((((announcer rd row action).step p i).2.map fun o => (i, o)).map Prod.snd) := by
      rw [hsnd]
      exact hsaid
    refine (founded_map.mp hmade).mono fun e he _ hG => ?_
    obtain ⟨o, -, rfl⟩ := List.mem_map.mp he
    exact ⟨p, hG⟩
  · intro key s d hs
    cases hs

end Runs

/-! ## The two processors -/

section Prices

variable {P : Type}

/-- An announcement is of an instrument of the row, under a Source ID. -/
structure Announces (rd : Render P P) (row : Row) (i : Instrument) (instrumentId sourceId : Nat) : Prop where
  source : i.source = rd.sourceKey sourceId
  sourceId : i.sourceId = sourceId
  instrumentId : i.instrumentId = instrumentId
  category : i.category = row.category

theorem instrumentOf_announces (rd : Render P P) (row : Row) (key : InstrumentKey) (channel sourceId : Nat)
    (d : InstrumentDefinition) :
    Announces rd row (Run.instrumentOf rd row key channel sourceId d) key.instrumentId sourceId := ⟨rfl, rfl, rfl, rfl⟩

/-- A price is what a message of its datagram makes of an announcement of its instrument, and of a channel. -/
inductive Tob.Priced (rd : Render P P) (row : Row) (e : Input Codec.Message) (channel : Nat) (i : Instrument) :
    InstrumentKey → Out P → Prop
  | quote (q : Codec.Quote) (hq : .quote q ∈ e.messages) (hi : Announces rd row i q.instrumentId q.sourceId) :
    Tob.Priced rd row e channel i ⟨e.cx.publisher, q.instrumentId⟩ (.quote ⟨e.cx.publisher, q.instrumentId⟩
      (quoteOf rd e.cx (canonicalChannel row.mirrorOffset e.header.channelId.toNat) (.told i) q))
  | trade (t : Codec.Trade) (ht : .trade t ∈ e.messages) (hi : Announces rd row i t.instrumentId t.sourceId)
    (htape : e.cx.tape = true) : Tob.Priced rd row e channel i ⟨e.cx.publisher, t.instrumentId⟩
      (.trade ⟨e.cx.publisher, t.instrumentId⟩ (tradeOf rd row e.cx channel (.told i) t))

inductive Midpoint.Priced (rd : Render P P) (row : Row) (e : Input CodecMidpoint.Message) (i : Instrument) :
    InstrumentKey → Out P → Prop
  | midpoint (mp : CodecMidpoint.Midpoint) (hmp : .midpoint mp ∈ e.messages)
    (hi : Announces rd row i mp.instrumentId mp.sourceId) :
    Midpoint.Priced rd row e i ⟨e.cx.publisher, mp.instrumentId⟩
      (.midpoint ⟨e.cx.publisher, mp.instrumentId⟩ (midpointOf rd e.cx (.told i) mp))

variable {rd : Render P P} {row : Row} {cx : Ctx} {h : DatagramHeader} {fresh : Bool} {instrumentId sourceId : Nat}
  {make : InstrumentKey → Nat → Scale → Option (Out P)}

/-- The Top-of-Book messages that are prices. -/
theorem Tob.action_price {m : Codec.Message} (hm : Tob.action rd row cx h fresh m = .price instrumentId sourceId make) :
    (∃ q, m = .quote q ∧ instrumentId = q.instrumentId ∧ sourceId = q.sourceId ∧ make = fun key _ s =>
        some (.quote key (quoteOf rd cx (canonicalChannel row.mirrorOffset h.channelId.toNat) s q))) ∨
      ∃ t, m = .trade t ∧ instrumentId = t.instrumentId ∧ sourceId = t.sourceId ∧ make = fun key channel s =>
        if cx.tape then some (.trade key (tradeOf rd row cx channel s t)) else none := by
  cases m with
  | quote q =>
    simp only [Tob.action] at hm
    split at hm
    · cases hm
      exact .inl ⟨q, rfl, rfl, rfl, rfl⟩
    · cases hm
  | trade t =>
    simp only [Tob.action] at hm
    split at hm
    · cases hm
      exact .inr ⟨t, rfl, rfl, rfl, rfl⟩
    · cases hm
  | manifestSummary _ | instrumentDefinition _ | channelReset _ =>
    simp only [Tob.action] at hm
    split at hm <;> cases hm
  | endOfSession _ | heartbeat | other _ => cases hm

theorem Midpoint.action_price {m : CodecMidpoint.Message}
    (hm : Midpoint.action rd row cx h fresh m = .price instrumentId sourceId make) :
    ∃ mp, m = .midpoint mp ∧ instrumentId = mp.instrumentId ∧ sourceId = mp.sourceId ∧
      make = fun key _ s => some (.midpoint key (midpointOf rd cx s mp)) := by
  cases m with
  | midpoint mp =>
    simp only [Midpoint.action] at hm
    split at hm
    · cases hm
      exact ⟨mp, rfl, rfl, rfl, rfl⟩
    · cases hm
  | manifestSummary _ | instrumentDefinition _ =>
    simp only [Midpoint.action] at hm
    split at hm <;> cases hm
  | endOfSession _ | heartbeat | other _ => cases hm

theorem Tob.action_quiet (cx : Ctx) (h : DatagramHeader) (fresh : Bool) (m : Codec.Message) :
    (Tob.action rd row cx h fresh m).Quiet := by
  generalize ha : Tob.action rd row cx h fresh m = a
  cases a with
  | price instrumentId sourceId make =>
    intro key channel s o key' ho
    rcases Tob.action_price ha with ⟨q, -, -, -, rfl⟩ | ⟨t, -, -, -, rfl⟩
    · cases ho
      rfl
    · simp only at ho
      split at ho
      · cases ho
        rfl
      · cases ho
  | manifest | define | channelReset | skip => trivial

theorem Midpoint.action_quiet (cx : Ctx) (h : DatagramHeader) (fresh : Bool) (m : CodecMidpoint.Message) :
    (Midpoint.action rd row cx h fresh m).Quiet := by
  generalize ha : Midpoint.action rd row cx h fresh m = a
  cases a with
  | price instrumentId sourceId make =>
    intro key channel s o key' ho
    obtain ⟨mp, -, -, -, rfl⟩ := Midpoint.action_price ha
    cases ho
    rfl
  | manifest | define | channelReset | skip => trivial

variable {A : List (Out P) → InstrumentKey → Nat → Nat → InstrumentDefinition → Prop} {l : List (Out P)} {o : Out P}
  {p : Announcer}

/-- What is made of an instrument is priced under any announcement of its definition. -/
theorem Tob.priced_of_made {e : Input Codec.Message} (hprice : o.isPrice = true)
    (hmade : MadeOf e.cx A (e.actions (Tob.action rd row) p) l o) : ∃ key channel sourceId d, A l key channel sourceId d ∧
      ∀ c, Tob.Priced rd row e channel (Run.instrumentOf rd row key c sourceId d) key o := by
  obtain ⟨instrumentId, sourceId, make, channel, d, hin, hA, hmake⟩ := hmade hprice
  obtain ⟨m, hm, haction⟩ := List.mem_map.mp hin
  refine ⟨_, channel, sourceId, d, hA, fun c => ?_⟩
  rcases Tob.action_price haction with ⟨q, rfl, rfl, rfl, rfl⟩ | ⟨t, rfl, rfl, rfl, rfl⟩
  · cases hmake
    exact .quote q hm (instrumentOf_announces rd row _ c q.sourceId d)
  · simp only at hmake
    split at hmake
    · rename_i htape
      cases hmake
      exact .trade t hm (instrumentOf_announces rd row _ c t.sourceId d) htape
    · cases hmake

theorem Midpoint.priced_of_made {e : Input CodecMidpoint.Message} (hprice : o.isPrice = true)
    (hmade : MadeOf e.cx A (e.actions (Midpoint.action rd row) p) l o) : ∃ key channel sourceId d,
      A l key channel sourceId d ∧ ∀ c, Midpoint.Priced rd row e (Run.instrumentOf rd row key c sourceId d) key o := by
  obtain ⟨instrumentId, sourceId, make, channel, d, hin, hA, hmake⟩ := hmade hprice
  obtain ⟨m, hm, haction⟩ := List.mem_map.mp hin
  refine ⟨_, channel, sourceId, d, hA, fun c => ?_⟩
  obtain ⟨mp, rfl, rfl, rfl, rfl⟩ := Midpoint.action_price haction
  cases hmake
  exact .midpoint mp hm (instrumentOf_announces rd row _ c mp.sourceId d)

/-- **No price goes out without its exponents.**  Whatever comes in, every price that either processor hands on is what a
message of its datagram makes of an announcement of that instrument, under that Source ID, which went out before it. -/
theorem prices_announced (rd : Render P P) (row : Row) :
    (∀ is : List (Input Codec.Message), Founded (fun before e => e.2.isPrice = true → ∃ key channel i,
      .instrument key i ∈ before.map Prod.snd ∧ Tob.Priced rd row e.1 channel i key e.2) []
        ((Tob.machine rd row).log .new is)) ∧
      ∀ is : List (Input CodecMidpoint.Message), Founded (fun before e => e.2.isPrice = true → ∃ key i,
        .instrument key i ∈ before.map Prod.snd ∧ Midpoint.Priced rd row e.1 i key e.2) []
          ((Midpoint.machine rd row).log .new is) := by
  refine ⟨fun is => ?_, fun is => ?_⟩
  · refine (announcer_made (once_telling rd row) Tob.action_quiet is (.inl (once_loose rd row))).mono fun e _ before hG hprice => ?_
    obtain ⟨p, hmade⟩ := hG
    obtain ⟨key, channel, sourceId, d, ⟨c, hsaid⟩, hpriced⟩ := Tob.priced_of_made hprice hmade
    exact ⟨key, channel, _, hsaid, hpriced c⟩
  · refine (announcer_made (once_telling rd row) Midpoint.action_quiet is (.inl (once_loose rd row))).mono
      fun e _ before hG hprice => ?_
    obtain ⟨p, hmade⟩ := hG
    obtain ⟨key, -, sourceId, d, ⟨c, hsaid⟩, hpriced⟩ := Midpoint.priced_of_made hprice hmade
    exact ⟨key, _, hsaid, hpriced c⟩

/-- **A price goes out under the last announcement of its instrument**, a trade on its channel, in every run in which a
definition of an instrument that has a name is of its publisher's manifest in force. -/
theorem prices_follow_last (rd : Render P P) (row : Row) :
    (∀ is : List (Input Codec.Message),
      (Tob.machine rd row).Along (Current rd row (Tob.action rd row)) .new is →
      Founded (fun before e => e.2.isPrice = true → ∃ key i,
        Upheld.latest (Out.announces key) (before.map Prod.snd) = some i ∧ Tob.Priced rd row e.1 i.channel i key e.2) []
          ((Tob.machine rd row).log .new is)) ∧
      ∀ is : List (Input CodecMidpoint.Message),
        (Midpoint.machine rd row).Along (Current rd row (Midpoint.action rd row)) .new is →
        Founded (fun before e => e.2.isPrice = true → ∃ key i,
          Upheld.latest (Out.announces key) (before.map Prod.snd) = some i ∧ Midpoint.Priced rd row e.1 i key e.2) []
            ((Midpoint.machine rd row).log .new is) := by
  refine ⟨fun is hcurrent => ?_, fun is hcurrent => ?_⟩
  · refine (announcer_made (last_telling rd row) Tob.action_quiet is (.inr hcurrent)).mono fun e _ before hG hprice => ?_
    obtain ⟨p, hmade⟩ := hG
    obtain ⟨key, channel, sourceId, d, hsaid, hpriced⟩ := Tob.priced_of_made hprice hmade
    exact ⟨key, _, hsaid, hpriced channel⟩
  · refine (announcer_made (last_telling rd row) Midpoint.action_quiet is (.inr hcurrent)).mono fun e _ before hG hprice => ?_
    obtain ⟨p, hmade⟩ := hG
    obtain ⟨key, channel, sourceId, d, hsaid, hpriced⟩ := Midpoint.priced_of_made hprice hmade
    exact ⟨key, _, hsaid, hpriced channel⟩

end Prices

end EdgeConnect.TobFeed
