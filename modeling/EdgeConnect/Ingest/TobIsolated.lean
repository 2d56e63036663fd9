import EdgeConnect.Ingest.TobAnnounced

/-!
# Publishers do not meet (`TobProcessor` and `MidpointProcessor` in `src/ingest/processor.rs`)

Mirrors of one feed share a group and a processor.  As long as no more of them send than the processor has room for, what
it hands on for one is what it would hand on if that one were alone.

* `Agree`, `Alike` — two processors, and two runs, that know the same of a publisher; `Alike.act` — its messages keep that;
* `Roomy` — nobody but some publishers is known, and nobody was evicted;
* `Own` — a change that leaves room and every other publisher as it was; `act_own` — so does a message;
* `publishers_isolated` — whole runs, for both processors.
-/

set_option autoImplicit false

namespace EdgeConnect.Ingest

/-- A publisher is known, or there is room for one. -/
def Room {V : Type} (m : FinMap IpAddr V) (publisher : IpAddr) : Prop :=
  m.contains publisher = true ∨ m.size < MAX_PUBLISHERS

/-- Where only publishers that there is room for are known, there is room for each of them. -/
theorem room_of_subset {V : Type} {m : FinMap IpAddr V} {publishers : Finset IpAddr} {publisher : IpAddr}
    (hcard : publishers.card ≤ MAX_PUBLISHERS) (hkeys : m.keys ⊆ publishers) (hin : publisher ∈ publishers) :
    Room m publisher := by
  by_cases hc : m.contains publisher = true
  · exact .inl hc
  · have hout : publisher ∉ m.keys :=
      FinMap.notMem_keys_iff.mpr (FinMap.contains_eq_false.mp (Bool.eq_false_of_not_eq_true hc))
    have hless : m.keys.card < publishers.card :=
      Finset.card_lt_card ⟨hkeys, fun hall => hout (hall hin)⟩
    have hsize : m.size = m.keys.card := rfl
    right
    omega

namespace PerPublisher

/-- A write where there is room evicts nobody. -/
theorem modify_of_room {s : PerPublisher} {publisher : IpAddr} (h : Room s.states publisher)
    (f : RefDataState → RefDataState) :
    (s.modify publisher f).states = s.states.insert publisher (f ((s.states.get publisher).getD .new)) ∧
      (s.modify publisher f).lastEvicted = s.lastEvicted := by
  unfold modify ensure
  by_cases hc : s.states.contains publisher = true
  · rw [if_pos hc]
    exact ⟨rfl, rfl⟩
  · have hroom : decide (s.states.size ≥ MAX_PUBLISHERS) = false :=
      decide_eq_false (Nat.not_le.mpr (h.resolve_left hc))
    have hnone : s.states.get publisher = none :=
      FinMap.contains_eq_false.mp (Bool.eq_false_of_not_eq_true hc)
    rw [if_neg hc, evictWhile_of_room (s := (s.states, s.lastEvicted)) _ hroom]
    simp only [FinMap.get_insert_self, FinMap.insert_insert, hnone]
    exact ⟨rfl, trivial⟩

end PerPublisher

namespace PublisherSeq

/-- The tracker of a publisher, or a new one. -/
def trackerOf (s : PublisherSeq) (publisher : IpAddr) : SeqTracker := (s.trackers.get publisher).getD ⟨∅, s.bounded⟩

/-- A check where there is room evicts nobody. -/
theorem check_of_room {s : PublisherSeq} {publisher : IpAddr} (h : Room s.trackers publisher)
    (channel resetCount sequence nowNs : Nat) :
    (s.check publisher channel resetCount sequence nowNs).1.trackers =
        s.trackers.insert publisher ((s.trackerOf publisher).check channel resetCount sequence nowNs).1 ∧
      (s.check publisher channel resetCount sequence nowNs).1.bounded = s.bounded ∧
      (s.check publisher channel resetCount sequence nowNs).2 =
        ((s.trackerOf publisher).check channel resetCount sequence nowNs).2 := by
  unfold check trackerOf
  by_cases hc : s.trackers.contains publisher = true
  · simp only [if_pos hc]
    exact ⟨trivial, trivial, trivial⟩
  · have hroom : decide (s.trackers.size ≥ MAX_PUBLISHERS) = false :=
      decide_eq_false (Nat.not_le.mpr (h.resolve_left hc))
    simp only [if_neg hc]
    rw [evictWhile_of_room (s := s.trackers) _ hroom]
    exact ⟨rfl, trivial, rfl⟩

end PublisherSeq

end EdgeConnect.Ingest

namespace EdgeConnect.TobFeed

open Ingest
open CodecCommon (DatagramHeader)

/-! ## What is known of a publisher -/

/-- Two processors know the same of a publisher. -/
structure Agree (publisher : IpAddr) (p p' : Announcer) : Prop where
  state : p.state.states.get publisher = p'.state.states.get publisher
  tracker : p.seq.trackers.get publisher = p'.seq.trackers.get publisher
  bounded : p.seq.bounded = p'.seq.bounded
  revealed : ∀ i, p.revealed.get ⟨publisher, i⟩ = p'.revealed.get ⟨publisher, i⟩
  channel : ∀ i, p.pendingChannel.get ⟨publisher, i⟩ = p'.pendingChannel.get ⟨publisher, i⟩

/-- Two runs know the same of a publisher and have handed on the same. -/
structure Alike {P : Type} (publisher : IpAddr) (r r' : Run P) : Prop where
  proc : Agree publisher r.proc r'.proc
  out : r.out = r'.out

namespace Agree

variable {publisher : IpAddr} {p p' p'' : Announcer}

theorem refl (publisher : IpAddr) (p : Announcer) : Agree publisher p p := ⟨rfl, rfl, rfl, fun _ => rfl, fun _ => rfl⟩

theorem trans (h : Agree publisher p p') (h' : Agree publisher p' p'') : Agree publisher p p'' where
  state := h.state.trans h'.state
  tracker := h.tracker.trans h'.tracker
  bounded := h.bounded.trans h'.bounded
  revealed i := (h.revealed i).trans (h'.revealed i)
  channel i := (h.channel i).trans (h'.channel i)

theorem definition (h : Agree publisher p p') (i : Nat) :
    p.state.definition publisher i = p'.state.definition publisher i := by
  unfold PerPublisher.definition
  rw [h.state]

theorem channelOf (h : Agree publisher p p') (i : Nat) :
    Run.channelOf p ⟨publisher, i⟩ = Run.channelOf p' ⟨publisher, i⟩ := by
  unfold Run.channelOf
  rw [h.channel]

end Agree

/-! ## A message of the publisher -/

section Messages

variable {P : Type} (rd : Render P P) (row : Row) {cx : Ctx} {r r' : Run P}

namespace Alike

theorem emit {publisher : IpAddr} (h : Alike publisher r r') (o : Out P) : Alike publisher (r.emit o) (r'.emit o) := by
  refine ⟨h.proc, ?_⟩
  show r.out ++ [o] = r'.out ++ [o]
  rw [h.out]

variable (h : Alike cx.publisher r r')

include h

theorem retire (i channel : Nat) :
    Alike cx.publisher (r.retire rd row ⟨cx.publisher, i⟩ channel) (r'.retire rd row ⟨cx.publisher, i⟩ channel) := by
  unfold Run.retire
  rw [h.proc.revealed i]
  cases r'.proc.revealed.get ⟨cx.publisher, i⟩ with
  | none => exact h
  | some old => exact h.emit _

theorem name (i sourceId : Nat) :
    Alike cx.publisher (r.name ⟨cx.publisher, i⟩ sourceId) (r'.name ⟨cx.publisher, i⟩ sourceId) := by
  refine ⟨⟨h.proc.state, h.proc.tracker, h.proc.bounded, fun j => ?_, h.proc.channel⟩, h.out⟩
  show (r.proc.revealed.insert _ sourceId).get _ = (r'.proc.revealed.insert _ sourceId).get _
  rw [FinMap.get_insert, FinMap.get_insert, h.proc.revealed]

theorem revealIfNeeded (i sourceId : Nat) :
    Alike cx.publisher (r.revealIfNeeded rd row cx i sourceId) (r'.revealIfNeeded rd row cx i sourceId) := by
  unfold Run.revealIfNeeded
  simp only
  rw [h.proc.revealed, h.proc.definition, h.proc.channelOf]
  split
  · exact h
  · cases r'.proc.state.definition cx.publisher i with
    | none => exact h
    | some d => exact (((h.retire rd row i _).name i sourceId).emit _).emit _

theorem modify (f : RefDataState → RefDataState) : Alike cx.publisher (r.modify cx f) (r'.modify cx f) := by
  refine ⟨⟨?_, h.proc.tracker, h.proc.bounded, h.proc.revealed, h.proc.channel⟩, h.out⟩
  show (r.proc.state.modify cx.publisher f).states.get _ = (r'.proc.state.modify cx.publisher f).states.get _
  rw [PerPublisher.modify_get_self, PerPublisher.modify_get_self, h.proc.state]

theorem setChannel (i channel : Nat) :
    Alike cx.publisher (r.setChannel ⟨cx.publisher, i⟩ channel) (r'.setChannel ⟨cx.publisher, i⟩ channel) := by
  refine ⟨⟨h.proc.state, h.proc.tracker, h.proc.bounded, h.proc.revealed, fun j => ?_⟩, h.out⟩
  show (r.proc.pendingChannel.insert _ channel).get _ = (r'.proc.pendingChannel.insert _ channel).get _
  rw [FinMap.get_insert, FinMap.get_insert, h.proc.channel]

theorem reannounce (i channel : Nat) (d : InstrumentDefinition) :
    Alike cx.publisher (r.reannounce rd row ⟨cx.publisher, i⟩ channel d)
      (r'.reannounce rd row ⟨cx.publisher, i⟩ channel d) := by
  unfold Run.reannounce
  rw [h.proc.revealed]
  cases r'.proc.revealed.get ⟨cx.publisher, i⟩ with
  | none => exact h
  | some id =>
    simp only
    split
    · exact (h.emit _).emit _
    · exact h

theorem define (channel : Nat) (d : InstrumentDefinition) :
    Alike cx.publisher (r.define rd row cx channel d) (r'.define rd row cx channel d) :=
  ((h.setChannel d.instrumentId channel).reannounce rd row d.instrumentId channel d).modify _

theorem forgetPublisher : Alike cx.publisher (r.forgetPublisher cx.publisher) (r'.forgetPublisher cx.publisher) := by
  refine ⟨⟨h.proc.state, h.proc.tracker, h.proc.bounded, fun i => ?_, fun i => ?_⟩, h.out⟩
  · show (FinMap.filter _ _).get _ = (FinMap.filter _ _).get _
    rw [FinMap.get_filter, FinMap.get_filter, h.proc.revealed]
  · show (FinMap.filter _ _).get _ = (FinMap.filter _ _).get _
    rw [FinMap.get_filter, FinMap.get_filter, h.proc.channel]

/-- **A message of the publisher is answered alike**, and leaves the same known of it. -/
theorem act (a : Action P) : Alike cx.publisher (r.act rd row cx a) (r'.act rd row cx a) := by
  cases a with
  | manifest valid manifestSeq instrumentCount => exact h.modify _
  | define channel d =>
    show Alike cx.publisher (r.onInstrumentDefinition rd row cx channel d) (r'.onInstrumentDefinition rd row cx channel d)
    unfold Run.onInstrumentDefinition
    cases d.sourceId with
    | none => exact h.define rd row channel d
    | some id => exact (h.define rd row channel d).revealIfNeeded rd row d.instrumentId id
  | channelReset => exact (h.modify _).forgetPublisher
  | price i sourceId make =>
    show Alike cx.publisher (r.onPrice rd row cx i sourceId make) (r'.onPrice rd row cx i sourceId make)
    have hrevealed := h.revealIfNeeded rd row i sourceId
    unfold Run.onPrice
    rw [h.proc.definition]
    cases r'.proc.state.definition cx.publisher i with
    | none => exact h
    | some d =>
      simp only
      rw [hrevealed.proc.channelOf]
      cases make ⟨cx.publisher, i⟩ (Run.channelOf (r'.revealIfNeeded rd row cx i sourceId).proc ⟨cx.publisher, i⟩) (.of d)
      · exact hrevealed
      · exact hrevealed.emit _
  | skip => exact h

theorem acts (as : List (Action P)) :
    Alike cx.publisher (as.foldl (Run.act rd row cx) r) (as.foldl (Run.act rd row cx) r') := by
  induction as generalizing r r' with
  | nil => exact h
  | cons a as ih => exact ih (h.act rd row a)

end Alike

end Messages

/-! ## A message of another publisher -/

/-- Nobody but some publishers is known, and nobody was evicted. -/
structure Roomy (publishers : Finset IpAddr) (p : Announcer) : Prop where
  states : p.state.states.keys ⊆ publishers
  settled : p.state.lastEvicted = none
  trackers : p.seq.trackers.keys ⊆ publishers

/-- A change that leaves room, and every publisher but its own as it was. -/
def Own (publishers : Finset IpAddr) (publisher : IpAddr) (p p' : Announcer) : Prop :=
  Roomy publishers p → Roomy publishers p' ∧ ∀ other, other ≠ publisher → Agree other p' p

section Others

variable {P : Type} {rd : Render P P} {row : Row} {cx : Ctx} {publishers : Finset IpAddr} {publisher : IpAddr}
  {p p' p'' : Announcer}

theorem Own.refl (p : Announcer) : Own publishers publisher p p := fun hp => ⟨hp, fun _ _ => .refl _ p⟩

theorem Own.trans (h : Own publishers publisher p p') (h' : Own publishers publisher p' p'') :
    Own publishers publisher p p'' := by
  intro hp
  obtain ⟨hp', hagree⟩ := h hp
  obtain ⟨hp'', hagree'⟩ := h' hp'
  exact ⟨hp'', fun other hne => (hagree' other hne).trans (hagree other hne)⟩

/-- The names and channels of a publisher's instruments are its own. -/
theorem own_names (p : Announcer) {revealed pendingChannel : FinMap InstrumentKey Nat}
    (h : ∀ key : InstrumentKey, key.publisher ≠ publisher →
      revealed.get key = p.revealed.get key ∧ pendingChannel.get key = p.pendingChannel.get key) :
    Own publishers publisher p { p with revealed, pendingChannel } := by
  intro hp
  refine ⟨⟨hp.states, hp.settled, hp.trackers⟩, fun other hne => ⟨rfl, rfl, rfl, fun i => ?_, fun i => ?_⟩⟩
  · exact (h ⟨other, i⟩ hne).1
  · exact (h ⟨other, i⟩ hne).2

theorem own_insert (m : FinMap InstrumentKey Nat) (i v : Nat) (key : InstrumentKey) (hne : key.publisher ≠ publisher) :
    (m.insert ⟨publisher, i⟩ v).get key = m.get key := by
  refine FinMap.get_insert_of_ne _ _ fun heq => hne ?_
  rw [heq]

theorem revealIfNeeded_own (r : Run P) (i sourceId : Nat) :
    Own publishers cx.publisher r.proc (r.revealIfNeeded rd row cx i sourceId).proc := by
  unfold Run.revealIfNeeded
  simp only
  split
  · exact .refl _
  · split
    · exact .refl _
    · show Own publishers cx.publisher r.proc { Run.proc _ with revealed := (Run.proc _).revealed.insert _ sourceId }
      rw [retire_proc]
      exact own_names _ fun key hne => ⟨own_insert _ i sourceId key hne, rfl⟩

theorem forgetPublisher_own (r : Run P) (publisher : IpAddr) :
    Own publishers publisher r.proc (r.forgetPublisher publisher).proc := by
  refine own_names _ fun key hne => ?_
  have hkeep : (!decide (key.publisher = publisher)) = true := by simpa using hne
  rw [FinMap.get_filter_key _ fun k : InstrumentKey => !decide (k.publisher = publisher), if_pos hkeep,
    FinMap.get_filter_key _ fun k : InstrumentKey => !decide (k.publisher = publisher), if_pos hkeep]
  exact ⟨rfl, rfl⟩

variable (hcard : publishers.card ≤ MAX_PUBLISHERS) (hin : cx.publisher ∈ publishers)

include hcard hin

theorem modify_own (r : Run P) (f : RefDataState → RefDataState) :
    Own publishers cx.publisher r.proc (r.modify cx f).proc := by
  intro hp
  obtain ⟨hstates, hsettled⟩ := PerPublisher.modify_of_room (room_of_subset hcard hp.states hin) f
  refine ⟨⟨?_, hsettled.trans hp.settled, hp.trackers⟩, fun other hne => ⟨?_, rfl, rfl, fun _ => rfl, fun _ => rfl⟩⟩
  · show (r.proc.state.modify cx.publisher f).states.keys ⊆ publishers
    rw [hstates, FinMap.keys_insert]
    exact Finset.insert_subset hin hp.states
  · show (r.proc.state.modify cx.publisher f).states.get other = _
    rw [hstates]
    exact FinMap.get_insert_of_ne _ _ hne

theorem define_own_publisher (r : Run P) (channel : Nat) (d : InstrumentDefinition) :
    Own publishers cx.publisher r.proc (r.define rd row cx channel d).proc := by
  have hmodified := modify_own hcard hin r fun s => s.onInstrumentDefinition d
  rw [define_proc]
  exact hmodified.trans (own_names _ fun key hne => ⟨rfl, own_insert _ d.instrumentId channel key hne⟩)

/-- **A message leaves room, and every publisher but its own as it was.** -/
theorem act_own (r : Run P) (a : Action P) : Own publishers cx.publisher r.proc (r.act rd row cx a).proc := by
  cases a with
  | manifest => exact modify_own hcard hin r _
  | define channel d =>
    show Own publishers cx.publisher r.proc (r.onInstrumentDefinition rd row cx channel d).proc
    unfold Run.onInstrumentDefinition
    cases d.sourceId with
    | none => exact define_own_publisher hcard hin r channel d
    | some id => exact (define_own_publisher hcard hin r channel d).trans (revealIfNeeded_own _ _ _)
  | channelReset => exact (modify_own hcard hin r _).trans (forgetPublisher_own _ _)
  | price i sourceId make =>
    show Own publishers cx.publisher r.proc (r.onPrice rd row cx i sourceId make).proc
    unfold Run.onPrice
    split
    · exact .refl _
    · simp only
      split
      · exact revealIfNeeded_own r _ _
      · exact revealIfNeeded_own r _ _
  | skip => exact .refl _

variable (rd row) in
theorem acts_own (as : List (Action P)) (r : Run P) :
    Own publishers cx.publisher r.proc (as.foldl (Run.act rd row cx) r).proc := by
  induction as generalizing r with
  | nil => exact .refl _
  | cons a as ih => exact (act_own hcard hin r a).trans (ih _)

/-! ## One datagram -/

/-- With room for its publisher, a datagram evicts nobody. -/
theorem begin_of_roomy (hp : Roomy publishers p) (resetCount : Nat) : begin (P := P) cx resetCount p =
    if cx.role.handlesRefdata then Run.modify cx ⟨p, []⟩ fun s => s.onDatagram resetCount else ⟨p, []⟩ := by
  obtain ⟨hroomy, -⟩ := modify_own (P := P) hcard hin ⟨p, []⟩ (fun s => s.onDatagram resetCount) hp
  unfold begin
  generalize Run.modify (P := P) cx ⟨p, []⟩ (fun s => s.onDatagram resetCount) = r at hroomy
  have htaken : r.takeEvicted = (r, none) := by
    unfold Run.takeEvicted
    rw [hroomy.settled]
    refine Prod.ext ?_ rfl
    show ({ r with proc := { r.proc with state := { r.proc.state with lastEvicted := none } } } : Run P) = r
    rw [← hroomy.settled]
  rw [htaken]

theorem begin_own (resetCount : Nat) : Own publishers cx.publisher p (begin (P := P) cx resetCount p).proc := by
  intro hp
  rw [begin_of_roomy hcard hin hp]
  split
  · exact modify_own hcard hin ⟨p, []⟩ _ hp
  · exact ⟨hp, fun _ _ => .refl _ p⟩

theorem checkSeq_own (h : DatagramHeader) (r : Run P) : Own publishers cx.publisher r.proc (checkSeq cx h r).1.proc := by
  intro hp
  obtain ⟨htrackers, hbounded, -⟩ := PublisherSeq.check_of_room (room_of_subset hcard hp.trackers hin)
    h.channelId.toNat h.resetCount.toNat h.sequence cx.monoNs
  unfold checkSeq
  split
  · refine ⟨⟨hp.states, hp.settled, ?_⟩, fun other hne => ⟨rfl, ?_, hbounded, fun _ => rfl, fun _ => rfl⟩⟩
    · show (PublisherSeq.check _ _ _ _ _ _).1.trackers.keys ⊆ publishers
      rw [htrackers, FinMap.keys_insert]
      exact Finset.insert_subset hin hp.trackers
    · show (PublisherSeq.check _ _ _ _ _ _).1.trackers.get other = _
      rw [htrackers]
      exact FinMap.get_insert_of_ne _ _ hne
  · exact ⟨hp, fun _ _ => .refl _ _⟩

/-- The sequence of a publisher's datagram is judged by what is known of it. -/
theorem checkSeq_alike {r r' : Run P} (hp : Roomy publishers r.proc) (hp' : Roomy publishers r'.proc)
    (h : DatagramHeader) (hagree : Alike cx.publisher r r') :
    Alike cx.publisher (checkSeq cx h r).1 (checkSeq cx h r').1 ∧ (checkSeq cx h r).2 = (checkSeq cx h r').2 := by
  obtain ⟨htrackers, hbounded, hcheck⟩ := PublisherSeq.check_of_room (room_of_subset hcard hp.trackers hin)
    h.channelId.toNat h.resetCount.toNat h.sequence cx.monoNs
  obtain ⟨htrackers', hbounded', hcheck'⟩ := PublisherSeq.check_of_room (room_of_subset hcard hp'.trackers hin)
    h.channelId.toNat h.resetCount.toNat h.sequence cx.monoNs
  have htracker : r.proc.seq.trackerOf cx.publisher = r'.proc.seq.trackerOf cx.publisher := by
    unfold PublisherSeq.trackerOf
    rw [hagree.proc.tracker, hagree.proc.bounded]
  unfold checkSeq
  split
  · refine ⟨⟨⟨hagree.proc.state, ?_, ?_, hagree.proc.revealed, hagree.proc.channel⟩, hagree.out⟩, ?_⟩
    · show (PublisherSeq.check _ _ _ _ _ _).1.trackers.get _ = (PublisherSeq.check _ _ _ _ _ _).1.trackers.get _
      rw [htrackers, htrackers', htracker, FinMap.get_insert_self, FinMap.get_insert_self]
    · exact hbounded.trans (hagree.proc.bounded.trans hbounded'.symm)
    · show decide ((PublisherSeq.check _ _ _ _ _ _).2 ≠ _) = decide ((PublisherSeq.check _ _ _ _ _ _).2 ≠ _)
      rw [hcheck, hcheck', htracker]
  · exact ⟨hagree, rfl⟩

end Others

section Runs

variable {P M : Type} (rd : Render P P) (row : Row) (action : Ctx → DatagramHeader → Bool → M → Action P)
  {publishers : Finset IpAddr} {p p' : Announcer} {i : Input M}
  (hcard : publishers.card ≤ MAX_PUBLISHERS) (hin : i.cx.publisher ∈ publishers)

include hcard hin

theorem onDatagram_own : Own publishers i.cx.publisher p (onDatagram rd row action p i).proc := by
  have hstart := (begin_own (P := P) (p := p) hcard hin i.header.resetCount.toNat).trans (checkSeq_own hcard hin i.header _)
  unfold onDatagram
  generalize checkSeq (P := P) i.cx i.header (begin i.cx i.header.resetCount.toNat p) = start at hstart
  have hacts := acts_own rd row hcard hin (i.messages.map (action i.cx i.header start.2)) start.1
  rw [List.foldl_map] at hacts
  exact hstart.trans hacts

/-- **A datagram of the publisher is answered alike** by processors that know the same of it. -/
theorem onDatagram_alike (hp : Roomy publishers p) (hp' : Roomy publishers p') (hagree : Agree i.cx.publisher p p') :
    Alike i.cx.publisher (onDatagram rd row action p i) (onDatagram rd row action p' i) := by
  have hbegin : Alike (P := P) i.cx.publisher (begin i.cx i.header.resetCount.toNat p)
      (begin i.cx i.header.resetCount.toNat p') := by
    have hnew : Alike i.cx.publisher (⟨p, []⟩ : Run P) ⟨p', []⟩ := ⟨hagree, rfl⟩
    rw [begin_of_roomy hcard hin hp, begin_of_roomy hcard hin hp']
    split
    · exact hnew.modify _
    · exact hnew
  obtain ⟨hstart, hfresh⟩ := checkSeq_alike hcard hin (begin_own hcard hin _ hp).1 (begin_own hcard hin _ hp').1 i.header hbegin
  unfold onDatagram
  simp only
  rw [hfresh]
  have hacts := hstart.acts rd row (i.messages.map (action i.cx i.header
    (checkSeq (P := P) i.cx i.header (begin i.cx i.header.resetCount.toNat p')).2))
  rw [List.foldl_map, List.foldl_map] at hacts
  exact hacts

end Runs

/-! ## Whole runs -/

section Isolation

variable {P M : Type}

/-- What a publisher's datagrams are answered with in a run, and alone. -/
def Isolated (m : Machine Announcer (Input M) (List (Out P))) : Prop :=
  ∀ (is : List (Input M)) (publisher : IpAddr), (is.map fun i => i.cx.publisher).toFinset.card ≤ MAX_PUBLISHERS →
    (m.trace .new is).filter (fun e => e.1.cx.publisher = publisher) =
      m.trace .new (is.filter fun i => i.cx.publisher = publisher)

variable (rd : Render P P) (row : Row) (action : Ctx → DatagramHeader → Bool → M → Action P)

/-- A run, and the run of one publisher's datagrams in it from a processor that knows the same of that one. -/
theorem trace_alike {publishers : Finset IpAddr} (hcard : publishers.card ≤ MAX_PUBLISHERS) (publisher : IpAddr) :
    ∀ (is : List (Input M)) (p p' : Announcer), (∀ i ∈ is, i.cx.publisher ∈ publishers) → Roomy publishers p →
      Roomy publishers p' → Agree publisher p p' →
        ((announcer rd row action).trace p is).filter (fun e => e.1.cx.publisher = publisher) =
          (announcer rd row action).trace p' (is.filter fun i => i.cx.publisher = publisher)
  | [], _, _, _, _, _, _ => rfl
  | i :: is, p, p', hall, hp, hp', hagree => by
    have hin := hall i List.mem_cons_self
    have hrest : ∀ j ∈ is, j.cx.publisher ∈ publishers := fun j hj => hall j (List.mem_cons_of_mem _ hj)
    obtain ⟨hroomy, hothers⟩ := onDatagram_own rd row action hcard hin hp
    rw [Machine.trace_cons]
    by_cases hown : i.cx.publisher = publisher
    · have halike := onDatagram_alike rd row action hcard hin hp hp' (hown ▸ hagree)
      obtain ⟨hroomy', -⟩ := onDatagram_own rd row action hcard hin hp'
      have ih := trace_alike hcard publisher is _ _ hrest hroomy hroomy' (hown ▸ halike.proc)
      rw [List.filter_cons_of_pos (by simpa using hown), List.filter_cons_of_pos (by simpa using hown), Machine.trace_cons]
      exact congrArg₂ List.cons (Prod.ext rfl halike.out) ih
    · have ih := trace_alike hcard publisher is _ p' hrest hroomy hp' ((hothers publisher (Ne.symm hown)).trans hagree)
      rw [List.filter_cons_of_neg (by simpa using hown), List.filter_cons_of_neg (by simpa using hown)]
      exact ih

theorem announcer_isolated : Isolated (announcer rd row action) := by
  intro is publisher hcard
  have hroomy : Roomy (is.map fun i => i.cx.publisher).toFinset .new := ⟨Finset.empty_subset _, rfl, Finset.empty_subset _⟩
  refine trace_alike rd row action hcard publisher is .new .new (fun i hi => ?_) hroomy hroomy (.refl _ _)
  exact List.mem_toFinset.mpr (List.mem_map_of_mem hi)

/-- **Publishers do not meet.**  In a run of either processor in which no more publishers send than it has room for, what
it hands on for the datagrams of one is what it would hand on if they were all there are. -/
theorem publishers_isolated : Isolated (Tob.machine rd row) ∧ Isolated (Midpoint.machine rd row) :=
  ⟨announcer_isolated rd row _, announcer_isolated rd row _⟩

end Isolation

end EdgeConnect.TobFeed
