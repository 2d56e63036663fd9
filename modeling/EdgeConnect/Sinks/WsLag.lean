import EdgeConnect.Lib.Broadcast
import EdgeConnect.Sinks.WsJoin

/-!
# Two bounded hops

The backbone feeds the serializer and the serializer feeds every client, each through a bounded broadcast.
A client that lags is owed a repair; a serializer that lags repairs nobody.

* `Sink`, `Act`, `sinkMachine` — the replay map, both hops and one client, from before it is accepted;
* `Regular` — what a run is asked for: no deadline elapses on the market, its scope changes by the client's
  own filters alone, and the backbone has room for what is sent;
* `lag_is_repaired` — a client with nothing left to read and no repair owed holds the replay entry's book;
* `losses_go_unrepaired` — a deadline release, a stamp that goes backwards and a lag of the serializer each
  leave a client with another book for good.
-/

set_option autoImplicit false

namespace EdgeConnect.Ws

open EventBook

/-! ## The sink -/

/-- A backbone message that is no book. -/
abbrev OtherMessage := { m : FeedMessage // m.batch = none }

/-- What each hop holds at most. -/
structure Capacity where
  backbone : Nat
  prepared : Nat

/-- The replay map, the serializer's receiver, and one client's, from its accept on. -/
structure Sink where
  books : BookSnapshot
  backbone : Receiver FeedMessage
  rx : Option (Receiver PreparedFrame)
  client : Option Client

inductive Act where
  | publish (b : NormalizedBook)
  | announce (m : OtherMessage)
  | serialize (now : Nat)
  | accept
  | connect (t : Moment)
  | subscribe (f : SubFilter) (t : Moment)
  | unsubscribe (f : SubFilter) (t : Moment)
  | repair (t : Moment)
  | sweep (t : Moment)
  | read (t : Moment)

namespace Sink

def start : Sink := ⟨∅, .fresh, none, none⟩

/-- A message is sent to the backbone. -/
def send (cap : Capacity) (s : Sink) (m : FeedMessage) : Sink :=
  { s with backbone := s.backbone.send cap.backbone m }

/-- The serializer reads the backbone; a frame nobody has subscribed to is not prepared. -/
def serialize (cap : Capacity) (s : Sink) (now : Nat) : Sink :=
  match s.backbone.recv with
  | (backbone, .message m) =>
    { s with backbone := backbone, rx := s.rx.map fun rx => rx.send cap.prepared (prepare m now) }
  | (backbone, _) => { s with backbone := backbone }

/-- The connection is accepted, and its receiver subscribed. -/
def accept (s : Sink) : Sink :=
  match s.rx with
  | none => { s with rx := some .fresh }
  | some _ => s

/-- The connect-time replay, once. -/
def connect (s : Sink) (t : Moment) : Sink × List Sent :=
  match s.rx, s.client with
  | some _, none =>
    let (c, out) := Client.connect s.books t
    ({ s with client := some c }, out)
  | _, _ => (s, [])

/-- The client takes a step of its own. -/
def turn (s : Sink) (act : Client → Client × List Sent) : Sink × List Sent :=
  match s.client with
  | none => (s, [])
  | some c =>
    let (c, out) := act c
    ({ s with client := some c }, out)

/-- The forward arm of `serve_client`. -/
def read (cfg : WsConfig) (s : Sink) (t : Moment) : Sink × List Sent :=
  match s.rx, s.client with
  | some rx, some c =>
    match rx.recv with
    | (_, .nothing) => (s, [])
    | (rx, .lagged) => ({ s with rx := some rx, client := some c.lagged }, [])
    | (rx, .message f) =>
      let (c, out) := c.forward cfg s.books f t
      ({ s with rx := some rx, client := some c }, out)
  | _, _ => (s, [])

def step (cap : Capacity) (cfg : WsConfig) (s : Sink) : Act → Sink × List Sent
  | .publish b => ({ s with books := publishBook s.books b }.send cap (.book b), [])
  | .announce m => (s.send cap m.1, [])
  | .serialize now => (s.serialize cap now, [])
  | .accept => (s.accept, [])
  | .connect t => s.connect t
  | .subscribe f t => s.turn fun c => c.subscribe cfg s.books f t
  | .unsubscribe f t => s.turn fun c => c.unsubscribe s.books f t
  | .repair t => s.turn fun c => c.repair cfg s.books t
  | .sweep t => s.turn fun c => c.sweep cfg s.books t
  | .read t => s.read cfg t

/-- The frames a client has still to read, those not serialized yet last. -/
def unread (s : Sink) : List PreparedFrame :=
  (s.rx.elim [] Receiver.buf) ++ s.backbone.buf.map (prepare · 0)

end Sink

def sinkMachine (cap : Capacity) (cfg : WsConfig) : Machine Sink Act (List Sent) := ⟨Sink.step cap cfg⟩

/-! ## What a run is asked for -/

/-- The serializer's receiver has room. -/
def Act.Room (cap : Capacity) (s : Sink) : Act → Prop
  | .publish _ | .announce _ => s.backbone.buf.length < cap.backbone
  | _ => True

/-- The scope of a market changes by the client's own filters alone: no batch moves its entry in or out of
scope, and a frame of it passes as long as the entry is in scope. -/
def Act.KeepsScope (key : BookKey) (s : Sink) : Act → Prop
  | .publish b => marketOf b = key → ∀ c r, s.client = some c → s.books.get key = some r →
    wanted c.subs key (r.apply b) = wanted c.subs key r
  | .read _ => ∀ c rx f buf r, s.client = some c → s.rx = some rx → rx.buf = f :: buf →
    f.bookMarket = some key → s.books.get key = some r → wanted c.subs key r = true → passes c.subs f = true
  | _ => True

/-- A replay iterates the whole map. -/
def Act.Iterates (s : Sink) : Act → Prop
  | .connect t | .subscribe _ t | .unsubscribe _ t | .repair t => ∀ k, s.books.contains k = true → k ∈ t.iter
  | _ => True

/-- Neither a withhold nor a watermark of the market is past its deadline when it is looked at. -/
def Act.OnTime (cfg : WsConfig) (key : BookKey) (s : Sink) : Act → Prop
  | .sweep t | .read t => ∀ c, s.client = some c →
    (∀ since, c.seen.awaiting.get key = some since → t.now - since < cfg.bootstrapReleaseDeadline) ∧
      ∀ w since, c.seen.watermarks.get key = some (w, since) → t.now - since < cfg.bootstrapReleaseDeadline
  | _ => True

structure Regular (cap : Capacity) (cfg : WsConfig) (key : BookKey) (s : Sink) (i : Act) : Prop where
  room : i.Room cap s
  scope : i.KeepsScope key s
  iterates : i.Iterates s
  onTime : i.OnTime cfg key s

/-! ## Frames that differ in when they were sent -/

/-- Two frames of one message. -/
structure Alike (f f' : PreparedFrame) : Prop where
  market : f.bookMarket = f'.bookMarket
  stamp : f.recvTsNs = f'.recvTsNs
  batch : f.payload.batch.map (fun b => (b.changes, b.last)) = f'.payload.batch.map fun b => (b.changes, b.last)

theorem Alike.refl (f : PreparedFrame) : Alike f f := ⟨rfl, rfl, rfl⟩

theorem alike_prepare (m : FeedMessage) (now now' : Nat) : Alike (prepare m now) (prepare m now') := by
  cases m with
  | book b =>
    refine ⟨rfl, rfl, ?_⟩
    simp only [prepare, bookFrame]
    split
    · rfl
    · rfl
  | orderBook b => exact ⟨rfl, rfl, rfl⟩
  | market kind venue sourceId symbol channel => exact ⟨rfl, rfl, rfl⟩
  | status venue sourceId => exact ⟨rfl, rfl, rfl⟩

variable {cap : Capacity} {cfg : WsConfig} {key : BookKey} {s : Sink} {u : EventBook} {newest : Nat}
  {q q' : List PreparedFrame} {entry : Option BookAccumulator} {seat : Seat}

theorem alike_refl : ∀ q : List PreparedFrame, List.Forall₂ Alike q q
  | [] => .nil
  | f :: q => .cons (.refl f) (alike_refl q)

theorem Alike.feedAll (h : List.Forall₂ Alike q q') : ∀ e : EventBook,
    e.feedAll (batches q) = e.feedAll (batches q') ∧ e.feedAllFree (batches q) = e.feedAllFree (batches q') := by
  induction h with
  | nil => exact fun e => ⟨rfl, rfl⟩
  | @cons f f' q q' hf _ ih =>
    intro e
    rw [batches_cons, batches_cons, feedAll_append, feedAll_append, feedAllFree_append, feedAllFree_append]
    have hbatch := hf.batch
    cases hb : f.payload.batch with
    | none =>
      rw [hb] at hbatch
      rw [Option.map_eq_none_iff.mp hbatch.symm]
      exact ih e
    | some b =>
      rw [hb] at hbatch
      obtain ⟨b', hb', heq⟩ := Option.map_eq_some_iff.mp hbatch.symm
      obtain ⟨hc, hl⟩ := Prod.mk.inj heq
      rw [hb']
      show (e.feed b.changes b.last).feedAll _ = (e.feed b'.changes b'.last).feedAll _ ∧
        (e.feedFree b.changes b.last).feedAllFree _ = (e.feedFree b'.changes b'.last).feedAllFree _
      rw [hc, hl]
      exact ⟨(ih _).1, (ih _).2⟩

theorem Alike.framesOf (h : List.Forall₂ Alike q q') (key : BookKey) :
    List.Forall₂ Alike (framesOf key q) (framesOf key q') := by
  induction h with
  | nil => exact .nil
  | @cons f f' q q' hf _ ih =>
    unfold Ws.framesOf at ih ⊢
    rw [List.filter_cons, List.filter_cons, ← hf.market]
    split
    · exact .cons hf ih
    · exact ih

theorem Alike.live (h : List.Forall₂ Alike q q') (seat : Seat) :
    List.Forall₂ Alike (seat.live q) (seat.live q') := by
  unfold Seat.live
  split
  · exact h
  · induction h with
    | nil => exact .nil
    | @cons f f' q q' hf hq ih =>
      rw [List.dropWhile_cons, List.dropWhile_cons, ← hf.stamp]
      split
      · exact ih
      · exact .cons hf hq

theorem Backlog.alike (h : Backlog entry q newest) (hq : List.Forall₂ Alike q q') : Backlog entry q' newest := by
  refine ⟨fun he => ?_, h.valid, fun r hr => ?_, h.stamped⟩
  · have hnil := h.absent he
    subst hnil
    cases hq
    rfl
  · obtain ⟨e₀, hcore⟩ := h.folded r hr
    exact ⟨e₀, hcore.trans (Alike.feedAll hq e₀).1⟩

theorem InStep.alike (h : InStep u entry q seat newest) (hq : List.Forall₂ Alike q q') :
    InStep u entry q' seat newest := by
  refine ⟨h.watermark, h.absent, fun r hr hs => ?_⟩
  rw [← (Alike.feedAll (Alike.live hq seat) u).2]
  exact h.tracks r hr hs

theorem Backlog.behead {f : PreparedFrame} (h : Backlog entry (framesOf key (f :: q)) newest) :
    Backlog entry (framesOf key q) newest := by
  unfold framesOf at h ⊢
  rw [List.filter_cons] at h
  split at h
  · exact h.read
  · exact h

/-! ## Clients out of step -/

/-- What is kept of a client that may be out of step: its watermark is no newer than the feed, and it holds
no open event of a market without an entry. -/
structure Bounded (u : EventBook) (entry : Option BookAccumulator) (seat : Seat) (newest : Nat) : Prop where
  watermark : ∀ w since, seat.watermark = some (w, since) → w ≤ newest
  absent : entry = none → u.pending = []

theorem Bounded.inStep_of_none (h : Bounded u none seat newest) : InStep u none q seat newest :=
  ⟨h.watermark, h.absent, nofun⟩

theorem bounded_bootstrapped {r : BookAccumulator} (h : Bounded u (some r) seat newest)
    (hr : r.wireTsNs ≤ newest) (v : EventBook) (now : Nat) :
    Bounded v (some r) (seat.bootstrapped r now) newest := by
  refine ⟨fun w since hw => ?_, nofun⟩
  unfold Seat.bootstrapped at hw
  simp only at hw
  split at hw
  · cases hw
    exact hr
  · exact h.watermark w since hw

variable {subs : List SubFilter} {deadline now wall : Nat}

theorem Bounded.replayed (h : Bounded u entry seat newest) (hback : Backlog entry q newest) :
    Bounded (u.feedAllFree (seat.replayed entry subs key now wall).2) entry
      (seat.replayed entry subs key now wall).1 newest := by
  unfold Seat.replayed
  cases he : entry with
  | none =>
    rw [he] at h
    exact h
  | some r =>
    rw [he] at h
    simp only
    split
    · exact ⟨h.watermark, nofun⟩
    · split
      · exact ⟨h.watermark, nofun⟩
      · exact bounded_bootstrapped h (hback.stamped r he).1 _ now

theorem Bounded.released (h : Bounded u entry seat newest) (hback : Backlog entry q newest) :
    Bounded (u.feedAllFree (seat.released entry subs key deadline now wall).2.1) entry
      (seat.released entry subs key deadline now wall).1 newest := by
  unfold Seat.released
  split
  · exact h
  · cases he : entry with
    | none =>
      rw [he] at h
      exact h
    | some r =>
      rw [he] at h
      simp only
      split
      · exact ⟨h.watermark, nofun⟩
      · split
        · exact ⟨h.watermark, nofun⟩
        · split
          · exact bounded_bootstrapped h (hback.stamped r he).1 _ now
          · exact ⟨h.watermark, nofun⟩

theorem admitted_watermark {f : PreparedFrame} (h : ∀ w since, seat.watermark = some (w, since) → w ≤ newest) :
    ∀ w since, (seat.admitted f deadline now).1.watermark = some (w, since) → w ≤ newest := by
  unfold Seat.admitted
  split
  · exact h
  · split
    · exact h
    · exact nofun

theorem Bounded.forwarded {f : PreparedFrame} (h : Bounded u entry seat newest)
    (hback : Backlog entry (f :: q) newest) (v : EventBook) :
    Bounded v entry (seat.forwarded entry subs key deadline now wall f).1 newest := by
  have hrel := (h.released hback : Bounded _ _ (seat.released entry subs key deadline now wall).1 _).watermark
  refine ⟨?_, fun he => ?_⟩
  · unfold Seat.forwarded
    generalize seat.released entry subs key deadline now wall = r at hrel ⊢
    obtain ⟨seat', out, held⟩ := r
    cases held with
    | true => exact hrel
    | false =>
      have hadm : ∀ w since, (seat'.admitted f deadline now).1.watermark = some (w, since) → w ≤ newest :=
        admitted_watermark hrel
      simp only
      generalize seat'.admitted f deadline now = r at hadm ⊢
      obtain ⟨seat'', go⟩ := r
      cases go with
      | true => exact hadm
      | false => exact hadm
  · cases hback.absent he

/-! ## Every step of the client -/

/-- What is kept of a connected client: in step with every market in its scope, unless a loss is still to be
told or repaired. -/
structure Served (key : BookKey) (books : BookSnapshot) (q : List PreparedFrame) (missed : Bool) (u : EventBook)
    (c : Client) (newest : Nat) : Prop where
  bounded : Bounded u (books.get key) (c.seen.seat key) newest
  inStep : ∀ r, books.get key = some r → wanted c.subs key r = true → missed = false →
    c.lagRepairDue = false → InStep u (some r) q (c.seen.seat key) newest

section Client

variable {c : Client} {t : Moment} {books : BookSnapshot} {missed : Bool}

/-- A replay puts in step what its filters select, and leaves in step what was. -/
theorem replay_served (c : Client) (hb : Bounded u (books.get key) (c.seen.seat key) newest)
    (hback : Backlog (books.get key) q newest) (hiter : ∀ k, books.contains k = true → k ∈ t.iter)
    (subs : List SubFilter)
    (hin : ∀ r, books.get key = some r → wanted c.subs key r = true → missed = false → c.lagRepairDue = false →
      wanted subs key r = true ∨ InStep u (some r) q (c.seen.seat key) newest) :
    Served key books q missed (u.feedAllFree (heard key (c.replay books subs t).2)) (c.replay books subs t).1
      newest := by
  have hseat : ((c.replay books subs t).1.seen.seat key, heard key (c.replay books subs t).2) = _ :=
    replay_seat hiter subs key
  rw [Prod.ext_iff] at hseat
  simp only at hseat
  refine ⟨?_, fun r hr hwanted hmissed hdue => ?_⟩
  · rw [hseat.1, hseat.2]
    exact hb.replayed hback
  · rw [hseat.1, hseat.2, hr]
    rw [hr] at hback hb
    rcases hin r hr hwanted hmissed hdue with hselected | hs
    · refine inStep_replayed hback hb.watermark hb.absent (fun r' hr' => ?_) t.now t.wall
      cases hr'
      exact hselected
    · exact hs.replayed hback subs key t.now t.wall

theorem wanted_append {subs : List SubFilter} {f : SubFilter} {r : BookAccumulator}
    (h : wanted (subs ++ [f]) key r = true) : wanted [f] key r = true ∨ wanted subs key r = true := by
  unfold wanted at h ⊢
  have hcons : (subs ++ [f]).isEmpty = false := by
    rw [← Bool.not_eq_true, List.isEmpty_iff]
    exact List.append_ne_nil_of_right_ne_nil _ (List.cons_ne_nil f [])
  rw [hcons, Bool.false_or, List.any_append, Bool.or_eq_true] at h
  rcases h with h | h
  · exact Or.inr (Bool.or_eq_true_iff.mpr (Or.inr h))
  · exact Or.inl (Bool.or_eq_true_iff.mpr (Or.inr h))

theorem Served.subscribe (hs : Served key books q missed u c newest) (hback : Backlog (books.get key) q newest)
    (hiter : ∀ k, books.contains k = true → k ∈ t.iter) (f : SubFilter) :
    Served key books q missed (u.feedAllFree (heard key (c.subscribe cfg books f t).2))
      (c.subscribe cfg books f t).1 newest := by
  unfold Client.subscribe
  split
  · exact hs
  · split
    · exact hs
    · refine replay_served { c with subs := c.subs ++ [f] } hs.bounded hback hiter [f] fun r hr hwanted hmissed hdue => ?_
      rcases wanted_append hwanted with hnew | hold
      · exact Or.inl hnew
      · exact Or.inr (hs.inStep r hr hold hmissed hdue)

theorem Served.unsubscribe (hs : Served key books q missed u c newest)
    (hback : Backlog (books.get key) q newest) (hiter : ∀ k, books.contains k = true → k ∈ t.iter)
    (f : SubFilter) :
    Served key books q missed (u.feedAllFree (heard key (c.unsubscribe books f t).2))
      (c.unsubscribe books f t).1 newest := by
  unfold Client.unsubscribe
  simp only
  split
  · exact replay_served { c with subs := c.subs.filter fun x => x ≠ f } hs.bounded hback hiter _
      fun r hr hwanted _ _ => Or.inl hwanted
  · exact hs

theorem Served.repair (hs : Served key books q missed u c newest) (hback : Backlog (books.get key) q newest)
    (hiter : ∀ k, books.contains k = true → k ∈ t.iter) :
    Served key books q missed (u.feedAllFree (heard key (c.repair cfg books t).2)) (c.repair cfg books t).1
      newest := by
  have hreplay : Served key books q missed
      (u.feedAllFree (heard key ({ c with lagRepairDue := false }.replay books c.subs t).2))
      ({ c with lagRepairDue := false }.replay books c.subs t).1 newest :=
    replay_served { c with lagRepairDue := false } hs.bounded hback hiter c.subs fun r hr hwanted _ _ =>
      Or.inl hwanted
  unfold Client.repair
  split
  · exact ⟨hreplay.bounded, hreplay.inStep⟩
  · exact hs

theorem Served.sweep (hs : Served key books q missed u c newest) (hback : Backlog (books.get key) q newest)
    (htime : ∀ since, c.seen.awaiting.get key = some since → t.now - since < cfg.bootstrapReleaseDeadline) :
    Served key books q missed (u.feedAllFree (heard key (c.sweep cfg books t).2)) (c.sweep cfg books t).1
      newest := by
  refine ⟨?_, fun r hr hwanted hmissed hdue => ?_⟩
  · show Bounded (u.feedAllFree (heard key (c.seen.sweep books c.subs cfg.bootstrapReleaseDeadline t.now t.wall
      t.iter).2)) _ ((c.seen.sweep books c.subs cfg.bootstrapReleaseDeadline t.now t.wall t.iter).1.seat key) _
    by_cases hmem : key ∈ t.iter
    · obtain ⟨hseat, hout⟩ := sweep_mem books c.subs cfg.bootstrapReleaseDeadline t.now t.wall t.iter c.seen
        t.nodup hmem
      rw [hseat, hout]
      exact hs.bounded.released hback
    · obtain ⟨hseat, hout⟩ := sweep_notMem books c.subs cfg.bootstrapReleaseDeadline t.now t.wall t.iter c.seen
        hmem
      rw [hseat, hout]
      exact hs.bounded
  · have hold : InStep u (books.get key) q (c.seen.seat key) newest :=
      hr ▸ hs.inStep r hr hwanted hmissed hdue
    rw [← hr]
    refine hold.sweep hback (fun r' hr' => ?_) htime
    rw [Option.some.inj (hr'.symm.trans hr)]
    exact hwanted

/-- A market in scope is one a repair reaches. -/
theorem lagRepairReaches_of_wanted {subs : List SubFilter} {r : BookAccumulator}
    (h : wanted subs key r = true) : lagRepairReaches subs = true := by
  unfold wanted at h
  unfold lagRepairReaches
  simp only [Bool.or_eq_true, List.any_eq_true] at h ⊢
  rcases h with h | ⟨f, hf, hmatch⟩
  · exact Or.inl h
  · refine Or.inr ⟨f, hf, ?_⟩
    have hkind : f.admitsKind (bookKind r) = true := by
      unfold SubFilter.matchesMessage at hmatch
      simp only [Bool.and_eq_true] at hmatch
      exact hmatch.1.1.2
    unfold bookKind at hkind
    split at hkind
    · exact Or.inr hkind
    · exact Or.inl hkind

/-- A client told of a loss is owed a repair. -/
theorem Served.lagged (hs : Served key books q missed u c newest) : Served key books q false u c.lagged newest := by
  unfold Client.lagged
  split
  · exact ⟨hs.bounded, nofun⟩
  · rename_i hreach
    exact ⟨hs.bounded, fun r _ hwanted _ _ => absurd (lagRepairReaches_of_wanted hwanted) hreach⟩

theorem Served.forward {f : PreparedFrame} {rest : List PreparedFrame}
    (hs : Served key books (framesOf key (f :: rest)) missed u c newest)
    (hback : Backlog (books.get key) (framesOf key (f :: rest)) newest)
    (hpass : ∀ r, f.bookMarket = some key → books.get key = some r → wanted c.subs key r = true →
      passes c.subs f = true)
    (htime : (∀ since, c.seen.awaiting.get key = some since → t.now - since < cfg.bootstrapReleaseDeadline) ∧
      ∀ w since, c.seen.watermarks.get key = some (w, since) → t.now - since < cfg.bootstrapReleaseDeadline) :
    Served key books (framesOf key rest) missed (u.feedAllFree (heard key (c.forward cfg books f t).2))
      (c.forward cfg books f t).1 newest := by
  show Served key books _ missed (u.feedAllFree (heard key (c.seen.forward books c.subs
    cfg.bootstrapReleaseDeadline t.now t.wall f).2)) { c with seen := (c.seen.forward books c.subs
      cfg.bootstrapReleaseDeadline t.now t.wall f).1 } newest
  by_cases hf : f.bookMarket = some key
  · have hframes : framesOf key (f :: rest) = f :: framesOf key rest :=
      List.filter_cons_of_pos (decide_eq_true hf)
    have hseat := forward_self books c.subs cfg.bootstrapReleaseDeadline t.now t.wall c.seen hf
    rw [Prod.ext_iff] at hseat
    simp only at hseat
    rw [hframes] at hs hback
    refine ⟨?_, fun r hr hwanted hmissed hdue => ?_⟩
    · simp only [hseat.1]
      exact hs.bounded.forwarded hback _
    · have hold := hs.inStep r hr hwanted hmissed hdue
      simp only [hseat.1, hseat.2]
      rw [hr] at hback ⊢
      refine hold.forwarded hback (fun r' hr' => ?_) (hpass r hf hr hwanted) htime.1 htime.2 t.wall
      cases hr'
      exact hwanted
  · have hframes : framesOf key (f :: rest) = framesOf key rest :=
      List.filter_cons_of_neg (by simpa using hf)
    obtain ⟨hseat, hout⟩ := forward_ne books c.subs cfg.bootstrapReleaseDeadline t.now t.wall c.seen hf
    rw [hframes] at hs
    rw [hout]
    refine ⟨?_, fun r hr hwanted hmissed hdue => ?_⟩
    · simp only [hseat]
      exact hs.bounded
    · simp only [hseat]
      exact hs.inStep r hr hwanted hmissed hdue

end Client

/-! ## Every step -/

/-- What every regular step keeps, for a client that was written `u`. -/
structure Supplied (key : BookKey) (s : Sink) (u : EventBook) (newest : Nat) : Prop where
  backlog : Backlog (s.books.get key) (framesOf key s.unread) newest
  kept : ∀ rx, s.rx = some rx → rx.Kept
  early : s.client = none → u.pending = []
  served : ∀ c, s.client = some c →
    ∃ rx, s.rx = some rx ∧ Served key s.books (framesOf key s.unread) rx.missed u c newest

theorem unread_send {m : FeedMessage} (hroom : s.backbone.buf.length < cap.backbone) :
    (s.send cap m).unread = s.unread ++ [prepare m 0] := by
  unfold Sink.unread Sink.send
  rw [Receiver.send_of_lt hroom]
  simp only [List.map_append, List.map_cons, List.map_nil, List.append_assoc]

theorem framesOf_single_ne {f : PreparedFrame} (hf : f.bookMarket ≠ some key) : framesOf key [f] = [] :=
  List.filter_eq_nil_iff.mpr fun g hg => by
    rw [List.mem_singleton.mp hg]
    simpa using hf

/-- A message that is not about the market changes nothing of it. -/
theorem Supplied.send (h : Supplied key s u newest) {books : BookSnapshot}
    (hbooks : books.get key = s.books.get key) {m : FeedMessage} (hm : (prepare m 0).bookMarket ≠ some key)
    (hroom : s.backbone.buf.length < cap.backbone) :
    Supplied key ({ s with books := books }.send cap m) u newest := by
  have hframes : framesOf key ({ s with books := books }.send cap m).unread = framesOf key s.unread := by
    rw [unread_send (s := { s with books := books }) hroom, framesOf_append, framesOf_single_ne hm,
      List.append_nil]
    rfl
  refine ⟨?_, h.kept, h.early, fun c hc => ?_⟩
  · show Backlog (books.get key) _ _
    rw [hframes, hbooks]
    exact h.backlog
  · obtain ⟨rx, hrx, hs⟩ := h.served c hc
    refine ⟨rx, hrx, ?_⟩
    show Served key books _ _ _ _ _
    rw [hframes]
    refine ⟨?_, fun r hr => ?_⟩
    · rw [hbooks]
      exact hs.bounded
    · rw [hbooks] at hr
      exact hs.inStep r hr

theorem announce_market (m : OtherMessage) : (prepare m.1 0).bookMarket = none := by
  obtain ⟨m, hm⟩ := m
  cases m with
  | book b => cases hm
  | orderBook b => cases hm
  | market kind venue sourceId symbol channel => rfl
  | status venue sourceId => rfl

theorem Supplied.publish (h : Supplied key s u newest) {b : NormalizedBook} (hkey : marketOf b = key)
    (hnew : newest ≤ b.recvTsNs) (hr : Regular cap cfg key s (.publish b)) :
    Supplied key (s.step cap cfg (.publish b)).1 u b.recvTsNs := by
  have hentry : (publishBook s.books b).get key = some (((s.books.get key).getD (.new b.symbol)).apply b) := by
    unfold publishBook
    rw [hkey, FinMap.get_insert_self]
  have hframes : framesOf key (s.step cap cfg (.publish b)).1.unread =
      framesOf key s.unread ++ [prepare (.book b) 0] := by
    show framesOf key ({ s with books := publishBook s.books b }.send cap (.book b)).unread = _
    rw [unread_send (s := { s with books := publishBook s.books b }) hr.room, framesOf_append]
    refine congrArg _ (List.filter_eq_self.mpr fun f hf => ?_)
    rw [List.mem_singleton.mp hf]
    exact decide_eq_true (congrArg some hkey)
  have hcarries := carries_prepare b 0
  refine ⟨?_, h.kept, h.early, fun c hc => ?_⟩
  · rw [hframes]
    show Backlog ((publishBook s.books b).get key) _ _
    rw [hentry]
    exact h.backlog.publish hcarries hnew
  · obtain ⟨rx, hrx, hs⟩ := h.served c hc
    refine ⟨rx, hrx, ?_⟩
    rw [hframes]
    show Served key (publishBook s.books b) _ _ _ _ _
    refine ⟨⟨fun w since hw => (hs.bounded.watermark w since hw).trans hnew, ?_⟩, ?_⟩
    · rw [hentry]
      exact nofun
    · intro r hr' hwanted hmissed hdue
      rw [← hr', hentry]
      refine InStep.publish ?_ h.backlog hcarries hnew
      rw [hentry] at hr'
      cases he : s.books.get key with
      | none =>
        refine Bounded.inStep_of_none ?_
        rw [← he]
        exact hs.bounded
      | some r₀ =>
        rw [he] at hr'
        rw [← Option.some.inj hr'] at hwanted
        refine hs.inStep r₀ he ?_ hmissed hdue
        rw [← hr.scope hkey c r₀ hc he]
        exact hwanted

/-- A step of the client that leaves its receiver alone. -/
theorem Supplied.turn (h : Supplied key s u newest) {act : Client → Client × List Sent}
    (hact : ∀ c missed, s.client = some c → Served key s.books (framesOf key s.unread) missed u c newest →
      Served key s.books (framesOf key s.unread) missed (u.feedAllFree (heard key (act c).2)) (act c).1 newest) :
    Supplied key (s.turn act).1 (u.feedAllFree (heard key (s.turn act).2)) newest := by
  unfold Sink.turn
  cases hc : s.client with
  | none => exact ⟨h.backlog, h.kept, fun _ => h.early hc, h.served⟩
  | some c =>
    obtain ⟨rx, hrx, hs⟩ := h.served c hc
    refine ⟨h.backlog, h.kept, nofun, fun c' hc' => ⟨rx, hrx, ?_⟩⟩
    cases hc'
    exact hact c rx.missed hc hs

theorem Supplied.connect (h : Supplied key s u newest) {t : Moment}
    (hiter : ∀ k, s.books.contains k = true → k ∈ t.iter) :
    Supplied key (s.connect t).1 (u.feedAllFree (heard key (s.connect t).2)) newest := by
  unfold Sink.connect
  split
  · rename_i rx hrx hc
    refine ⟨h.backlog, h.kept, nofun, fun c' hc' => ⟨rx, hrx, ?_⟩⟩
    cases hc'
    show Served key s.books (framesOf key s.unread) rx.missed
      (u.feedAllFree (heard key (Client.connect s.books t).2)) (Client.connect s.books t).1 newest
    unfold Client.connect
    refine replay_served _ ⟨fun w since hw => ?_, fun _ => h.early hc⟩ h.backlog hiter [] fun r _ _ _ _ =>
      Or.inl rfl
    cases hw
  · exact ⟨h.backlog, h.kept, h.early, h.served⟩

theorem Supplied.accept (h : Supplied key s u newest) : Supplied key s.accept u newest := by
  unfold Sink.accept
  split
  · rename_i hrx
    have hunread : Sink.unread { s with rx := some .fresh } = s.unread := by
      unfold Sink.unread
      rw [hrx]
      rfl
    refine ⟨?_, fun rx hrx' => ?_, h.early, fun c hc => ?_⟩
    · rw [hunread]
      exact h.backlog
    · cases hrx'
      exact Receiver.kept_fresh
    · obtain ⟨rx, hsome, -⟩ := h.served c hc
      rw [hrx] at hsome
      cases hsome
  · exact h

/-- The serializer hands a message on; the client's receiver may lose its oldest frame for it. -/
theorem Supplied.serialize (h : Supplied key s u newest) (now : Nat) :
    Supplied key (s.serialize cap now) u newest := by
  unfold Sink.serialize
  rcases s.backbone.recv_cases with ⟨-, hrecv⟩ | ⟨-, -, hrecv⟩ | ⟨m, rest, -, hbuf, hrecv⟩
  · rw [hrecv]
    exact ⟨h.backlog, h.kept, h.early, h.served⟩
  · rw [hrecv]
    exact ⟨h.backlog, h.kept, h.early, h.served⟩
  · rw [hrecv]
    simp only
    cases hrx : s.rx with
    | none =>
      -- nobody has subscribed: the message is gone, and its batch is in the entry
      have hunread : s.unread = prepare m 0 :: rest.map (prepare · 0) := by
        unfold Sink.unread
        rw [hrx, hbuf]
        rfl
      have hback := h.backlog
      rw [hunread] at hback
      refine ⟨hback.behead, nofun, h.early, fun c hc => ?_⟩
      obtain ⟨rx, hsome, -⟩ := h.served c hc
      rw [hrx] at hsome
      cases hsome
    | some rx =>
      have hunread : s.unread = rx.buf ++ prepare m 0 :: rest.map (prepare · 0) := by
        unfold Sink.unread
        rw [hrx, hbuf]
        rfl
      have hkept : (rx.send cap.prepared (prepare m now)).Kept := Receiver.kept_send _ _ _
      -- but for the time it was sent at, the prepared frame is the one that was to come
      have halike : ∀ buf : List PreparedFrame, List.Forall₂ Alike (buf ++ prepare m 0 :: rest.map (prepare · 0))
          (buf ++ [prepare m now] ++ rest.map (prepare · 0)) := by
        intro buf
        rw [List.append_assoc]
        exact List.rel_append (alike_refl buf) (.cons (alike_prepare m 0 now) (alike_refl _))
      have hback := h.backlog
      rw [hunread] at hback
      have hserved : ∀ c, s.client = some c →
          Served key s.books (framesOf key s.unread) rx.missed u c newest := by
        intro c hc
        obtain ⟨rx', hrx', hs⟩ := h.served c hc
        rw [Option.some.inj (hrx.symm.trans hrx')]
        exact hs
      show Supplied key ⟨s.books, ⟨rest, false⟩, some (rx.send cap.prepared (prepare m now)), s.client⟩ u newest
      rcases rx.send_cases cap.prepared (prepare m now) with hsend | hsend
      · rw [hsend] at hkept ⊢
        have hafter : Sink.unread ⟨s.books, ⟨rest, false⟩, some ⟨rx.buf ++ [prepare m now], rx.missed⟩,
            s.client⟩ = rx.buf ++ [prepare m now] ++ rest.map (prepare · 0) := rfl
        have hq := Alike.framesOf (halike rx.buf) key
        refine ⟨?_, fun rx' hrx' => ?_, h.early, fun c hc => ⟨_, rfl, ?_⟩⟩
        · rw [hafter]
          exact hback.alike hq
        · cases hrx'
          exact hkept
        · rw [hafter]
          have hs := hserved c hc
          rw [hunread] at hs
          exact ⟨hs.bounded, fun r hr hw hm hd => (hs.inStep r hr hw hm hd).alike hq⟩
      · rw [hsend] at hkept ⊢
        have hafter : Sink.unread ⟨s.books, ⟨rest, false⟩, some ⟨rx.buf.tail ++ [prepare m now], true⟩,
            s.client⟩ = rx.buf.tail ++ [prepare m now] ++ rest.map (prepare · 0) := rfl
        have hlost : Backlog (s.books.get key)
            (framesOf key (rx.buf.tail ++ prepare m 0 :: rest.map (prepare · 0))) newest := by
          cases hb : rx.buf with
          | nil =>
            rw [hb] at hback
            exact hback
          | cons f buf =>
            rw [hb] at hback
            exact hback.behead
        refine ⟨?_, fun rx' hrx' => ?_, h.early, fun c hc => ⟨_, rfl, ?_⟩⟩
        · rw [hafter]
          exact hlost.alike (Alike.framesOf (halike rx.buf.tail) key)
        · cases hrx'
          exact hkept
        · exact ⟨(hserved c hc).bounded, nofun⟩

theorem Supplied.read (h : Supplied key s u newest) {t : Moment} (hr : Regular cap cfg key s (.read t)) :
    Supplied key (s.read cfg t).1 (u.feedAllFree (heard key (s.read cfg t).2)) newest := by
  unfold Sink.read
  split
  · rename_i rx c hrx hc
    obtain ⟨rx', hrx', hs⟩ := h.served c hc
    obtain rfl : rx = rx' := Option.some.inj (hrx.symm.trans hrx')
    have hkept := (h.kept rx hrx).recv
    rcases rx.recv_cases with ⟨-, hrecv⟩ | ⟨-, -, hrecv⟩ | ⟨f, buf, hmissed, hbuf, hrecv⟩
    · rw [hrecv] at hkept ⊢
      have hafter : Sink.unread ⟨s.books, s.backbone, some ⟨rx.buf, false⟩, some c.lagged⟩ = s.unread := by
        unfold Sink.unread
        rw [hrx]
        rfl
      refine ⟨?_, fun rx' hrx' => ?_, nofun, fun c' hc' => ⟨_, rfl, ?_⟩⟩
      · show Backlog _ (framesOf key (Sink.unread ⟨s.books, _, some _, some _⟩)) _
        rw [hafter]
        exact h.backlog
      · cases hrx'
        exact hkept
      · cases hc'
        show Served key s.books (framesOf key (Sink.unread ⟨s.books, _, some _, some _⟩)) _ _ _ _
        rw [hafter]
        exact hs.lagged
    · rw [hrecv]
      exact ⟨h.backlog, h.kept, h.early, h.served⟩
    · rw [hrecv] at hkept ⊢
      have hunread : s.unread = f :: (buf ++ s.backbone.buf.map (prepare · 0)) := by
        unfold Sink.unread
        rw [hrx]
        exact congrArg (· ++ _) hbuf
      have hback := h.backlog
      rw [hunread] at hback hs
      refine ⟨hback.behead, fun rx' hrx' => ?_, nofun, fun c' hc' => ⟨_, rfl, ?_⟩⟩
      · cases hrx'
        exact hkept
      · cases hc'
        rw [hmissed] at hs
        exact hs.forward hback (fun r hf hr' hw => hr.scope c rx f buf r hc hrx hbuf hf hr' hw) (hr.onTime c hc)
  · exact ⟨h.backlog, h.kept, h.early, h.served⟩

/-- **Every regular step keeps it.** -/
theorem Supplied.acts (h : Supplied key s u newest) {i : Act} (hi : ∀ b, i = .publish b → marketOf b ≠ key)
    (hr : Regular cap cfg key s i) :
    Supplied key (s.step cap cfg i).1 (u.feedAllFree (heard key (s.step cap cfg i).2)) newest := by
  have hback := h.backlog
  cases i with
  | publish b =>
    have hne := hi b rfl
    refine h.send ?_ ?_ hr.room
    · exact FinMap.get_insert_of_ne _ _ (Ne.symm hne)
    · exact fun heq => hne (Option.some.inj heq)
  | announce m =>
    refine h.send rfl ?_ hr.room
    rw [announce_market m]
    exact nofun
  | serialize now => exact h.serialize now
  | accept => exact h.accept
  | connect t => exact h.connect hr.iterates
  | subscribe f t => exact h.turn fun c _ _ hs => hs.subscribe hback hr.iterates f
  | unsubscribe f t => exact h.turn fun c _ _ hs => hs.unsubscribe hback hr.iterates f
  | repair t => exact h.turn fun c _ _ hs => hs.repair hback hr.iterates
  | sweep t => exact h.turn fun c _ hc hs => hs.sweep hback (hr.onTime c hc).1
  | read t => exact h.read hr

/-! ## Every run -/

/-- The batches a run published. -/
def batchesOf (acts : List Act) : List NormalizedBook :=
  acts.filterMap fun
    | .publish b => some b
    | _ => none

/-- What one market's reader was written over a run. -/
def received (key : BookKey) (t : List (Act × List Sent)) : List NormalizedBook :=
  t.flatMap fun e => heard key e.2

theorem received_append (t t' : List (Act × List Sent)) :
    received key (t ++ t') = received key t ++ received key t' := List.flatMap_append

theorem received_cons (e : Act × List Sent) (t : List (Act × List Sent)) :
    received key (e :: t) = heard key e.2 ++ received key t := List.flatMap_cons

theorem supplied_run (symbol : String) (acts : List Act)
    (hmono : (stampsOf key (batchesOf acts)).Pairwise (· ≤ ·))
    (hrun : (sinkMachine cap cfg).Along (Regular cap cfg key) .start acts) :
    Supplied key ((sinkMachine cap cfg).exec .start acts)
      ((BookAccumulator.new symbol).core.feedAllFree (received key ((sinkMachine cap cfg).trace .start acts)))
      (newestOf key (batchesOf acts)) := by
  induction acts using List.reverseRecOn with
  | nil => exact ⟨⟨fun _ => rfl, nofun, nofun, nofun⟩, nofun, fun _ => rfl, nofun⟩
  | append_singleton acts i ih =>
    have hbatches : batchesOf (acts ++ [i]) = batchesOf acts ++ batchesOf [i] := List.filterMap_append
    rw [hbatches] at hmono ⊢
    rw [Machine.along_append] at hrun
    have hs := ih (stampsOf_take hmono) hrun.1
    have hreceived : received key ((sinkMachine cap cfg).trace .start (acts ++ [i])) =
        received key ((sinkMachine cap cfg).trace .start acts) ++
          heard key (((sinkMachine cap cfg).exec .start acts).step cap cfg i).2 := by
      rw [Machine.trace_append, received_append, Machine.trace_cons, received_cons]
      exact congrArg _ (List.append_nil _)
    rw [Machine.exec_append, hreceived, feedAllFree_append]
    generalize (sinkMachine cap cfg).exec .start acts = s at hs hrun ⊢
    generalize (BookAccumulator.new symbol).core.feedAllFree _ = u at hs ⊢
    show Supplied key (s.step cap cfg i).1 _ _
    by_cases hkey : ∃ b, i = .publish b ∧ marketOf b = key
    · obtain ⟨b, rfl, hk⟩ := hkey
      have hlast : batchesOf [.publish b] = [b] := rfl
      rw [hlast] at hmono ⊢
      rw [newestOf_snoc, if_pos hk]
      exact hs.publish hk (newestOf_le hk hmono) hrun.2.1
    · have hother : ∀ b, i = .publish b → marketOf b ≠ key := fun b hb hk => hkey ⟨b, hb, hk⟩
      have hnewest : newestOf key (batchesOf acts ++ batchesOf [i]) = newestOf key (batchesOf acts) := by
        cases i with
        | publish b =>
          have hlast : batchesOf [.publish b] = [b] := rfl
          rw [hlast, newestOf_snoc, if_neg (hother b rfl)]
        | _ => rw [show batchesOf [_] = [] from rfl, List.append_nil]
      rw [hnewest]
      exact hs.acts hother hrun.2.1

/-- **No batch a client lost goes unrepaired.**  A client with nothing left to read on either hop and no
repair owed holds the book of every complete market in its scope that is not withheld. -/
theorem lag_is_repaired (cap : Capacity) (cfg : WsConfig) (key : BookKey) (acts : List Act)
    (hmono : (stampsOf key (batchesOf acts)).Pairwise (· ≤ ·))
    (hrun : (sinkMachine cap cfg).Along (Regular cap cfg key) .start acts) (symbol : String) :
    ∀ c rx r, ((sinkMachine cap cfg).exec .start acts).client = some c →
      ((sinkMachine cap cfg).exec .start acts).rx = some rx → rx.buf = [] →
      ((sinkMachine cap cfg).exec .start acts).backbone.buf = [] → c.lagRepairDue = false →
      ((sinkMachine cap cfg).exec .start acts).books.get key = some r → r.baselined = true →
      wanted c.subs key r = true → c.seen.awaiting.get key = none →
      (BookAccumulator.new symbol).core.FitsAll (received key ((sinkMachine cap cfg).trace .start acts)) →
      ((received key ((sinkMachine cap cfg).trace .start acts)).foldl BookAccumulator.apply
        (.new symbol)).sameState r = true := by
  intro c rx r hc hrx hbuf hbackbone hdue hr hbase hwanted hlive hfits
  have hs := supplied_run symbol acts hmono hrun
  obtain ⟨rx', hrx', hserved⟩ := hs.served c hc
  obtain rfl : rx = rx' := Option.some.inj (hrx.symm.trans hrx')
  have hmissed : rx.missed = false := by
    rw [← Bool.not_eq_true]
    exact fun hm => hs.kept rx hrx hm hbuf
  have hunread : ((sinkMachine cap cfg).exec .start acts).unread = [] := by
    unfold Sink.unread
    rw [hrx, hbackbone]
    exact (List.append_nil _).trans hbuf
  have htracks := (hserved.inStep r hr hwanted hmissed hdue).tracks r rfl hlive
  have hnone : (c.seen.seat key).live (framesOf key ((sinkMachine cap cfg).exec .start acts).unread) = [] := by
    rw [hunread]
    unfold Seat.live
    split
    · rfl
    · rfl
  rw [hnone, ← hfits.feedAll, ← core_applyAll] at htracks
  rw [BookAccumulator.sameState_iff]
  exact (htracks.rests hbase).symm

/-! ## Losses that go unrepaired -/

theorem regular_unfiltered {i : Act} (hsubs : ∀ c, s.client = some c → c.subs = []) (hroom : i.Room cap s)
    (hiter : i.Iterates s) (htime : i.OnTime cfg key s) : Regular cap cfg key s i := by
  refine ⟨hroom, ?_, hiter, htime⟩
  cases i with
  | publish b =>
    intro _ c r hc _
    unfold wanted
    rw [hsubs c hc]
    rfl
  | read t =>
    intro c rx f buf r hc _ _ _ _ _
    unfold passes
    rw [hsubs c hc]
    rfl
  | _ => trivial

/-- A batch is lost on the way to a client that is told of it and repaired. -/
def laggedActs : List Act :=
  [.accept, .connect instant, .publish (marketBatch false [BookAccumulator.clearBoth, unitChange .update 0] true 5),
    .publish (marketBatch false [unitChange .update 0] true 6), .serialize 0, .serialize 0, .read instant,
    .repair instant, .read instant]

theorem lag_is_repaired_laggedActs :
    ∃ c rx r, ((sinkMachine ⟨8, 1⟩ sampleConfig).exec .start laggedActs).client = some c ∧
      ((sinkMachine ⟨8, 1⟩ sampleConfig).exec .start laggedActs).rx = some rx ∧ rx.buf = [] ∧
      ((sinkMachine ⟨8, 1⟩ sampleConfig).exec .start laggedActs).backbone.buf = [] ∧ c.lagRepairDue = false ∧
      ((sinkMachine ⟨8, 1⟩ sampleConfig).exec .start laggedActs).books.get sampleKey = some r ∧
      r.baselined = true ∧ c.seen.awaiting.get sampleKey = none ∧
      ((received sampleKey ((sinkMachine ⟨8, 1⟩ sampleConfig).trace .start laggedActs)).foldl
        BookAccumulator.apply (.new "S")).sameState r = true := by
  have hmono : (stampsOf sampleKey (batchesOf laggedActs)).Pairwise (· ≤ ·) := by
    have hstamps : stampsOf sampleKey (batchesOf laggedActs) = [5, 6] := rfl
    rw [hstamps]
    decide
  have hrun : (sinkMachine ⟨8, 1⟩ sampleConfig).Along (Regular ⟨8, 1⟩ sampleConfig sampleKey) .start
      laggedActs := by
    refine ⟨regular_unfiltered nofun trivial trivial trivial, regular_unfiltered nofun trivial nofun trivial,
      regular_unfiltered ?_ ?_ trivial trivial, regular_unfiltered ?_ ?_ trivial trivial,
      regular_unfiltered ?_ trivial trivial trivial, regular_unfiltered ?_ trivial trivial trivial,
      regular_unfiltered ?_ trivial trivial ?_, regular_unfiltered ?_ trivial ?_ trivial,
      regular_unfiltered ?_ trivial trivial ?_, trivial⟩
    · rintro c ⟨⟩
      rfl
    · show 0 < 8
      decide
    · rintro c ⟨⟩
      rfl
    · show 1 < 8
      decide
    · rintro c ⟨⟩
      rfl
    · rintro c ⟨⟩
      rfl
    · rintro c ⟨⟩
      rfl
    · rintro c ⟨⟩
      exact ⟨nofun, nofun⟩
    · rintro c ⟨⟩
      rfl
    · intro k hk
      obtain ⟨b, hb, rfl⟩ := (contains_publish [_, _] ∅ hk).resolve_left Bool.false_ne_true
      rw [List.mem_cons, List.mem_singleton] at hb
      rcases hb with rfl | rfl
      · exact List.mem_singleton_self _
      · exact List.mem_singleton_self _
    · rintro c ⟨⟩
      rfl
    · rintro c ⟨⟩
      refine ⟨nofun, ?_⟩
      rintro w since ⟨⟩
      decide
  have hlaw := lag_is_repaired ⟨8, 1⟩ sampleConfig sampleKey laggedActs hmono hrun "S"
  have hfits : (BookAccumulator.new "S").core.FitsAll
      (received sampleKey ((sinkMachine ⟨8, 1⟩ sampleConfig).trace .start laggedActs)) := by
    refine fitsAll_of_prices rfl rfl fun b hb => ?_
    have hreceived : received sampleKey ((sinkMachine ⟨8, 1⟩ sampleConfig).trace .start laggedActs) =
        [(((BookAccumulator.new "S").apply (marketBatch false [BookAccumulator.clearBoth, unitChange .update 0]
          true 5)).apply (marketBatch false [unitChange .update 0] true 6)).toBookScoped sampleKey .levels 0,
          marketBatch false [unitChange .update 0] true 6] := rfl
    rw [hreceived, List.mem_cons, List.mem_singleton] at hb
    rcases hb with rfl | rfl
    · simp [BookAccumulator.toBookScoped, BookChange.ofOrder, BookAccumulator.clearBoth]
    · rfl
  exact ⟨_, _, _, rfl, rfl, rfl, rfl, rfl, rfl, rfl, rfl, hlaw _ _ _ rfl rfl rfl rfl rfl rfl rfl rfl rfl hfits⟩

/-- A client with nothing left to read and no repair owed, not withheld from a complete market in its scope,
holds another book. -/
def Diverges (cap : Capacity) (key : BookKey) (acts : List Act) : Prop :=
  ∃ c rx r, ((sinkMachine cap sampleConfig).exec .start acts).client = some c ∧
    ((sinkMachine cap sampleConfig).exec .start acts).rx = some rx ∧ rx.buf = [] ∧
    ((sinkMachine cap sampleConfig).exec .start acts).backbone.buf = [] ∧ c.lagRepairDue = false ∧
    ((sinkMachine cap sampleConfig).exec .start acts).books.get key = some r ∧ r.baselined = true ∧
    wanted c.subs key r = true ∧ c.seen.awaiting.get key = none ∧
    ((received key ((sinkMachine cap sampleConfig).trace .start acts)).foldl BookAccumulator.apply
      (.new "S")).sameState r = false

def unitAsk : BookChange := ⟨.update, .ask, one, one, 0⟩

/-- The market is withheld in the middle of an event, and released from it at the deadline. -/
def overdueActs : List Act :=
  [.publish (marketBatch false [BookAccumulator.clearBoth] true 5),
    .publish (marketBatch false [unitChange .update 0] false 6), .serialize 0, .serialize 0, .accept,
    .connect instant, .sweep { instant with now := 1 }, .publish (marketBatch false [unitAsk] true 7),
    .serialize 0, .read { instant with now := 1 }]

/-- A batch is older than a bootstrap that does not hold it. -/
def backwardActs : List Act :=
  [.publish (marketBatch false [BookAccumulator.clearBoth] true 5), .serialize 0, .accept, .connect instant,
    .publish (marketBatch false [unitAsk] true 4), .serialize 0, .read instant]

/-- The market takes the symbol the client asked for, one batch late. -/
def renamedActs : List Act :=
  [.publish (marketBatch false [BookAccumulator.clearBoth] true 5), .serialize 0, .accept, .connect instant,
    .subscribe ⟨none, none, none, none, some "T", none, none⟩ instant,
    .publish (marketBatch false [unitChange .update 0] true 6), .serialize 0, .read instant,
    .publish { marketBatch false [unitAsk] true 7 with symbol := "T" }, .serialize 0, .read instant]

/-- The serializer is told of a loss, and nobody repairs it. -/
def serializerActs : List Act :=
  [.accept, .connect instant, .publish (marketBatch false [BookAccumulator.clearBoth, unitChange .update 0] true 5),
    .publish (marketBatch false [unitAsk] true 6), .serialize 0, .serialize 0, .read instant]

theorem insert_ne_empty {K V : Type*} [DecidableEq K] (m : FinMap K V) (k : K) (v : V) : ∅ ≠ m.insert k v := by
  intro h
  have hget := congrArg (fun m : FinMap K V => m.get k) h
  simp only [FinMap.get_empty, FinMap.get_insert_self] at hget
  cases hget

theorem diverges_serializer : Diverges ⟨1, 8⟩ sampleKey serializerActs := by
  refine ⟨_, _, _, rfl, rfl, rfl, rfl, rfl, rfl, rfl, rfl, rfl, ?_⟩
  have hreceived : received sampleKey ((sinkMachine ⟨1, 8⟩ sampleConfig).trace .start serializerActs) =
      [marketBatch false [unitAsk] true 6] := rfl
  rw [hreceived, ← Bool.not_eq_true, BookAccumulator.sameState_iff]
  exact fun hsame => insert_ne_empty ∅ (fixedKey one) (one, one) (congrArg Resting.bids hsame)

/-- What a client holds that was bootstrapped with the book of some batches and fed others. -/
theorem reader_bootstrapped (bs msgs : List NormalizedBook) (key : BookKey) (wall : Nat) :
    let r := bs.foldl BookAccumulator.apply (.new "S")
    ((r.toBookScoped key (bookScope r) wall :: msgs).foldl BookAccumulator.apply (.new "S")).toResting =
      ((⟨r.toResting, [], true⟩ : EventBook).feedAll msgs).rests := by
  intro r
  obtain ⟨hv, ht⟩ : r.Valid ∧ r.Tagged := applyAll_valid bs ⟨.new "S", .new "S"⟩
  have hcore := core_applyAll (r.toBookScoped key (bookScope r) wall :: msgs) (.new "S")
  have hboot : (BookAccumulator.new "S").core.feed (r.toBookScoped key (bookScope r) wall).changes
      (r.toBookScoped key (bookScope r) wall).last = ⟨r.toResting, [], true⟩ := by
    rw [BookAccumulator.toBookScoped_changes ht, BookAccumulator.toBookScoped_last, EventBook.feed_toBook hv]
  refine (congrArg EventBook.rests hcore).trans ?_
  show (((BookAccumulator.new "S").core.feed _ _).feedAll msgs).rests = _
  rw [hboot]

theorem diverges_overdue : Diverges ⟨8, 8⟩ sampleKey overdueActs := by
  refine ⟨_, _, _, rfl, rfl, rfl, rfl, rfl, rfl, rfl, rfl, rfl, ?_⟩
  have hreader := reader_bootstrapped [marketBatch false [BookAccumulator.clearBoth] true 5,
    marketBatch false [unitChange .update 0] false 6] [marketBatch false [unitAsk] true 7] sampleKey 0
  rw [← Bool.not_eq_true, BookAccumulator.sameState_iff]
  exact fun hsame => insert_ne_empty ∅ (fixedKey one) (one, one) (congrArg Resting.bids (hreader.symm.trans hsame))

theorem diverges_backward : Diverges ⟨8, 8⟩ sampleKey backwardActs := by
  refine ⟨_, _, _, rfl, rfl, rfl, rfl, rfl, rfl, rfl, rfl, rfl, ?_⟩
  have hreader := reader_bootstrapped [marketBatch false [BookAccumulator.clearBoth] true 5] [] sampleKey 0
  rw [← Bool.not_eq_true, BookAccumulator.sameState_iff]
  exact fun hsame => insert_ne_empty ∅ (fixedKey one) (one, one) (congrArg Resting.asks (hreader.symm.trans hsame))

theorem diverges_renamed : Diverges ⟨8, 8⟩ sampleKey renamedActs := by
  refine ⟨_, _, _, rfl, rfl, rfl, rfl, rfl, rfl, rfl, rfl, rfl, ?_⟩
  have hreader := reader_bootstrapped [marketBatch false [BookAccumulator.clearBoth] true 5]
    [{ marketBatch false [unitAsk] true 7 with symbol := "T" }] sampleKey 0
  rw [← Bool.not_eq_true, BookAccumulator.sameState_iff]
  exact fun hsame => insert_ne_empty ∅ (fixedKey one) (one, one) (congrArg Resting.bids (hreader.symm.trans hsame))

theorem exec_publishes : ∀ (bs : List NormalizedBook) (s : Sink),
    s.backbone.buf.length + bs.length ≤ cap.backbone →
    (sinkMachine cap cfg).exec s (bs.map .publish) =
        ⟨bs.foldl publishBook s.books, ⟨s.backbone.buf ++ bs.map .book, s.backbone.missed⟩, s.rx, s.client⟩ ∧
      received key ((sinkMachine cap cfg).trace s (bs.map .publish)) = []
  | [], s, _ => by
    rw [List.map_nil, List.map_nil, List.append_nil]
    exact ⟨rfl, rfl⟩
  | b :: bs, s, hroom => by
    rw [List.length_cons] at hroom
    have hstep : ((sinkMachine cap cfg).step s (.publish b)).1 =
        ⟨publishBook s.books b, ⟨s.backbone.buf ++ [.book b], s.backbone.missed⟩, s.rx, s.client⟩ := by
      show (⟨_, s.backbone.send cap.backbone (.book b), _, _⟩ : Sink) = _
      rw [Receiver.send_of_lt (by omega)]
    obtain ⟨hexec, hout⟩ := exec_publishes bs
      ⟨publishBook s.books b, ⟨s.backbone.buf ++ [.book b], s.backbone.missed⟩, s.rx, s.client⟩
      (by rw [List.length_append, List.length_singleton]; omega)
    rw [List.map_cons, Machine.exec_cons, Machine.trace_cons, received_cons, hstep, hexec, hout]
    simp only [List.append_assoc, List.foldl_cons, List.map_cons, List.singleton_append]
    exact ⟨trivial, rfl⟩

theorem exec_serializes : ∀ (ms : List FeedMessage) (books : BookSnapshot) (rx : Receiver PreparedFrame)
    (c : Option Client), rx.buf.length + ms.length ≤ cap.prepared →
    (sinkMachine cap cfg).exec ⟨books, ⟨ms, false⟩, some rx, c⟩ (List.replicate ms.length (.serialize 0)) =
        ⟨books, ⟨[], false⟩, some ⟨rx.buf ++ ms.map (prepare · 0), rx.missed⟩, c⟩ ∧
      received key ((sinkMachine cap cfg).trace ⟨books, ⟨ms, false⟩, some rx, c⟩
        (List.replicate ms.length (.serialize 0))) = []
  | [], _, rx, _, _ => by
    rw [List.map_nil, List.append_nil]
    exact ⟨rfl, rfl⟩
  | m :: ms, books, rx, c, hroom => by
    rw [List.length_cons] at hroom
    have hstep : ((sinkMachine cap cfg).step ⟨books, ⟨m :: ms, false⟩, some rx, c⟩ (.serialize 0)).1 =
        ⟨books, ⟨ms, false⟩, some ⟨rx.buf ++ [prepare m 0], rx.missed⟩, c⟩ := by
      show (⟨books, ⟨ms, false⟩, some (rx.send cap.prepared (prepare m 0)), c⟩ : Sink) = _
      rw [Receiver.send_of_lt (by omega)]
    obtain ⟨hexec, hout⟩ := exec_serializes ms books ⟨rx.buf ++ [prepare m 0], rx.missed⟩ c
      (by rw [List.length_append, List.length_singleton]; omega)
    rw [List.length_cons, List.replicate_succ, Machine.exec_cons, Machine.trace_cons, received_cons, hstep, hexec,
      hout]
    simp only [List.append_assoc, List.map_cons, List.singleton_append]
    exact ⟨trivial, rfl⟩

/-- A market one order short of the cap, and a client that connects with all its batches still to read. -/
def crowdedActs (n : Nat) : List Act :=
  .accept :: ((crowdedBatches n).map .publish ++
    (List.replicate 4 (.serialize 0) ++ .connect instant :: List.replicate 4 (.read instant)))

def crowdedSink (n : Nat) (q : List NormalizedBook) (c : Option Client) : Sink :=
  ⟨crowdedBooks n, ⟨[], false⟩, some ⟨q.map fun b => prepare (.book b) 0, false⟩, c⟩

theorem crowdedSink_read {n : Nat} {b : NormalizedBook} {wm wm' : FinMap BookKey (Nat × Nat)} {out : List Sent}
    (h : (crowdedClient wm).forward sampleConfig (crowdedBooks n) (prepare (.book b) 0) instant =
      (crowdedClient wm', out)) (q : List NormalizedBook) :
    (crowdedSink n (b :: q) (some (crowdedClient wm))).step ⟨8, 8⟩ sampleConfig (.read instant) =
      (crowdedSink n q (some (crowdedClient wm')), out) := by
  show ((⟨_, _, _, some ((crowdedClient wm).forward sampleConfig (crowdedBooks n) (prepare (.book b) 0)
    instant).1⟩, ((crowdedClient wm).forward sampleConfig (crowdedBooks n) (prepare (.book b) 0) instant).2) :
      Sink × List Sent) = _
  rw [h]
  rfl

theorem crowdedSink_connect {n : Nat} (hn : n + 1 = MAX_ACCUMULATED_ORDERS) (q : List NormalizedBook) :
    (crowdedSink n q none).step ⟨8, 8⟩ sampleConfig (.connect instant) =
      (crowdedSink n q (some (crowdedClient crowdedMark)),
        [⟨bootstrap (crowdedEntry n) sampleKey 0, some sampleKey, false⟩]) := by
  show ((⟨_, _, _, some (Client.connect (crowdedBooks n) instant).1⟩, (Client.connect (crowdedBooks n) instant).2) :
    Sink × List Sent) = _
  rw [crowded_connect hn]
  rfl

theorem diverges_crowded {n : Nat} (hn : n + 1 = MAX_ACCUMULATED_ORDERS) :
    Diverges ⟨8, 8⟩ sampleKey (crowdedActs n) := by
  have haccept : ((sinkMachine ⟨8, 8⟩ sampleConfig).step .start .accept).1 = ⟨∅, .fresh, some .fresh, none⟩ := rfl
  have hpublished : (sinkMachine ⟨8, 8⟩ sampleConfig).exec ⟨∅, .fresh, some .fresh, none⟩
        ((crowdedBatches n).map .publish) =
          ⟨crowdedBooks n, ⟨(crowdedBatches n).map .book, false⟩, some .fresh, none⟩ ∧
      received sampleKey ((sinkMachine ⟨8, 8⟩ sampleConfig).trace ⟨∅, .fresh, some .fresh, none⟩
        ((crowdedBatches n).map .publish)) = [] :=
    exec_publishes (crowdedBatches n) ⟨∅, .fresh, some .fresh, none⟩ (show 0 + 4 ≤ 8 by decide)
  have hserialized : (sinkMachine ⟨8, 8⟩ sampleConfig).exec ⟨crowdedBooks n, ⟨(crowdedBatches n).map .book, false⟩,
        some .fresh, none⟩ (List.replicate 4 (.serialize 0)) = crowdedSink n (crowdedBatches n) none ∧
      received sampleKey ((sinkMachine ⟨8, 8⟩ sampleConfig).trace ⟨crowdedBooks n,
        ⟨(crowdedBatches n).map .book, false⟩, some .fresh, none⟩ (List.replicate 4 (.serialize 0))) = [] :=
    exec_serializes ((crowdedBatches n).map .book) (crowdedBooks n) .fresh none (show 0 + 4 ≤ 8 by decide)
  have hconnect : (sinkMachine ⟨8, 8⟩ sampleConfig).step (crowdedSink n (crowdedBatches n) none)
    (.connect instant) = _ := crowdedSink_connect hn (crowdedBatches n)
  have hread : (sinkMachine ⟨8, 8⟩ sampleConfig).exec (crowdedSink n (crowdedBatches n)
        (some (crowdedClient crowdedMark))) (List.replicate 4 (.read instant)) =
        crowdedSink n [] (some (crowdedClient (crowdedMark.erase sampleKey))) ∧
      received sampleKey ((sinkMachine ⟨8, 8⟩ sampleConfig).trace (crowdedSink n (crowdedBatches n)
        (some (crowdedClient crowdedMark))) (List.replicate 4 (.read instant))) = (crowdedBatches n).tail := by
    simp only [List.replicate, Machine.exec_cons, Machine.exec_nil, Machine.trace_cons, Machine.trace_nil,
      sinkMachine, crowdedBatches, List.tail_cons, crowdedSink_read (crowded_stale n _),
      crowdedSink_read (crowded_tie n _), crowdedSink_read (crowded_next n _)]
    exact ⟨trivial, rfl⟩
  have hexec : (sinkMachine ⟨8, 8⟩ sampleConfig).exec .start (crowdedActs n) =
      crowdedSink n [] (some (crowdedClient (crowdedMark.erase sampleKey))) := by
    unfold crowdedActs
    rw [Machine.exec_cons, haccept, Machine.exec_append, hpublished.1, Machine.exec_append, hserialized.1,
      Machine.exec_cons, hconnect]
    exact hread.1
  have hreceived : received sampleKey ((sinkMachine ⟨8, 8⟩ sampleConfig).trace .start (crowdedActs n)) =
      heard sampleKey [⟨bootstrap (crowdedEntry n) sampleKey 0, some sampleKey, false⟩] ++
        (crowdedBatches n).tail := by
    unfold crowdedActs
    rw [Machine.trace_cons, received_cons, haccept, Machine.trace_append, received_append, hpublished.1,
      hpublished.2, Machine.trace_append, received_append, hserialized.1, hserialized.2, Machine.trace_cons,
      received_cons, hconnect]
    simp only
    rw [hread.2]
    rfl
  have hbase : (crowdedEntry n).baselined = true := congrArg EventBook.complete (crowdedEntry_core hn)
  unfold Diverges
  rw [hexec, hreceived]
  exact ⟨_, _, crowdedEntry n, rfl, rfl, rfl, rfl, rfl, crowded_entry n, hbase, rfl, FinMap.get_erase_self _ _,
    crowded_differs hn⟩

/-- **Each of these leaves a client with another book**: an event lost at the deadline, a stamp that goes
backwards, a market that takes another symbol, a book that passes the order cap, and a lag of the
serializer. -/
theorem losses_go_unrepaired :
    Diverges ⟨8, 8⟩ sampleKey overdueActs ∧ Diverges ⟨8, 8⟩ sampleKey backwardActs ∧
      Diverges ⟨8, 8⟩ sampleKey renamedActs ∧ Diverges ⟨8, 8⟩ sampleKey (crowdedActs (MAX_ACCUMULATED_ORDERS - 1)) ∧
      Diverges ⟨1, 8⟩ sampleKey serializerActs :=
  ⟨diverges_overdue, diverges_backward, diverges_renamed, diverges_crowded (by decide), diverges_serializer⟩

end EdgeConnect.Ws
