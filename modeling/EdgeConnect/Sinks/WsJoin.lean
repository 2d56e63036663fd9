import Mathlib.Order.Interval.Finset.Nat
import EdgeConnect.Sinks.WsInStep

/-!
# The join law

One producer applies each batch to the replay map and appends it to the client's queue; the client connects,
subscribes, is repaired, sweeps and reads in any order.

* `Hub`, `Step`, `machine` — the replay map, the queue and the client;
* `Orderly` — what a run is asked for: the market stays in scope, and no deadline elapses on it;
* `join_law` — a client that has read its queue and is not withheld holds the replay entry's book and open
  event, as long as its own book stays within the order cap;
* `join_overflows_the_order_cap` — frames that tie with a bootstrap are written again, and pass through more
  orders than the market ever had.
-/

set_option autoImplicit false

namespace EdgeConnect

/-- Every message of a list fits the order cap when it is fed. -/
def EventBook.FitsAll : EventBook → List NormalizedBook → Prop
  | _, [] => True
  | e, b :: bs => e.Fits b.changes b.last ∧ (e.feed b.changes b.last).FitsAll bs

theorem EventBook.FitsAll.feedAll : ∀ {bs : List NormalizedBook} {e : EventBook}, e.FitsAll bs →
    e.feedAll bs = e.feedAllFree bs
  | [], _, _ => rfl
  | b :: bs, e, h => by
    show (e.feed b.changes b.last).feedAll bs = (e.feedFree b.changes b.last).feedAllFree bs
    rw [h.2.feedAll, EventBook.feed_eq_feedFree h.1]

/-- A change of an order. -/
def BookChange.ofOrder (c : BookChange) : Bool := c.orderId ≠ 0 ∧ c.action ≠ .clear

/-- Messages about prices alone always fit. -/
theorem EventBook.fitsAll_of_prices : ∀ {bs : List NormalizedBook} {e : EventBook}, e.rests.orders = ∅ →
    e.pending.any BookChange.ofOrder = false → (∀ b ∈ bs, b.changes.any BookChange.ofOrder = false) →
    e.FitsAll bs
  | [], _, _, _, _ => trivial
  | b :: bs, e, horders, hpending, hbs => by
    have hadded : (e.pending ++ b.changes.filter BookChange.isFinite).any BookChange.ofOrder = false := by
      rw [List.any_append, hpending, Bool.false_or, List.any_eq_false]
      exact fun c hc => List.any_eq_false.mp (hbs b List.mem_cons_self) c (List.mem_filter.mp hc).1
    have hfold : (e.rests.foldChanges (e.pending ++ b.changes.filter BookChange.isFinite)).orders = ∅ :=
      BookAccumulator.orders_foldChanges _ horders hadded
    have hfits : e.Fits b.changes b.last := by
      intro _
      rw [hfold]
      exact Nat.zero_le _
    have hrest := fun b' hb' => hbs b' (List.mem_cons_of_mem b hb')
    refine ⟨hfits, ?_⟩
    rw [EventBook.feed_eq_feedFree hfits]
    unfold EventBook.feedFree
    simp only
    split
    · exact fitsAll_of_prices hfold rfl hrest
    · split
      · exact fitsAll_of_prices horders rfl hrest
      · exact fitsAll_of_prices horders hadded hrest

namespace Ws

open EventBook

/-! ## The hub -/

structure Hub where
  books : BookSnapshot
  queue : List PreparedFrame
  client : Option Client

inductive Step where
  | publish (b : NormalizedBook) (stamp : Nat)
  | connect (t : Moment)
  | subscribe (f : SubFilter) (t : Moment)
  | unsubscribe (f : SubFilter) (t : Moment)
  | lagged
  | repair (t : Moment)
  | sweep (t : Moment)
  | forward (t : Moment)

namespace Hub

/-- The client takes a step of its own; a client that is not connected yet takes none. -/
def turn (h : Hub) (act : Client → Client × List Sent) : Hub × List Sent :=
  match h.client with
  | none => (h, [])
  | some c =>
    let (c, out) := act c
    ({ h with client := some c }, out)

/-- The connect-time replay, once. -/
def connect (h : Hub) (t : Moment) : Hub × List Sent :=
  match h.client with
  | some _ => (h, [])
  | none =>
    let (c, out) := Client.connect h.books t
    ({ h with client := some c }, out)

/-- The client reads the head of its queue. -/
def forward (cfg : WsConfig) (h : Hub) (t : Moment) : Hub × List Sent :=
  match h.client, h.queue with
  | some c, f :: queue =>
    let (c, out) := c.forward cfg h.books f t
    ({ h with client := some c, queue := queue }, out)
  | _, _ => (h, [])

def step (cfg : WsConfig) (h : Hub) : Step → Hub × List Sent
  | .publish b stamp =>
    ({ h with books := publishBook h.books b, queue := h.queue ++ [prepare (.book b) stamp] }, [])
  | .connect t => h.connect t
  | .subscribe f t => h.turn fun c => c.subscribe cfg h.books f t
  | .unsubscribe f t => h.turn fun c => c.unsubscribe h.books f t
  | .lagged => h.turn fun c => (c.lagged, [])
  | .repair t => h.turn fun c => c.repair cfg h.books t
  | .sweep t => h.turn fun c => c.sweep cfg h.books t
  | .forward t => h.forward cfg t

/-- The hub a client is accepted at: what was published before is in no queue of its. -/
def accepted (before : List NormalizedBook) : Hub := ⟨before.foldl publishBook ∅, [], none⟩

end Hub

def machine (cfg : WsConfig) : Machine Hub Step (List Sent) := ⟨Hub.step cfg⟩

/-! ## What a run is asked for -/

/-- The market is in the client's scope, as an entry and as every frame of it. -/
structure InScope (key : BookKey) (h : Hub) : Prop where
  entry : ∀ c r, h.client = some c → h.books.get key = some r → wanted c.subs key r = true
  frames : ∀ c f, h.client = some c → f ∈ h.queue → f.bookMarket = some key → passes c.subs f = true

/-- A replay iterates the whole map. -/
def Step.Iterates (h : Hub) : Step → Prop
  | .connect t | .subscribe _ t | .unsubscribe _ t | .repair t => ∀ k, h.books.contains k = true → k ∈ t.iter
  | _ => True

/-- Neither a withhold nor a watermark of the market is past its deadline when it is looked at. -/
def Step.OnTime (cfg : WsConfig) (key : BookKey) (h : Hub) : Step → Prop
  | .sweep t | .forward t => ∀ c, h.client = some c →
    (∀ since, c.seen.awaiting.get key = some since → t.now - since < cfg.bootstrapReleaseDeadline) ∧
      ∀ w since, c.seen.watermarks.get key = some (w, since) → t.now - since < cfg.bootstrapReleaseDeadline
  | _ => True

/-- A step of a run in which the market stays in scope and no deadline elapses on it. -/
structure Orderly (cfg : WsConfig) (key : BookKey) (h : Hub) (i : Step) : Prop where
  before : InScope key h
  after : InScope key (h.step cfg i).1
  iterates : i.Iterates h
  onTime : i.OnTime cfg key h

/-- The batches a run published. -/
def published (steps : List Step) : List NormalizedBook :=
  steps.filterMap fun
    | .publish b _ => some b
    | _ => none

/-- The stamps of one market's batches. -/
def stampsOf (key : BookKey) (bs : List NormalizedBook) : List Nat :=
  (bs.filter fun b => marketOf b = key).map fun b => b.recvTsNs

/-- The frames of one market. -/
def framesOf (key : BookKey) (q : List PreparedFrame) : List PreparedFrame :=
  q.filter fun f => f.bookMarket = some key

/-- What one market's reader was written over a run. -/
def written (key : BookKey) (t : List (Step × List Sent)) : List NormalizedBook :=
  t.flatMap fun e => heard key e.2

/-! ## Every step -/

/-- What every orderly step keeps, for a client that was written `u`. -/
structure Joined (key : BookKey) (h : Hub) (u : EventBook) (newest : Nat) : Prop where
  backlog : Backlog (h.books.get key) (framesOf key h.queue) newest
  absent : h.client = none → u.pending = []
  inStep : ∀ c, h.client = some c →
    InStep u (h.books.get key) (framesOf key h.queue) (c.seen.seat key) newest

variable {cfg : WsConfig} {key : BookKey} {h : Hub} {u : EventBook} {newest : Nat} {b : NormalizedBook}

theorem carries_prepare (b : NormalizedBook) (stamp : Nat) : Carries (prepare (.book b) stamp) b := by
  refine ⟨⟨{ b with wsSendTsNs := stamp }, ?_, rfl, rfl⟩, rfl⟩
  show (if b.orderLevel then FeedMessage.orderBook _ else FeedMessage.book _).batch = _
  split
  · rfl
  · rfl

theorem framesOf_append (key : BookKey) (q q' : List PreparedFrame) :
    framesOf key (q ++ q') = framesOf key q ++ framesOf key q' := List.filter_append _ _

/-- A replay on one market. -/
theorem replay_seat {c : Client} {books : BookSnapshot} {t : Moment}
    (hiter : ∀ k, books.contains k = true → k ∈ t.iter) (subs : List SubFilter) (key : BookKey) :
    ((c.replay books subs t).1.seen.seat key, heard key (c.replay books subs t).2) =
      (c.seen.seat key).replayed (books.get key) subs key t.now t.wall := by
  show ((c.seen.replayScoped books subs t.now t.wall t.iter).1.seat key,
    heard key (c.seen.replayScoped books subs t.now t.wall t.iter).2) = _
  by_cases hmem : key ∈ t.iter
  · exact replayScoped_mem books subs t.now t.wall t.iter c.seen t.nodup hmem
  · have hnone : books.get key = none := by
      cases hg : books.get key with
      | none => rfl
      | some r => exact absurd (hiter key (FinMap.contains_eq_true.mpr ⟨r, hg⟩)) hmem
    obtain ⟨hs, ho⟩ := replayScoped_notMem books subs t.now t.wall t.iter c.seen hmem
    rw [hs, ho, hnone]
    rfl

theorem Joined.publish (hj : Joined key h u newest) (hkey : marketOf b = key) (hnew : newest ≤ b.recvTsNs)
    (stamp : Nat) : Joined key (h.step cfg (.publish b stamp)).1 u b.recvTsNs := by
  have hentry : (publishBook h.books b).get key = some (((h.books.get key).getD (.new b.symbol)).apply b) := by
    unfold publishBook
    rw [hkey, FinMap.get_insert_self]
  have hframes : framesOf key (h.queue ++ [prepare (.book b) stamp]) =
      framesOf key h.queue ++ [prepare (.book b) stamp] := by
    rw [framesOf_append]
    refine congrArg _ (List.filter_eq_self.mpr fun f hf => ?_)
    rw [List.mem_singleton.mp hf]
    exact decide_eq_true (congrArg some hkey)
  refine ⟨?_, hj.absent, fun c hc => ?_⟩
  · show Backlog ((publishBook h.books b).get key) (framesOf key (h.queue ++ [_])) _
    rw [hentry, hframes]
    exact hj.backlog.publish (carries_prepare b stamp) hnew
  · show InStep u ((publishBook h.books b).get key) (framesOf key (h.queue ++ [_])) _ _
    rw [hentry, hframes]
    exact (hj.inStep c hc).publish hj.backlog (carries_prepare b stamp) hnew

theorem Joined.publish_ne (hj : Joined key h u newest) (hkey : marketOf b ≠ key) (stamp : Nat) :
    Joined key (h.step cfg (.publish b stamp)).1 u newest := by
  have hentry : (publishBook h.books b).get key = h.books.get key :=
    FinMap.get_insert_of_ne _ _ (Ne.symm hkey)
  have hframes : framesOf key (h.queue ++ [prepare (.book b) stamp]) = framesOf key h.queue := by
    have hnil : framesOf key [prepare (.book b) stamp] = [] := by
      refine List.filter_eq_nil_iff.mpr fun f hf => ?_
      rw [List.mem_singleton.mp hf]
      exact fun heq => hkey (Option.some.inj (of_decide_eq_true heq))
    rw [framesOf_append, hnil, List.append_nil]
  refine ⟨?_, hj.absent, fun c hc => ?_⟩
  · show Backlog ((publishBook h.books b).get key) (framesOf key (h.queue ++ [_])) _
    rw [hentry, hframes]
    exact hj.backlog
  · show InStep u ((publishBook h.books b).get key) (framesOf key (h.queue ++ [_])) _ _
    rw [hentry, hframes]
    exact hj.inStep c hc

/-- A step of the client that leaves its queue alone. -/
theorem Joined.turn (hj : Joined key h u newest) {act : Client → Client × List Sent}
    (hact : ∀ c, h.client = some c → InStep u (h.books.get key) (framesOf key h.queue) (c.seen.seat key) newest →
      InStep (u.feedAllFree (heard key (act c).2)) (h.books.get key) (framesOf key h.queue)
        ((act c).1.seen.seat key) newest) :
    Joined key (h.turn act).1 (u.feedAllFree (heard key (h.turn act).2)) newest := by
  unfold Hub.turn
  cases hc : h.client with
  | none => exact ⟨hj.backlog, fun _ => hj.absent hc, hj.inStep⟩
  | some c =>
    refine ⟨hj.backlog, nofun, fun c' hc' => ?_⟩
    cases hc'
    exact hact c hc (hj.inStep c hc)

/-- A replay the client is not asked to be in scope for. -/
theorem InStep.replay {c c' : Client} {t : Moment} {books : BookSnapshot} {q : List PreparedFrame}
    (hs : InStep u (books.get key) q (c.seen.seat key) newest) (hback : Backlog (books.get key) q newest)
    (hiter : ∀ k, books.contains k = true → k ∈ t.iter) (subs : List SubFilter)
    (hc : c'.seen = c.seen) :
    InStep (u.feedAllFree (heard key (c'.replay books subs t).2)) (books.get key) q
      ((c'.replay books subs t).1.seen.seat key) newest := by
  have hseat := replay_seat (c := c') hiter subs key
  rw [Prod.ext_iff] at hseat
  simp only at hseat
  rw [hseat.1, hseat.2, hc]
  exact hs.replayed hback subs key t.now t.wall

theorem Joined.connect (hj : Joined key h u newest) {t : Moment}
    (hiter : ∀ k, h.books.contains k = true → k ∈ t.iter) :
    Joined key (h.connect t).1 (u.feedAllFree (heard key (h.connect t).2)) newest := by
  unfold Hub.connect
  cases hc : h.client with
  | some c => exact ⟨hj.backlog, hj.absent, hj.inStep⟩
  | none =>
    refine ⟨hj.backlog, nofun, fun c' hc' => ?_⟩
    cases hc'
    have hseat := replay_seat (c := ⟨[], ⟨∅, ∅⟩, none, false⟩) hiter [] key
    rw [Prod.ext_iff] at hseat
    simp only at hseat
    show InStep (u.feedAllFree (heard key (Client.connect h.books t).2)) (h.books.get key)
      (framesOf key h.queue) ((Client.connect h.books t).1.seen.seat key) newest
    unfold Client.connect
    rw [hseat.1, hseat.2]
    exact inStep_replayed hj.backlog (fun _ _ hw => by cases hw) (fun _ => hj.absent hc) (fun _ _ => rfl) t.now t.wall

theorem Joined.forward (hj : Joined key h u newest) {t : Moment} (hscope : InScope key h)
    (htime : ∀ c, h.client = some c →
      (∀ since, c.seen.awaiting.get key = some since → t.now - since < cfg.bootstrapReleaseDeadline) ∧
        ∀ w since, c.seen.watermarks.get key = some (w, since) →
          t.now - since < cfg.bootstrapReleaseDeadline) :
    Joined key (h.forward cfg t).1 (u.feedAllFree (heard key (h.forward cfg t).2)) newest := by
  unfold Hub.forward
  split
  · rename_i c f queue hc hq
    have hback := hj.backlog
    have hs := hj.inStep c hc
    obtain ⟨haw, hwm⟩ := htime c hc
    by_cases hf : f.bookMarket = some key
    · have hframes : framesOf key h.queue = f :: framesOf key queue := by
        rw [hq]
        exact List.filter_cons_of_pos (decide_eq_true hf)
      rw [hframes] at hback hs
      have hseat := forward_self h.books c.subs cfg.bootstrapReleaseDeadline t.now t.wall c.seen hf
      rw [Prod.ext_iff] at hseat
      simp only at hseat
      refine ⟨hback.read, nofun, fun c' hc' => ?_⟩
      cases hc'
      show InStep (u.feedAllFree (heard key (c.seen.forward h.books c.subs cfg.bootstrapReleaseDeadline t.now
        t.wall f).2)) (h.books.get key) (framesOf key queue) ((c.seen.forward h.books c.subs
        cfg.bootstrapReleaseDeadline t.now t.wall f).1.seat key) newest
      rw [hseat.1, hseat.2]
      exact hs.forwarded hback (hscope.entry c · hc) (hscope.frames c f hc (hq ▸ List.mem_cons_self) hf) haw
        hwm t.wall
    · have hframes : framesOf key h.queue = framesOf key queue := by
        rw [hq]
        exact List.filter_cons_of_neg (by simpa using hf)
      rw [hframes] at hback hs
      obtain ⟨hseat, hout⟩ := forward_ne h.books c.subs cfg.bootstrapReleaseDeadline t.now t.wall c.seen hf
      refine ⟨hback, nofun, fun c' hc' => ?_⟩
      cases hc'
      show InStep (u.feedAllFree (heard key (c.seen.forward h.books c.subs cfg.bootstrapReleaseDeadline t.now
        t.wall f).2)) (h.books.get key) (framesOf key queue) ((c.seen.forward h.books c.subs
        cfg.bootstrapReleaseDeadline t.now t.wall f).1.seat key) newest
      rw [hseat, hout]
      exact hs
  · exact ⟨hj.backlog, hj.absent, hj.inStep⟩

/-- The sweep, on one market. -/
theorem InStep.sweep {c : Client} {t : Moment} {books : BookSnapshot} {q : List PreparedFrame}
    (hs : InStep u (books.get key) q (c.seen.seat key) newest) (hback : Backlog (books.get key) q newest)
    (hscope : ∀ r, books.get key = some r → wanted c.subs key r = true)
    (htime : ∀ since, c.seen.awaiting.get key = some since → t.now - since < cfg.bootstrapReleaseDeadline) :
    InStep (u.feedAllFree (heard key (c.sweep cfg books t).2)) (books.get key) q
      ((c.sweep cfg books t).1.seen.seat key) newest := by
  show InStep (u.feedAllFree (heard key (c.seen.sweep books c.subs cfg.bootstrapReleaseDeadline t.now t.wall
    t.iter).2)) _ _ ((c.seen.sweep books c.subs cfg.bootstrapReleaseDeadline t.now t.wall t.iter).1.seat key) _
  by_cases hmem : key ∈ t.iter
  · obtain ⟨hseat, hout⟩ := sweep_mem books c.subs cfg.bootstrapReleaseDeadline t.now t.wall t.iter c.seen
      t.nodup hmem
    rw [hseat, hout]
    exact (hs.released hback hscope htime t.wall).1
  · obtain ⟨hseat, hout⟩ := sweep_notMem books c.subs cfg.bootstrapReleaseDeadline t.now t.wall t.iter c.seen
      hmem
    rw [hseat, hout]
    exact hs

section Client

variable {c : Client} {t : Moment} {books : BookSnapshot} {q : List PreparedFrame}

theorem InStep.subscribe (hs : InStep u (books.get key) q (c.seen.seat key) newest)
    (hback : Backlog (books.get key) q newest) (hiter : ∀ k, books.contains k = true → k ∈ t.iter)
    (f : SubFilter) :
    InStep (u.feedAllFree (heard key (c.subscribe cfg books f t).2)) (books.get key) q
      ((c.subscribe cfg books f t).1.seen.seat key) newest := by
  unfold Client.subscribe
  split
  · exact hs
  · split
    · exact hs
    · exact hs.replay hback hiter [f] rfl

theorem InStep.unsubscribe (hs : InStep u (books.get key) q (c.seen.seat key) newest)
    (hback : Backlog (books.get key) q newest) (hiter : ∀ k, books.contains k = true → k ∈ t.iter)
    (f : SubFilter) :
    InStep (u.feedAllFree (heard key (c.unsubscribe books f t).2)) (books.get key) q
      ((c.unsubscribe books f t).1.seen.seat key) newest := by
  unfold Client.unsubscribe
  simp only
  split
  · exact hs.replay hback hiter _ rfl
  · exact hs

theorem lagged_seen (c : Client) : c.lagged.seen = c.seen := by
  unfold Client.lagged
  split
  · rfl
  · rfl

theorem InStep.repair (hs : InStep u (books.get key) q (c.seen.seat key) newest)
    (hback : Backlog (books.get key) q newest) (hiter : ∀ k, books.contains k = true → k ∈ t.iter) :
    InStep (u.feedAllFree (heard key (c.repair cfg books t).2)) (books.get key) q
      ((c.repair cfg books t).1.seen.seat key) newest := by
  have hreplay := hs.replay hback hiter c.subs (show { c with lagRepairDue := false }.seen = c.seen from rfl)
  unfold Client.repair
  split
  · exact hreplay
  · exact hs

end Client

/-- **Every orderly step of the client keeps it.** -/
theorem Joined.acts (hj : Joined key h u newest) {i : Step} (hi : ∀ b stamp, i ≠ .publish b stamp)
    (ho : Orderly cfg key h i) :
    Joined key (h.step cfg i).1 (u.feedAllFree (heard key (h.step cfg i).2)) newest := by
  obtain ⟨hscope, -, hiter, htime⟩ := ho
  have hback := hj.backlog
  cases i with
  | publish b stamp => exact absurd rfl (hi b stamp)
  | connect t => exact hj.connect hiter
  | subscribe f t => exact hj.turn fun c hc hs => hs.subscribe hback hiter f
  | unsubscribe f t => exact hj.turn fun c hc hs => hs.unsubscribe hback hiter f
  | lagged =>
    refine hj.turn fun c hc hs => ?_
    show InStep u _ _ (c.lagged.seen.seat key) newest
    rw [lagged_seen]
    exact hs
  | repair t => exact hj.turn fun c hc hs => hs.repair hback hiter
  | sweep t => exact hj.turn fun c hc hs => hs.sweep hback (hscope.entry c · hc) (htime c hc).1
  | forward t => exact hj.forward hscope htime

/-! ## Every run -/

/-- The newest stamp of a market's batches, which come in the order of their stamps. -/
def newestOf (key : BookKey) (bs : List NormalizedBook) : Nat := (stampsOf key bs).getLastD 0

theorem stampsOf_append (key : BookKey) (bs bs' : List NormalizedBook) :
    stampsOf key (bs ++ bs') = stampsOf key bs ++ stampsOf key bs' := by
  unfold stampsOf
  rw [List.filter_append, List.map_append]

theorem newestOf_snoc (bs : List NormalizedBook) (b : NormalizedBook) :
    newestOf key (bs ++ [b]) = if marketOf b = key then b.recvTsNs else newestOf key bs := by
  unfold newestOf
  rw [stampsOf_append]
  by_cases hk : marketOf b = key
  · simp [stampsOf, hk]
  · simp [stampsOf, hk]

theorem newestOf_le {bs : List NormalizedBook} (hk : marketOf b = key)
    (hmono : (stampsOf key (bs ++ [b])).Pairwise (· ≤ ·)) : newestOf key bs ≤ b.recvTsNs := by
  rw [stampsOf_append] at hmono
  have hlast : stampsOf key [b] = [b.recvTsNs] := by simp [stampsOf, hk]
  rw [hlast, List.pairwise_append] at hmono
  unfold newestOf
  cases hs : (stampsOf key bs).getLast? with
  | none =>
    rw [List.getLastD_eq_getLast?, hs]
    exact Nat.zero_le _
  | some x =>
    rw [List.getLastD_eq_getLast?, hs]
    exact hmono.2.2 x (List.mem_of_getLast? hs) _ (List.mem_singleton_self _)

theorem stampsOf_take {bs bs' : List NormalizedBook}
    (hmono : (stampsOf key (bs ++ bs')).Pairwise (· ≤ ·)) : (stampsOf key bs).Pairwise (· ≤ ·) := by
  rw [stampsOf_append] at hmono
  exact (List.pairwise_append.mp hmono).1

/-- What a client is accepted to. -/
theorem joined_accepted (before : List NormalizedBook) (hmono : (stampsOf key before).Pairwise (· ≤ ·))
    (symbol : String) :
    Joined key (.accepted before) (BookAccumulator.new symbol).core (newestOf key before) := by
  have hback : Backlog ((before.foldl publishBook ∅).get key) [] (newestOf key before) := by
    induction before using List.reverseRecOn with
    | nil => exact ⟨fun _ => rfl, nofun, nofun, nofun⟩
    | append_singleton bs b ih =>
      have hih := ih (stampsOf_take hmono)
      rw [List.foldl_append, List.foldl_cons, List.foldl_nil, newestOf_snoc]
      by_cases hk : marketOf b = key
      · rw [if_pos hk, publishBook, hk, FinMap.get_insert_self]
        exact (hih.publish (carries_prepare b 0) (newestOf_le hk hmono)).read
      · rw [if_neg hk, publishBook, FinMap.get_insert_of_ne _ _ (Ne.symm hk)]
        exact hih
  exact ⟨hback, fun _ => rfl, nofun⟩

theorem written_append (t t' : List (Step × List Sent)) :
    written key (t ++ t') = written key t ++ written key t' := List.flatMap_append

theorem written_cons (e : Step × List Sent) (t : List (Step × List Sent)) :
    written key (e :: t) = heard key e.2 ++ written key t := List.flatMap_cons

theorem published_append (steps steps' : List Step) :
    published (steps ++ steps') = published steps ++ published steps' := List.filterMap_append

/-- **Every orderly run keeps it.** -/
theorem joined_run (before : List NormalizedBook) (symbol : String) (steps : List Step)
    (hmono : (stampsOf key (before ++ published steps)).Pairwise (· ≤ ·))
    (hrun : (machine cfg).Along (Orderly cfg key) (.accepted before) steps) :
    Joined key ((machine cfg).exec (.accepted before) steps)
      ((BookAccumulator.new symbol).core.feedAllFree
        (written key ((machine cfg).trace (.accepted before) steps)))
      (newestOf key (before ++ published steps)) := by
  induction steps using List.reverseRecOn with
  | nil =>
    rw [show published [] = [] from rfl, List.append_nil] at hmono ⊢
    exact joined_accepted before hmono symbol
  | append_singleton steps i ih =>
    rw [published_append, ← List.append_assoc] at hmono ⊢
    rw [Machine.along_append] at hrun
    have hj := ih (stampsOf_take hmono) hrun.1
    rw [Machine.exec_append, Machine.trace_append, written_append, feedAllFree_append]
    generalize (machine cfg).exec (.accepted before) steps = h at hj hrun ⊢
    generalize (BookAccumulator.new symbol).core.feedAllFree _ = u at hj ⊢
    have htrace : written key ((machine cfg).trace h [i]) = heard key (h.step cfg i).2 := by
      show written key [(i, (h.step cfg i).2)] = _
      simp [written]
    rw [htrace]
    show Joined key (h.step cfg i).1 _ _
    cases i with
    | publish b stamp =>
      show Joined key (h.step cfg (.publish b stamp)).1 u (newestOf key (before ++ published steps ++ [b]))
      rw [newestOf_snoc]
      by_cases hk : marketOf b = key
      · rw [if_pos hk]
        exact hj.publish hk (newestOf_le hk hmono) stamp
      · rw [if_neg hk]
        exact hj.publish_ne hk stamp
    | _ =>
      rw [show published [_] = [] from rfl, List.append_nil]
      exact hj.acts (fun _ _ => nofun) hrun.2.1

/-! ## Frames of the live feed -/

theorem nothing_live : ∀ m ∈ ([] : List Sent), m.live = false := by
  intro m hm
  cases hm

theorem releaseWithheld_live (books : BookSnapshot) (subs : List SubFilter) (deadline now wall : Nat)
    (seen : ClientBooks) (key : BookKey) :
    ∀ m ∈ (seen.releaseWithheld books subs deadline now wall key).2.1, m.live = false := by
  unfold ClientBooks.releaseWithheld
  split
  · exact nothing_live
  · split
    · exact nothing_live
    · exact nothing_live
    · intro m hm
      rw [List.mem_singleton.mp hm]

/-- A market whose release is done is not withheld. -/
theorem releaseWithheld_done {books : BookSnapshot} {subs : List SubFilter} {deadline now wall : Nat}
    {seen : ClientBooks} {key : BookKey}
    (h : (seen.releaseWithheld books subs deadline now wall key).2.2 = false) :
    (seen.releaseWithheld books subs deadline now wall key).1.awaiting.get key = none := by
  unfold ClientBooks.releaseWithheld at h ⊢
  split at h
  · rename_i hnone
    simp only [hnone]
  · rename_i since hsome
    split at h
    · cases h
    · simp only [FinMap.get_erase_self]
    · simp only [ClientBooks.bootstrapped, FinMap.get_erase_self]

theorem replayScoped_live (books : BookSnapshot) (subs : List SubFilter) (now wall : Nat) :
    ∀ (iter : List BookKey) (seen : ClientBooks), ∀ m ∈ (seen.replayScoped books subs now wall iter).2,
      m.live = false
  | [], _ => nothing_live
  | key :: iter, seen => by
    intro m hm
    rw [replayScoped_cons] at hm
    rcases List.mem_append.mp hm with hm | hm
    · unfold ClientBooks.replayMarket at hm
      split at hm
      · cases hm
      · split at hm
        · cases hm
        · split at hm
          · cases hm
          · rw [List.mem_singleton.mp hm]
    · exact replayScoped_live books subs now wall iter _ m hm

theorem sweep_live (books : BookSnapshot) (subs : List SubFilter) (deadline now wall : Nat) :
    ∀ (iter : List BookKey) (seen : ClientBooks), ∀ m ∈ (seen.sweep books subs deadline now wall iter).2,
      m.live = false
  | [], _ => nothing_live
  | key :: iter, seen => by
    intro m hm
    rw [sweep_cons] at hm
    rcases List.mem_append.mp hm with hm | hm
    · exact releaseWithheld_live books subs deadline now wall seen key m hm
    · exact sweep_live books subs deadline now wall iter _ m hm

theorem forward_live {books : BookSnapshot} {subs : List SubFilter} {deadline now wall : Nat}
    {seen : ClientBooks} {f : PreparedFrame} {m : Sent}
    (hm : m ∈ (seen.forward books subs deadline now wall f).2) (hlive : m.live = true)
    (hkey : m.market = some key) :
    (seen.forward books subs deadline now wall f).1.awaiting.get key = none := by
  have hwritten : ∀ subs, m ∈ ClientBooks.write subs f → f.bookMarket = some key := by
    intro subs hm
    unfold ClientBooks.write at hm
    split at hm
    · rw [List.mem_singleton.mp hm] at hkey
      exact hkey
    · cases hm
  unfold ClientBooks.forward at hm ⊢
  split at hm
  · rename_i hnone
    rw [hwritten subs hm] at hnone
    cases hnone
  · rename_i key' hsome
    have hboot := releaseWithheld_live books subs deadline now wall seen key'
    have hdone := @releaseWithheld_done books subs deadline now wall seen key'
    generalize seen.releaseWithheld books subs deadline now wall key' = r at hm hboot hdone ⊢
    obtain ⟨seen', out, held⟩ := r
    have hframe : m ∉ out := fun hout => by
      rw [hboot m hout] at hlive
      cases hlive
    cases held with
    | true => exact absurd hm hframe
    | false =>
      have hnone := hdone rfl
      simp only at hm hnone ⊢
      have hself : m ∈ out ++ ClientBooks.write subs f → key' = key := fun h =>
        Option.some.inj (hsome.symm.trans (hwritten subs ((List.mem_append.mp h).resolve_left hframe)))
      cases hw : seen'.watermarks.get key' with
      | none =>
        rw [hw] at hm
        rw [← hself hm]
        exact hnone
      | some v =>
        rw [hw] at hm
        simp only at hm ⊢
        split at hm
        · exact absurd hm hframe
        · rename_i hold
          rw [if_neg hold, ← hself hm]
          exact hnone

section Client

variable (c : Client) (books : BookSnapshot) (t : Moment)

theorem replay_live (subs : List SubFilter) : ∀ m ∈ (c.replay books subs t).2, m.live = false :=
  replayScoped_live books subs t.now t.wall t.iter c.seen

theorem subscribe_live (f : SubFilter) : ∀ m ∈ (c.subscribe cfg books f t).2, m.live = false := by
  unfold Client.subscribe
  split
  · exact nothing_live
  · split
    · exact nothing_live
    · exact replay_live _ books t [f]

theorem unsubscribe_live (f : SubFilter) : ∀ m ∈ (c.unsubscribe books f t).2, m.live = false := by
  unfold Client.unsubscribe
  simp only
  split
  · exact replay_live _ books t _
  · exact nothing_live

theorem repair_live : ∀ m ∈ (c.repair cfg books t).2, m.live = false := by
  unfold Client.repair
  split
  · exact replay_live _ books t c.subs
  · exact nothing_live

end Client

/-- A client's own step writes bootstraps alone. -/
theorem turn_live {act : Client → Client × List Sent} (hact : ∀ c, ∀ m ∈ (act c).2, m.live = false) :
    ∀ m ∈ (h.turn act).2, m.live = false := by
  unfold Hub.turn
  split
  · exact nothing_live
  · rename_i c _
    exact hact c

/-- **A frame of the live feed is written only while its market is not withheld.** -/
theorem live_not_withheld (cfg : WsConfig) (h : Hub) (i : Step) (key : BookKey) (m : Sent)
    (hm : m ∈ (h.step cfg i).2) (hlive : m.live = true) (hkey : m.market = some key) :
    ∀ c, (h.step cfg i).1.client = some c → c.seen.awaiting.get key = none := by
  have hboot : ∀ out : List Sent, (∀ m ∈ out, m.live = false) → m ∉ out := fun out hout hm =>
    Bool.false_ne_true ((hout m hm).symm.trans hlive)
  cases i with
  | publish b stamp => cases hm
  | connect t =>
    refine absurd hm (hboot _ ?_)
    show ∀ m ∈ (h.connect t).2, m.live = false
    unfold Hub.connect
    split
    · exact nothing_live
    · exact replay_live _ h.books t []
  | subscribe f t => exact absurd hm (hboot _ (turn_live fun c => subscribe_live c h.books t f))
  | unsubscribe f t => exact absurd hm (hboot _ (turn_live fun c => unsubscribe_live c h.books t f))
  | lagged => exact absurd hm (hboot _ (turn_live fun _ => nothing_live))
  | repair t => exact absurd hm (hboot _ (turn_live fun c => repair_live c h.books t))
  | sweep t =>
    exact absurd hm (hboot _ (turn_live fun c =>
      sweep_live h.books c.subs cfg.bootstrapReleaseDeadline t.now t.wall t.iter c.seen))
  | forward t =>
    change m ∈ (h.forward cfg t).2 at hm
    show ∀ c, (h.forward cfg t).1.client = some c → _
    unfold Hub.forward at hm ⊢
    split at hm
    · rintro c' ⟨⟩
      exact forward_live hm hlive hkey
    · cases hm

/-- A client in step whose queue holds no frame of the market and that is not withheld holds the entry's book,
as long as its own stayed within the order cap. -/
theorem Joined.arrived {msgs : List NormalizedBook} {symbol : String}
    (hj : Joined key h ((BookAccumulator.new symbol).core.feedAllFree msgs) newest) {c : Client}
    (hc : h.client = some c) (hq : h.queue = []) {r : BookAccumulator} (hr : h.books.get key = some r)
    (hbase : r.baselined = true) (hlive : c.seen.awaiting.get key = none)
    (hfits : (BookAccumulator.new symbol).core.FitsAll msgs) :
    (msgs.foldl BookAccumulator.apply (.new symbol)).sameState r = true ∧
      (msgs.foldl BookAccumulator.apply (.new symbol)).pending = r.pending := by
  have htracks := (hj.inStep c hc).tracks r hr hlive
  have hnone : (c.seen.seat key).live (framesOf key h.queue) = [] := by
    rw [hq]
    unfold Seat.live
    split
    · rfl
    · rfl
  rw [hnone, ← hfits.feedAll, ← core_applyAll] at htracks
  rw [BookAccumulator.sameState_iff]
  exact ⟨(htracks.rests hbase).symm, htracks.pending.symm⟩

/-- **The join law.**  A frame of the live feed is written only while its market is not withheld, and a client
that has read its queue and is not withheld holds the replay entry's book and its open event. -/
theorem join_law (cfg : WsConfig) (key : BookKey) (before : List NormalizedBook) (steps : List Step)
    (hmono : (stampsOf key (before ++ published steps)).Pairwise (· ≤ ·))
    (hrun : (machine cfg).Along (Orderly cfg key) (.accepted before) steps) (symbol : String) :
    (∀ pre i post, steps = pre ++ i :: post →
      ∀ m ∈ (((machine cfg).exec (.accepted before) pre).step cfg i).2, m.live = true → m.market = some key →
        ∀ c, (((machine cfg).exec (.accepted before) pre).step cfg i).1.client = some c →
          c.seen.awaiting.get key = none) ∧
    ∀ c r, ((machine cfg).exec (.accepted before) steps).client = some c →
      ((machine cfg).exec (.accepted before) steps).queue = [] →
      ((machine cfg).exec (.accepted before) steps).books.get key = some r → r.baselined = true →
      c.seen.awaiting.get key = none →
      (BookAccumulator.new symbol).core.FitsAll
        (written key ((machine cfg).trace (.accepted before) steps)) →
      ((written key ((machine cfg).trace (.accepted before) steps)).foldl BookAccumulator.apply
          (.new symbol)).sameState r = true ∧
        ((written key ((machine cfg).trace (.accepted before) steps)).foldl BookAccumulator.apply
          (.new symbol)).pending = r.pending := by
  refine ⟨fun pre i post _ m hm hlive hkey => live_not_withheld cfg _ i key m hm hlive hkey, ?_⟩
  intro c r hc hq hr hbase hlive hfits
  exact (joined_run before symbol steps hmono hrun).arrived hc hq hr hbase hlive hfits

/-! ## One market of one venue -/

def one : F64 := ⟨0x3FF0000000000000⟩

/-- A level or an order of size one, at one. -/
def unitChange (action : BookAction) (id : Nat) : BookChange := ⟨action, .bid, one, one, id⟩

def marketBatch (orderLevel : Bool) (changes : List BookChange) (last : Bool) (recvTsNs : Nat) :
    NormalizedBook where
  venue := "V"
  sourceName := "V"
  sourceId := 1
  symbol := "S"
  channel := 0
  instrumentId := 7
  category := "c"
  orderLevel := orderLevel
  changes := changes
  batchId := none
  snapshot := false
  last := last
  sourceTsNs := 0
  recvTsNs := recvTsNs
  kernelRxTsNs := 0
  wsSendTsNs := 0

def sampleKey : BookKey := ⟨⟨1, "V"⟩, "c", 0, 7⟩

def instant : Moment := ⟨0, 0, 0, [sampleKey], List.nodup_singleton _⟩

def sampleConfig : WsConfig := ⟨1, 1, 1⟩

theorem inScope_unfiltered (hsubs : ∀ c, h.client = some c → c.subs = []) : InScope key h := by
  refine ⟨fun c r hc _ => ?_, fun c f hc _ _ => ?_⟩
  · unfold wanted
    rw [hsubs c hc]
    rfl
  · unfold passes
    rw [hsubs c hc]
    rfl

theorem contains_publish {k : BookKey} : ∀ (bs : List NormalizedBook) (books : BookSnapshot),
    (bs.foldl publishBook books).contains k = true → books.contains k = true ∨ ∃ b ∈ bs, marketOf b = k
  | [], _, hk => Or.inl hk
  | b :: bs, books, hk => by
    rcases contains_publish bs (publishBook books b) hk with hk | ⟨b', hb', hk⟩
    · by_cases hb : marketOf b = k
      · exact Or.inr ⟨b, List.mem_cons_self, hb⟩
      · left
        rw [FinMap.contains_eq_true] at hk ⊢
        rwa [publishBook, FinMap.get_insert_of_ne _ _ (Ne.symm hb)] at hk
    · exact Or.inr ⟨b', List.mem_cons_of_mem _ hb', hk⟩

/-- An event in two batches, the client connecting between them: it is withheld until the second, which is
written once more after the bootstrap that holds it. -/
def splitSteps : List Step :=
  [.publish (marketBatch false [BookAccumulator.clearBoth, unitChange .update 0] false 5) 0, .connect instant,
    .forward instant, .publish (marketBatch false [unitChange .update 0] true 6) 0, .forward instant]

theorem join_law_splitSteps :
    ∃ c r, ((machine sampleConfig).exec (.accepted []) splitSteps).client = some c ∧
      ((machine sampleConfig).exec (.accepted []) splitSteps).queue = [] ∧
      ((machine sampleConfig).exec (.accepted []) splitSteps).books.get sampleKey = some r ∧
      r.baselined = true ∧ c.seen.awaiting.get sampleKey = none ∧
      ((written sampleKey ((machine sampleConfig).trace (.accepted []) splitSteps)).foldl BookAccumulator.apply
        (.new "S")).sameState r = true ∧
      ((written sampleKey ((machine sampleConfig).trace (.accepted []) splitSteps)).foldl BookAccumulator.apply
        (.new "S")).pending = r.pending := by
  have hstamps : stampsOf sampleKey (published splitSteps) = [5, 6] := rfl
  have hmono : (stampsOf sampleKey ([] ++ published splitSteps)).Pairwise (· ≤ ·) := by
    rw [List.nil_append, hstamps]
    decide
  have hrun : (machine sampleConfig).Along (Orderly sampleConfig sampleKey) (.accepted []) splitSteps := by
    refine ⟨⟨inScope_unfiltered nofun, inScope_unfiltered nofun, trivial, trivial⟩,
      ⟨inScope_unfiltered nofun, inScope_unfiltered ?_, ?_, trivial⟩,
      ⟨inScope_unfiltered ?_, inScope_unfiltered ?_, trivial, ?_⟩,
      ⟨inScope_unfiltered ?_, inScope_unfiltered ?_, trivial, trivial⟩,
      ⟨inScope_unfiltered ?_, inScope_unfiltered ?_, trivial, ?_⟩, trivial⟩
    · rintro c ⟨⟩
      rfl
    · intro k hk
      obtain ⟨b, hb, rfl⟩ := (contains_publish [_] ∅ hk).resolve_left Bool.false_ne_true
      rw [List.mem_singleton.mp hb]
      exact List.mem_singleton_self _
    · rintro c ⟨⟩
      rfl
    · rintro c ⟨⟩
      rfl
    · rintro c ⟨⟩
      refine ⟨?_, nofun⟩
      rintro since ⟨⟩
      decide
    · rintro c ⟨⟩
      rfl
    · rintro c ⟨⟩
      rfl
    · rintro c ⟨⟩
      rfl
    · rintro c ⟨⟩
      rfl
    · rintro c ⟨⟩
      refine ⟨?_, nofun⟩
      rintro since ⟨⟩
      decide
  obtain ⟨-, hlaw⟩ := join_law sampleConfig sampleKey [] splitSteps hmono hrun "S"
  have hfits : (BookAccumulator.new "S").core.FitsAll
      (written sampleKey ((machine sampleConfig).trace (.accepted []) splitSteps)) := by
    refine fitsAll_of_prices rfl rfl fun b hb => ?_
    have hwritten : written sampleKey ((machine sampleConfig).trace (.accepted []) splitSteps) =
        [(((BookAccumulator.new "S").apply (marketBatch false [BookAccumulator.clearBoth, unitChange .update 0]
          false 5)).apply (marketBatch false [unitChange .update 0] true 6)).toBookScoped sampleKey .levels 0,
          marketBatch false [unitChange .update 0] true 6] := rfl
    rw [hwritten, List.mem_cons, List.mem_singleton] at hb
    rcases hb with rfl | rfl
    · simp [BookAccumulator.toBookScoped, BookChange.ofOrder, BookAccumulator.clearBoth]
    · rfl
  exact ⟨_, _, rfl, rfl, rfl, rfl, rfl, hlaw _ _ rfl rfl rfl rfl rfl hfits⟩

/-! ## The order cap -/

/-- What a client reads: an unfiltered client, a frame of a market that is not withheld. -/
theorem forward_unfiltered {books : BookSnapshot} {f : PreparedFrame} {wm : FinMap BookKey (Nat × Nat)}
    {aw : FinMap BookKey Nat} (hf : f.bookMarket = some key) (haw : aw.get key = none) (t : Moment) :
    (⟨[], ⟨wm, aw⟩, none, false⟩ : Client).forward cfg books f t =
      match wm.get key with
      | none => (⟨[], ⟨wm, aw⟩, none, false⟩, [⟨f.payload, some key, true⟩])
      | some (w, since) =>
        if f.recvTsNs < w ∧ t.now - since < cfg.bootstrapReleaseDeadline then (⟨[], ⟨wm, aw⟩, none, false⟩, [])
        else (⟨[], ⟨wm.erase key, aw⟩, none, false⟩, [⟨f.payload, some key, true⟩]) := by
  simp only [Client.forward, ClientBooks.forward, hf, ClientBooks.releaseWithheld, haw,
    ClientBooks.write, passes, List.isEmpty_nil, Bool.true_or, if_true, List.nil_append]
  cases wm.get key with
  | none => rfl
  | some v =>
    simp only
    split
    · rfl
    · rfl

/-! A run of batches alone. -/

theorem exec_publish : ∀ (bs : List NormalizedBook) (h : Hub),
    (machine cfg).exec h (bs.map (.publish · 0)) =
      ⟨bs.foldl publishBook h.books, h.queue ++ bs.map fun b => prepare (.book b) 0, h.client⟩
  | [], h => by
    rw [List.map_nil, List.map_nil, List.append_nil]
    rfl
  | b :: bs, h => by
    rw [List.map_cons, Machine.exec_cons, exec_publish bs]
    show (⟨_, h.queue ++ [prepare (.book b) 0] ++ bs.map fun b => prepare (.book b) 0, _⟩ : Hub) = _
    rw [List.append_assoc]
    rfl

theorem written_publish : ∀ (bs : List NormalizedBook) (h : Hub),
    written key ((machine cfg).trace h (bs.map (.publish · 0))) = []
  | [], _ => rfl
  | b :: bs, h => written_publish bs ((machine cfg).step h (.publish b 0)).1

theorem along_publish : ∀ (bs : List NormalizedBook) (h : Hub), h.client = none →
    (machine cfg).Along (Orderly cfg key) h (bs.map (.publish · 0))
  | [], _, _ => trivial
  | b :: bs, h, hc => by
    have hnone : ∀ c, h.client = some c → c.subs = [] := by
      intro c hsome
      rw [hc] at hsome
      cases hsome
    exact ⟨⟨inScope_unfiltered hnone, inScope_unfiltered hnone, trivial, trivial⟩, along_publish bs _ hc⟩

theorem entry_publish : ∀ (bs : List NormalizedBook) (books : BookSnapshot) (r : BookAccumulator),
    (∀ b ∈ bs, marketOf b = key) → books.get key = some r →
    (bs.foldl publishBook books).get key = some (bs.foldl BookAccumulator.apply r)
  | [], _, _, _, hr => hr
  | b :: bs, books, r, hkey, hr => by
    have hb := hkey b List.mem_cons_self
    refine entry_publish bs (publishBook books b) (r.apply b) (fun b' hb' => hkey b' (List.mem_cons_of_mem _ hb')) ?_
    unfold publishBook
    rw [hb, FinMap.get_insert_self, hr]
    rfl

theorem entry_published (b : NormalizedBook) (bs : List NormalizedBook)
    (hkey : ∀ b' ∈ b :: bs, marketOf b' = key) :
    ((b :: bs).foldl publishBook ∅).get key = some ((b :: bs).foldl BookAccumulator.apply (.new b.symbol)) := by
  rw [List.foldl_cons, List.foldl_cons]
  refine entry_publish bs _ _ (fun b' hb' => hkey b' (List.mem_cons_of_mem _ hb')) ?_
  unfold publishBook
  rw [hkey b List.mem_cons_self, FinMap.get_insert_self]
  rfl

section OrderCap

/-- One order of size one, at one. -/
def unitOrder : RestingOrder := ⟨true, fixedKey one, one, one⟩

def orderBatch (changes : List BookChange) (recvTsNs : Nat) : NormalizedBook :=
  marketBatch true changes true recvTsNs

/-- A book of `n` orders. -/
def crowd (n : Nat) : List BookChange :=
  BookAccumulator.clearBoth :: (List.range n).map fun i => unitChange .update (i + 1)

def crowdOrders (n : Nat) : FinMap Nat RestingOrder := .ofFun (Finset.Icc 1 n) fun _ => some unitOrder

theorem size_crowdOrders (n : Nat) : (crowdOrders n).size = n := by
  have hall : (Finset.Icc 1 n).filter (fun _ => (some unitOrder).isSome = true) = Finset.Icc 1 n :=
    Finset.filter_true_of_mem fun _ _ => rfl
  show ((Finset.Icc 1 n).filter fun _ => (some unitOrder).isSome = true).card = n
  rw [hall, Nat.card_Icc, Nat.add_sub_cancel]

theorem contains_crowdOrders {n id : Nat} (hid : n < id) : (crowdOrders n).contains id = false := by
  rw [FinMap.contains_eq_false]
  refine if_neg fun hmem => ?_
  have := (Finset.mem_Icc.mp hmem).2
  omega

theorem filedOrder_unitOrder {id : Nat} (hid : id ≠ 0) : FiledOrder id unitOrder := by
  have hkey : fixedKey unitOrder.price = unitOrder.key := by simp only [unitOrder]
  exact ⟨hid, hkey, by decide, by decide⟩

theorem foldChanges_crowd (r : Resting) (n : Nat) : r.foldChanges (crowd n) = ⟨∅, ∅, crowdOrders n⟩ := by
  have hlist : (List.range n).map (fun i => unitChange .update (i + 1)) =
      ((List.range n).map fun i => (i + 1, unitOrder)).map fun e =>
        ⟨.update, if e.2.isBid then .bid else .ask, e.2.price, e.2.size, e.1⟩ := by
    rw [List.map_map]
    rfl
  have hfiled : ∀ e ∈ (List.range n).map fun i => (i + 1, unitOrder), FiledOrder e.1 e.2 := by
    intro e he
    obtain ⟨i, -, rfl⟩ := List.mem_map.mp he
    exact filedOrder_unitOrder (Nat.succ_ne_zero i)
  have hrebuilt : ((List.range n).map fun i => (i + 1, unitOrder)).foldl (fun m e => m.insert e.1 e.2) ∅ =
      crowdOrders n := by
    refine FinMap.foldl_insert_eq fun id o => ?_
    simp only [crowdOrders, FinMap.get_ofFun, List.mem_map, List.mem_range, Prod.mk.injEq, Finset.mem_Icc,
      Option.ite_none_right_eq_some, Option.some.injEq]
    constructor
    · rintro ⟨i, hi, rfl, rfl⟩
      exact ⟨⟨Nat.succ_pos i, hi⟩, rfl⟩
    · rintro ⟨hid, rfl⟩
      exact ⟨id - 1, by omega, by omega, rfl⟩
  show (r.applyChange BookAccumulator.clearBoth).foldChanges _ = _
  rw [Resting.applyChange_clearBoth, hlist, Resting.foldChanges_orders _ _ hfiled]
  exact congrArg (Resting.mk ∅ ∅) hrebuilt

theorem feed_crowd (e : EventBook) (hp : e.pending = []) {n : Nat} (hn : n ≤ MAX_ACCUMULATED_ORDERS) :
    e.feed (crowd n) true = ⟨⟨∅, ∅, crowdOrders n⟩, [], true⟩ := by
  have hfinite : (crowd n).filter BookChange.isFinite = crowd n := by
    refine List.filter_eq_self.mpr fun c hc => ?_
    rcases List.mem_cons.mp hc with rfl | hc
    · rfl
    · obtain ⟨i, -, rfl⟩ := List.mem_map.mp hc
      rfl
  have hclears : clearedSides (crowd n) = (true, true) := clearedSides_of_mem List.mem_cons_self
  have hsize : (crowdOrders n).size ≤ MAX_ACCUMULATED_ORDERS := (size_crowdOrders n).symm ▸ hn
  unfold EventBook.feed
  simp only [hp, List.nil_append, hfinite, if_true, foldChanges_crowd, hclears, decide_true, Bool.or_true,
    Bool.true_and]
  rw [bound_eq hsize, decide_eq_true hsize]

/-- One order is set, or goes. -/
theorem feed_unitChange (m : FinMap Nat RestingOrder) (complete : Bool) {id : Nat} (hid : id ≠ 0) :
    (⟨⟨∅, ∅, m⟩, [], complete⟩ : EventBook).feed [unitChange .update id] true =
        ⟨bound ⟨∅, ∅, m.insert id unitOrder⟩, [],
          complete && decide ((m.insert id unitOrder).size ≤ MAX_ACCUMULATED_ORDERS)⟩ ∧
      (⟨⟨∅, ∅, m⟩, [], complete⟩ : EventBook).feed [unitChange .delete id] true =
        ⟨bound ⟨∅, ∅, m.erase id⟩, [], complete && decide ((m.erase id).size ≤ MAX_ACCUMULATED_ORDERS)⟩ := by
  have hset : (⟨∅, ∅, m⟩ : Resting).foldChanges [unitChange .update id] = ⟨∅, ∅, m.insert id unitOrder⟩ :=
    Resting.applyChange_order (filedOrder_unitOrder hid)
  have hdrop : (⟨∅, ∅, m⟩ : Resting).foldChanges [unitChange .delete id] = ⟨∅, ∅, m.erase id⟩ := by
    show (⟨∅, ∅, m⟩ : Resting).applyChange (unitChange .delete id) = _
    unfold Resting.applyChange
    exact if_pos hid
  refine ⟨?_, ?_⟩
  · show (⟨bound ((⟨∅, ∅, m⟩ : Resting).foldChanges [unitChange .update id]), [],
      (complete || false) && decide (((⟨∅, ∅, m⟩ : Resting).foldChanges [unitChange .update id]).orders.size ≤
        MAX_ACCUMULATED_ORDERS)⟩ : EventBook) = _
    rw [hset, Bool.or_false]
  · show (⟨bound ((⟨∅, ∅, m⟩ : Resting).foldChanges [unitChange .delete id]), [],
      (complete || false) && decide (((⟨∅, ∅, m⟩ : Resting).foldChanges [unitChange .delete id]).orders.size ≤
        MAX_ACCUMULATED_ORDERS)⟩ : EventBook) = _
    rw [hdrop, Bool.or_false]

/-- A market one order short of the cap; three batches of one datagram set an order, drop it and set another. -/
def crowdedBatches (n : Nat) : List NormalizedBook :=
  [orderBatch (crowd n) 5, orderBatch [unitChange .update (n + 1)] 6,
    orderBatch [unitChange .delete (n + 1)] 6, orderBatch [unitChange .update (n + 2)] 6]

/-- The client connects after all four, with all four to read. -/
def crowdedSteps (n : Nat) : List Step :=
  (crowdedBatches n).map (.publish · 0) ++ .connect instant :: List.replicate 4 (.forward instant)

def crowdedEntry (n : Nat) : BookAccumulator := (crowdedBatches n).foldl BookAccumulator.apply (.new "S")

variable {n : Nat}

theorem crowdedEntry_core (hn : n + 1 = MAX_ACCUMULATED_ORDERS) :
    (crowdedEntry n).core = ⟨⟨∅, ∅, (crowdOrders n).insert (n + 2) unitOrder⟩, [], true⟩ := by
  have hsize : ∀ id, n < id → ((crowdOrders n).insert id unitOrder).size ≤ MAX_ACCUMULATED_ORDERS := by
    intro id hid
    rw [FinMap.size_insert, contains_crowdOrders hid, size_crowdOrders]
    exact Nat.le_of_eq hn
  have herase : ((crowdOrders n).insert (n + 1) unitOrder).erase (n + 1) = crowdOrders n := by
    ext1 id
    rw [FinMap.get_erase, FinMap.get_insert]
    split
    · rename_i hid
      have hout : (crowdOrders n).contains id = false := contains_crowdOrders (by omega)
      exact (FinMap.contains_eq_false.mp hout).symm
    · rfl
  have hcrowd : (crowdOrders n).size ≤ MAX_ACCUMULATED_ORDERS := by
    rw [size_crowdOrders]
    omega
  unfold crowdedEntry
  rw [core_applyAll]
  show (((EventBook.feed _ (crowd n) true).feed [unitChange .update (n + 1)] true).feed
    [unitChange .delete (n + 1)] true).feed [unitChange .update (n + 2)] true = _
  rw [feed_crowd _ rfl (by omega), (feed_unitChange _ _ (Nat.succ_ne_zero _)).1, bound_eq (hsize _ (by omega)),
    decide_eq_true (hsize _ (by omega)), (feed_unitChange _ _ (Nat.succ_ne_zero _)).2, herase, bound_eq hcrowd,
    decide_eq_true hcrowd, (feed_unitChange _ _ (Nat.succ_ne_zero _)).1, bound_eq (hsize _ (by omega)),
    decide_eq_true (hsize _ (by omega))]
  rfl

theorem applyAll_valid : ∀ (bs : List NormalizedBook) {a : BookAccumulator}, a.Valid ∧ a.Tagged →
    (bs.foldl BookAccumulator.apply a).Valid ∧ (bs.foldl BookAccumulator.apply a).Tagged
  | [], _, h => h
  | b :: bs, _, h => applyAll_valid bs ⟨h.1.apply b, h.2.apply b⟩

theorem marketOf_orderBatch (changes : List BookChange) (recvTsNs : Nat) :
    marketOf (orderBatch changes recvTsNs) = sampleKey := rfl

theorem crowded_entry (n : Nat) :
    ((crowdedBatches n).foldl publishBook ∅).get sampleKey = some (crowdedEntry n) := by
  have hkey : ∀ b ∈ crowdedBatches n, marketOf b = sampleKey := by
    intro b hb
    simp only [crowdedBatches, List.mem_cons, List.not_mem_nil, or_false] at hb
    rcases hb with rfl | rfl | rfl | rfl
    all_goals exact marketOf_orderBatch _ _
  unfold crowdedEntry crowdedBatches at *
  exact entry_published _ _ hkey

def crowdedBooks (n : Nat) : BookSnapshot := (crowdedBatches n).foldl publishBook ∅

def crowdedMark : FinMap BookKey (Nat × Nat) := (∅ : FinMap BookKey (Nat × Nat)).insert sampleKey (6, 0)

/-- The client, connected. -/
def crowdedClient (wm : FinMap BookKey (Nat × Nat)) : Client :=
  ⟨[], ⟨wm, (∅ : FinMap BookKey Nat).erase sampleKey⟩, none, false⟩

theorem crowded_connect (hn : n + 1 = MAX_ACCUMULATED_ORDERS) : Client.connect (crowdedBooks n) instant =
    (crowdedClient crowdedMark, [⟨bootstrap (crowdedEntry n) sampleKey 0, some sampleKey, false⟩]) := by
  have hcore := crowdedEntry_core hn
  have hbase : (crowdedEntry n).baselined = true := congrArg EventBook.complete hcore
  have hpending : (crowdedEntry n).pendingEmpty = true := List.isEmpty_iff.mpr (congrArg EventBook.pending hcore)
  have hwire : (crowdedEntry n).wireTsNs = 6 := rfl
  have hwanted : wanted [] sampleKey (crowdedEntry n) = true := rfl
  simp only [Client.connect, Client.replay, ClientBooks.replayScoped, ClientBooks.replayMarket, instant,
    crowdedBooks, crowded_entry, hwanted, hbase, hpending, Bool.not_true, Bool.or_false, Bool.false_eq_true,
    if_false, ClientBooks.bootstrapped, hwire, List.append_nil]
  rfl

section Forward

variable (n : Nat) (changes : List BookChange)

theorem crowded_stale : (crowdedClient crowdedMark).forward sampleConfig (crowdedBooks n)
    (prepare (.book (orderBatch changes 5)) 0) instant = (crowdedClient crowdedMark, []) := by
  have hmark : crowdedMark.get sampleKey = some (6, 0) := FinMap.get_insert_self _ _ _
  have hmarket : (prepare (.book (orderBatch changes 5)) 0).bookMarket = some sampleKey := rfl
  refine (forward_unfiltered hmarket (FinMap.get_erase_self _ _) instant).trans ?_
  rw [hmark]
  exact if_pos (show 5 < 6 ∧ 0 - 0 < 1 by decide)

theorem crowded_tie : (crowdedClient crowdedMark).forward sampleConfig (crowdedBooks n)
    (prepare (.book (orderBatch changes 6)) 0) instant = (crowdedClient (crowdedMark.erase sampleKey),
      [⟨(prepare (.book (orderBatch changes 6)) 0).payload, some sampleKey, true⟩]) := by
  have hmark : crowdedMark.get sampleKey = some (6, 0) := FinMap.get_insert_self _ _ _
  have hmarket : (prepare (.book (orderBatch changes 6)) 0).bookMarket = some sampleKey := rfl
  refine (forward_unfiltered hmarket (FinMap.get_erase_self _ _) instant).trans ?_
  rw [hmark]
  exact if_neg (show ¬ (6 < 6 ∧ 0 - 0 < 1) by decide)

theorem crowded_next : (crowdedClient (crowdedMark.erase sampleKey)).forward sampleConfig (crowdedBooks n)
    (prepare (.book (orderBatch changes 6)) 0) instant = (crowdedClient (crowdedMark.erase sampleKey),
      [⟨(prepare (.book (orderBatch changes 6)) 0).payload, some sampleKey, true⟩]) := by
  have hmark : (crowdedMark.erase sampleKey).get sampleKey = none := FinMap.get_erase_self _ _
  have hmarket : (prepare (.book (orderBatch changes 6)) 0).bookMarket = some sampleKey := rfl
  refine (forward_unfiltered hmarket (FinMap.get_erase_self _ _) instant).trans ?_
  rw [hmark]
  rfl

end Forward

/-- The hub with the client connected. -/
def crowdedHub (n : Nat) (q : List NormalizedBook) (wm : FinMap BookKey (Nat × Nat)) : Hub :=
  ⟨crowdedBooks n, q.map fun b => prepare (.book b) 0, some (crowdedClient wm)⟩

theorem hub_connect (hn : n + 1 = MAX_ACCUMULATED_ORDERS) :
    (⟨crowdedBooks n, (crowdedBatches n).map fun b => prepare (.book b) 0, none⟩ : Hub).step sampleConfig
        (.connect instant) =
      (crowdedHub n (crowdedBatches n) crowdedMark,
        [⟨bootstrap (crowdedEntry n) sampleKey 0, some sampleKey, false⟩]) := by
  show ((⟨_, _, some (Client.connect (crowdedBooks n) instant).1⟩, (Client.connect (crowdedBooks n) instant).2) :
    Hub × List Sent) = _
  rw [crowded_connect hn]
  rfl

theorem hub_forward {n : Nat} {b : NormalizedBook} {wm wm' : FinMap BookKey (Nat × Nat)} {out : List Sent}
    (h : (crowdedClient wm).forward sampleConfig (crowdedBooks n) (prepare (.book b) 0) instant =
      (crowdedClient wm', out)) (q : List NormalizedBook) :
    (crowdedHub n (b :: q) wm).step sampleConfig (.forward instant) = (crowdedHub n q wm', out) := by
  show ((⟨_, _, some ((crowdedClient wm).forward sampleConfig (crowdedBooks n) (prepare (.book b) 0) instant).1⟩,
    ((crowdedClient wm).forward sampleConfig (crowdedBooks n) (prepare (.book b) 0) instant).2) :
      Hub × List Sent) = _
  rw [h]
  rfl

/-- The first frame is older than the bootstrap, the second consumes the watermark. -/
theorem crowded_forwards (n : Nat) :
    (machine sampleConfig).exec (crowdedHub n (crowdedBatches n) crowdedMark)
        (List.replicate 4 (.forward instant)) = crowdedHub n [] (crowdedMark.erase sampleKey) ∧
      written sampleKey ((machine sampleConfig).trace (crowdedHub n (crowdedBatches n) crowdedMark)
        (List.replicate 4 (.forward instant))) = (crowdedBatches n).tail := by
  simp only [List.replicate, Machine.exec_cons, Machine.exec_nil, Machine.trace_cons, Machine.trace_nil, machine,
    crowdedBatches, List.tail_cons, hub_forward (crowded_stale n _), hub_forward (crowded_tie n _),
    hub_forward (crowded_next n _)]
  exact ⟨trivial, rfl⟩

/-- An unfiltered client whose watermark was set just now may read. -/
theorem crowded_orderly (n : Nat) (q : List NormalizedBook) {wm : FinMap BookKey (Nat × Nat)}
    (hwm : ∀ w since, wm.get sampleKey = some (w, since) → since = 0) {q' : List NormalizedBook}
    {wm' : FinMap BookKey (Nat × Nat)}
    (hnext : ((crowdedHub n q wm).step sampleConfig (.forward instant)).1 = crowdedHub n q' wm') :
    Orderly sampleConfig sampleKey (crowdedHub n q wm) (.forward instant) := by
  have hsubs : ∀ (q : List NormalizedBook) (wm : FinMap BookKey (Nat × Nat)),
      ∀ c, (crowdedHub n q wm).client = some c → c.subs = [] := by
    rintro q wm c ⟨⟩
    rfl
  refine ⟨inScope_unfiltered (hsubs q wm), inScope_unfiltered (hnext ▸ hsubs q' wm'), trivial, fun c hc => ?_⟩
  cases hc
  refine ⟨fun since hs => ?_, fun w since hw => ?_⟩
  · rw [show (crowdedClient wm).seen.awaiting.get sampleKey = none from FinMap.get_erase_self _ _] at hs
    cases hs
  · rw [hwm w since hw]
    decide

theorem crowded_along (n : Nat) : (machine sampleConfig).Along (Orderly sampleConfig sampleKey)
    (crowdedHub n (crowdedBatches n) crowdedMark) (List.replicate 4 (.forward instant)) := by
  have hmark : ∀ w since, crowdedMark.get sampleKey = some (w, since) → since = 0 := by
    intro w since hw
    rw [show crowdedMark.get sampleKey = some (6, 0) from FinMap.get_insert_self _ _ _] at hw
    cases hw
    rfl
  have herased : ∀ w since, (crowdedMark.erase sampleKey).get sampleKey = some (w, since) → since = 0 := by
    intro w since hw
    rw [FinMap.get_erase_self] at hw
    cases hw
  have hstale := hub_forward (crowded_stale n (crowd n)) (crowdedBatches n).tail
  have htie := hub_forward (crowded_tie n [unitChange .update (n + 1)]) (crowdedBatches n).tail.tail
  have hnext := hub_forward (crowded_next n [unitChange .delete (n + 1)]) (crowdedBatches n).tail.tail.tail
  have hlast := hub_forward (crowded_next n [unitChange .update (n + 2)]) []
  refine ⟨crowded_orderly n _ hmark (congrArg Prod.fst hstale), ?_⟩
  rw [show ((machine sampleConfig).step (crowdedHub n (crowdedBatches n) crowdedMark) (.forward instant)).1 =
    crowdedHub n (crowdedBatches n).tail crowdedMark from congrArg Prod.fst hstale]
  refine ⟨crowded_orderly n _ hmark (congrArg Prod.fst htie), ?_⟩
  rw [show ((machine sampleConfig).step (crowdedHub n (crowdedBatches n).tail crowdedMark) (.forward instant)).1 =
    crowdedHub n (crowdedBatches n).tail.tail (crowdedMark.erase sampleKey) from congrArg Prod.fst htie]
  refine ⟨crowded_orderly n _ herased (congrArg Prod.fst hnext), ?_⟩
  rw [show ((machine sampleConfig).step (crowdedHub n (crowdedBatches n).tail.tail (crowdedMark.erase sampleKey))
    (.forward instant)).1 = crowdedHub n (crowdedBatches n).tail.tail.tail (crowdedMark.erase sampleKey) from
      congrArg Prod.fst hnext]
  exact ⟨crowded_orderly n _ herased (congrArg Prod.fst hlast), trivial⟩

/-- The client's book of what it was written: past the cap on the way, it loses its orders. -/
theorem crowded_reader (hn : n + 1 = MAX_ACCUMULATED_ORDERS) (e : EventBook) :
    (e.feedAll ((crowdedEntry n).toBookScoped sampleKey (bookScope (crowdedEntry n)) 0 ::
      (crowdedBatches n).tail)).rests.orders = (∅ : FinMap Nat RestingOrder).insert (n + 2) unitOrder := by
  obtain ⟨hv, ht⟩ : (crowdedEntry n).Valid ∧ (crowdedEntry n).Tagged :=
    applyAll_valid (crowdedBatches n) ⟨.new "S", .new "S"⟩
  have hboot : e.feed ((crowdedEntry n).toBookScoped sampleKey (bookScope (crowdedEntry n)) 0).changes
      ((crowdedEntry n).toBookScoped sampleKey (bookScope (crowdedEntry n)) 0).last =
        ⟨⟨∅, ∅, (crowdOrders n).insert (n + 2) unitOrder⟩, [], true⟩ := by
    rw [BookAccumulator.toBookScoped_changes ht, BookAccumulator.toBookScoped_last, EventBook.feed_toBook hv]
    have hrests : (crowdedEntry n).toResting = _ := congrArg EventBook.rests (crowdedEntry_core hn)
    rw [hrests]
  have hover : ¬ (((crowdOrders n).insert (n + 2) unitOrder).insert (n + 1) unitOrder).size ≤
      MAX_ACCUMULATED_ORDERS := by
    have hout : ((crowdOrders n).insert (n + 2) unitOrder).contains (n + 1) = false := by
      rw [FinMap.contains_eq_false, FinMap.get_insert_of_ne _ _ (by omega)]
      exact FinMap.contains_eq_false.mp (contains_crowdOrders (Nat.lt_succ_self n))
    rw [FinMap.size_insert, hout, FinMap.size_insert, contains_crowdOrders (by omega), size_crowdOrders]
    simp only [Bool.false_eq_true, if_false]
    omega
  have hlost : ∀ complete, (⟨⟨∅, ∅, (crowdOrders n).insert (n + 2) unitOrder⟩, [], complete⟩ : EventBook).feed
      [unitChange .update (n + 1)] true = ⟨⟨∅, ∅, ∅⟩, [], false⟩ := by
    intro complete
    rw [(feed_unitChange _ _ (Nat.succ_ne_zero _)).1, decide_eq_false hover, Bool.and_false]
    unfold bound
    rw [if_pos (Nat.lt_of_not_le hover)]
  have hempty : (∅ : FinMap Nat RestingOrder).erase (n + 1) = ∅ := by
    ext1 id
    rw [FinMap.get_erase, FinMap.get_empty, ite_self]
  have hone : ((∅ : FinMap Nat RestingOrder).insert (n + 2) unitOrder).size ≤ MAX_ACCUMULATED_ORDERS := by
    rw [FinMap.size_insert, FinMap.contains_eq_false.mpr (FinMap.get_empty _), FinMap.size_empty]
    simp only [Bool.false_eq_true, if_false]
    omega
  show ((((e.feed _ _).feed [unitChange .update (n + 1)] true).feed [unitChange .delete (n + 1)] true).feed
    [unitChange .update (n + 2)] true).rests.orders = _
  rw [hboot, hlost, (feed_unitChange _ _ (Nat.succ_ne_zero _)).2, hempty, bound_eq (Nat.zero_le _),
    (feed_unitChange _ _ (Nat.succ_ne_zero _)).1, bound_eq hone]

/-- The client's bootstrap and the three batches that tie with it do not build the market's book. -/
theorem crowded_differs (hn : n + 1 = MAX_ACCUMULATED_ORDERS) :
    (((heard sampleKey [⟨bootstrap (crowdedEntry n) sampleKey 0, some sampleKey, false⟩]) ++
      (crowdedBatches n).tail).foldl BookAccumulator.apply (.new "S")).sameState (crowdedEntry n) = false := by
  have hboot : heard sampleKey [⟨bootstrap (crowdedEntry n) sampleKey 0, some sampleKey, false⟩] =
      [(crowdedEntry n).toBookScoped sampleKey (bookScope (crowdedEntry n)) 0] := by
    simp only [heard, List.filterMap_cons, if_true, bootstrap_batch, List.filterMap_nil]
  rw [hboot, ← Bool.not_eq_true, BookAccumulator.sameState_iff]
  intro hsame
  have hreader := crowded_reader hn (BookAccumulator.new "S").core
  rw [← core_applyAll] at hreader
  have hentry : (crowdedEntry n).orders = (crowdOrders n).insert (n + 2) unitOrder :=
    congrArg (fun e : EventBook => e.rests.orders) (crowdedEntry_core hn)
  have horders : (∅ : FinMap Nat RestingOrder).insert (n + 2) unitOrder =
      (crowdOrders n).insert (n + 2) unitOrder :=
    hreader.symm.trans ((congrArg Resting.orders hsame).trans hentry)
  have hsize := congrArg FinMap.size horders
  rw [FinMap.size_insert, FinMap.size_insert, contains_crowdOrders (by omega), size_crowdOrders,
    FinMap.contains_eq_false.mpr (FinMap.get_empty _), FinMap.size_empty] at hsize
  simp only [Bool.false_eq_true, if_false, MAX_ACCUMULATED_ORDERS] at hsize hn
  omega

theorem crowded_contains (k : BookKey) (hk : (crowdedBooks n).contains k = true) : k ∈ instant.iter := by
  obtain ⟨b, hb, rfl⟩ := (contains_publish (crowdedBatches n) ∅ hk).resolve_left Bool.false_ne_true
  simp only [crowdedBatches, List.mem_cons, List.not_mem_nil, or_false] at hb
  rcases hb with rfl | rfl | rfl | rfl
  all_goals exact List.mem_singleton_self _

theorem crowded_diverges (hn : n + 1 = MAX_ACCUMULATED_ORDERS) :
    (machine sampleConfig).Along (Orderly sampleConfig sampleKey) (.accepted []) (crowdedSteps n) ∧
    (machine sampleConfig).exec (.accepted []) (crowdedSteps n) = crowdedHub n [] (crowdedMark.erase sampleKey) ∧
    ((written sampleKey ((machine sampleConfig).trace (.accepted []) (crowdedSteps n))).foldl BookAccumulator.apply
      (.new "S")).sameState (crowdedEntry n) = false := by
  have hpublished : (machine sampleConfig).exec (.accepted []) ((crowdedBatches n).map (.publish · 0)) =
      ⟨crowdedBooks n, (crowdedBatches n).map fun b => prepare (.book b) 0, none⟩ :=
    exec_publish (crowdedBatches n) (.accepted [])
  have hconnect := hub_connect hn
  have hstep : (machine sampleConfig).step ⟨crowdedBooks n, (crowdedBatches n).map fun b => prepare (.book b) 0,
      none⟩ (.connect instant) = _ := hconnect
  obtain ⟨hexec, hwritten⟩ := crowded_forwards n
  have hafter : ∀ c, (crowdedHub n (crowdedBatches n) crowdedMark).client = some c → c.subs = [] := by
    rintro c ⟨⟩
    rfl
  unfold crowdedSteps
  rw [Machine.along_append, Machine.exec_append, Machine.trace_append, written_append, written_publish, hpublished]
  refine ⟨⟨along_publish _ _ rfl, ⟨inScope_unfiltered nofun, ?_, crowded_contains, trivial⟩, ?_⟩, ?_, ?_⟩
  · rw [hconnect]
    exact inScope_unfiltered hafter
  · rw [hstep]
    exact crowded_along n
  · rw [Machine.exec_cons, hstep]
    exact hexec
  · rw [Machine.trace_cons, hstep, written_cons]
    simp only
    rw [hwritten]
    exact crowded_differs hn

/-- **Batches that tie with a bootstrap are written again, and a market at the order cap passes it on the way.**
Every step of the run is orderly, yet its client ends with one order where the market has
`MAX_ACCUMULATED_ORDERS`. -/
theorem join_overflows_the_order_cap :
    (stampsOf sampleKey (published (crowdedSteps (MAX_ACCUMULATED_ORDERS - 1)))).Pairwise (· ≤ ·) ∧
    (machine sampleConfig).Along (Orderly sampleConfig sampleKey) (.accepted [])
      (crowdedSteps (MAX_ACCUMULATED_ORDERS - 1)) ∧
    ∃ c r, ((machine sampleConfig).exec (.accepted []) (crowdedSteps (MAX_ACCUMULATED_ORDERS - 1))).client = some c ∧
      ((machine sampleConfig).exec (.accepted []) (crowdedSteps (MAX_ACCUMULATED_ORDERS - 1))).queue = [] ∧
      ((machine sampleConfig).exec (.accepted []) (crowdedSteps (MAX_ACCUMULATED_ORDERS - 1))).books.get
        sampleKey = some r ∧ r.baselined = true ∧ c.seen.awaiting.get sampleKey = none ∧
      ((written sampleKey ((machine sampleConfig).trace (.accepted [])
        (crowdedSteps (MAX_ACCUMULATED_ORDERS - 1)))).foldl BookAccumulator.apply (.new "S")).sameState r = false := by
  have hn : MAX_ACCUMULATED_ORDERS - 1 + 1 = MAX_ACCUMULATED_ORDERS := by decide
  generalize MAX_ACCUMULATED_ORDERS - 1 = n at hn ⊢
  have hstamps : stampsOf sampleKey (published (crowdedSteps n)) = [5, 6, 6, 6] := rfl
  obtain ⟨halong, hexec, hdiffer⟩ := crowded_diverges hn
  have hbase : (crowdedEntry n).baselined = true := congrArg EventBook.complete (crowdedEntry_core hn)
  rw [hstamps, hexec]
  exact ⟨by decide, halong, _, crowdedEntry n, rfl, rfl, crowded_entry n, hbase, FinMap.get_erase_self _ _, hdiffer⟩

end OrderCap

end Ws

end EdgeConnect
