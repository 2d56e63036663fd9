import EdgeConnect.Sinks.WsJoin

/-!
# What a join watermark drops

A batch is applied to the replay map and then broadcast, one at a time; the client bootstraps and reads between any
two of these.  Batches of one market come from several publishers, each stamped on its own arrival.

* `Line`, `Move` — the replay map, the batch being sent, and one client's queue and connection;
* `Watch`, `watch` — a line, with what happened to one market: its batches in the order they were applied, how many of
  them have left the client's queue, and what the bootstrap that set the watermark in force was taken of;
* `InOrder` — no batch is stamped earlier than a book of the market that a bootstrap could have been taken of;
* `Sound` — what every step in order keeps;
* `watermark_drops_the_past` — a frame dropped by the watermark had been folded into that bootstrap, or passed over by a
  batch that was, and had been broadcast before it.
-/

set_option autoImplicit false

namespace EdgeConnect.Ws.Watermark

/-! ## The line -/

/-- `sending` is the batch that has been applied and not broadcast yet: the arbiter's lock is held for both.  The
client's receiver is subscribed when it is accepted, before it reads any cache. -/
structure Line where
  books : BookSnapshot
  sending : Option NormalizedBook
  queue : Option (List PreparedFrame)
  client : Option Client

inductive Move where
  | apply (b : NormalizedBook)
  | broadcast (now : Nat)
  | evict (key : BookKey)
  | accept
  | connect (t : Moment)
  | subscribe (f : SubFilter) (t : Moment)
  | unsubscribe (f : SubFilter) (t : Moment)
  | lagged (n : Nat)
  | repair (t : Moment)
  | sweep (t : Moment)
  | forward (t : Moment)

namespace Line

def start : Line := ⟨∅, none, none, none⟩

/-- The client takes a step of its own. -/
def turn (l : Line) (act : Client → Client × List Sent) : Line × List Sent :=
  match l.client with
  | none => (l, [])
  | some c =>
    let (c, out) := act c
    ({ l with client := some c }, out)

def apply (l : Line) (b : NormalizedBook) : Line :=
  match l.sending with
  | some _ => l
  | none => { l with books := publishBook l.books b, sending := some b }

def broadcast (l : Line) (now : Nat) : Line :=
  match l.sending with
  | none => l
  | some b => { l with sending := none, queue := l.queue.map fun q => q ++ [prepare (.book b) now] }

/-- The connect-time replay, once, of a client that has been accepted. -/
def connect (l : Line) (t : Moment) : Line × List Sent :=
  match l.queue, l.client with
  | some _, none =>
    let (c, out) := Client.connect l.books t
    ({ l with client := some c }, out)
  | _, _ => (l, [])

/-- The client finds that its oldest frames are gone. -/
def lagged (l : Line) (n : Nat) : Line :=
  match l.client with
  | none => l
  | some c => { l with queue := l.queue.map fun q => q.drop n, client := some c.lagged }

/-- The client reads the head of its queue. -/
def forward (cfg : WsConfig) (l : Line) (t : Moment) : Line × List Sent :=
  match l.client, l.queue with
  | some c, some (f :: q) =>
    let (c, out) := c.forward cfg l.books f t
    ({ l with client := some c, queue := some q }, out)
  | _, _ => (l, [])

def step (cfg : WsConfig) (l : Line) : Move → Line × List Sent
  | .apply b => (l.apply b, [])
  | .broadcast now => (l.broadcast now, [])
  | .evict key => ({ l with books := l.books.erase key }, [])
  | .accept => ({ l with queue := some (l.queue.getD []) }, [])
  | .connect t => l.connect t
  | .subscribe f t => l.turn fun c => c.subscribe cfg l.books f t
  | .unsubscribe f t => l.turn fun c => c.unsubscribe l.books f t
  | .lagged n => (l.lagged n, [])
  | .repair t => l.turn fun c => c.repair cfg l.books t
  | .sweep t => l.turn fun c => c.sweep cfg l.books t
  | .forward t => l.forward cfg t

end Line

/-! ## One market of a line -/

/-- `log` are the market's batches in the order they were applied, `read` the place in it of the first that has not left
the client's queue.  `offered` is the newest stamp of a book of the market that a bootstrap could be taken of, and
`taken` how many batches had been applied, and broadcast, when the watermark in force was set. -/
structure Watch where
  line : Line
  log : List NormalizedBook
  read : Nat
  offered : Nat
  taken : Option (Nat × Nat)

/-- Whether a bootstrap of the market is among the messages written. -/
def gave (key : BookKey) (out : List Sent) : Bool := out.any fun m => m.market = some key && !m.live

namespace Watch

/-- The market's batch that is being sent. -/
def sending (key : BookKey) (w : Watch) : List NormalizedBook :=
  w.line.sending.toList.filter fun b => marketOf b = key

def sent (key : BookKey) (w : Watch) : Nat := w.log.length - (w.sending key).length

/-- The market's accumulator once the batch is applied to it. -/
def applied (w : Watch) (b : NormalizedBook) : BookAccumulator :=
  ((w.line.books.get (marketOf b)).getD (.new b.symbol)).apply b

/-- The stamp of the newest book a bootstrap could be taken of, the one the batch leaves included. -/
def offeredWith (w : Watch) (b : NormalizedBook) : Nat :=
  max w.offered (if (w.applied b).baselined then (w.applied b).wireTsNs else 0)

/-- A batch of the market is noted as it is applied. -/
def note (key : BookKey) (w : Watch) : Move → Watch
  | .apply b =>
    if w.line.sending.isNone ∧ marketOf b = key then { w with log := w.log ++ [b], offered := w.offeredWith b } else w
  | _ => w

/-- The place of the client's next frame. -/
def next (key : BookKey) (w : Watch) : Move → Nat
  | .accept => if w.line.queue.isNone then w.sent key else w.read
  | .lagged n => if w.line.client.isSome then w.read + (framesOf key ((w.line.queue.getD []).take n)).length else w.read
  | .forward _ => if w.line.client.isSome then w.read + (framesOf key ((w.line.queue.getD []).take 1)).length else w.read
  | _ => w.read

/-- A bootstrap with a stamp sets the watermark. -/
def marks (key : BookKey) (w : Watch) (out : List Sent) : Bool :=
  gave key out && (w.line.books.get key).any fun acc => acc.wireTsNs ≠ 0

end Watch

def watch (cfg : WsConfig) (key : BookKey) : Machine Watch Move (List Sent) where
  step w i :=
    let r := w.line.step cfg i
    ({ w.note key i with
        line := r.1
        read := w.next key i
        taken := if w.marks key r.2 then some (w.log.length, w.sent key) else w.taken }, r.2)

def start : Watch := ⟨.start, [], 0, 0, none⟩

/-! ## The property and its condition -/

/-- The frame the client is about to read is one of the market, is not withheld, and is older than the watermark. -/
def Drops (cfg : WsConfig) (key : BookKey) (w : Watch) (t : Moment) (f : PreparedFrame) : Prop :=
  ∃ c q, w.line.client = some c ∧ w.line.queue = some (f :: q) ∧ f.bookMarket = some key ∧
    let r := c.seen.releaseWithheld w.line.books c.subs cfg.bootstrapReleaseDeadline t.now t.wall key
    r.2.2 = false ∧ ∃ mark since, r.1.watermarks.get key = some (mark, since) ∧
      f.recvTsNs < mark ∧ t.now - since < cfg.bootstrapReleaseDeadline

/-- The batch at a place, or one after it, closed an event among the first `n`. -/
def Folded (log : List NormalizedBook) (n i : Nat) : Prop :=
  ∃ k b, i ≤ k ∧ k < n ∧ log[k]? = some b ∧ b.last = true

/-- A frame the watermark drops is the client's next batch of the market; when the bootstrap that set the watermark was
taken, that batch or a later one had been folded in, and that batch had been broadcast. -/
def DropsThePast (cfg : WsConfig) (key : BookKey) (w : Watch) : Move → Prop
  | .forward t => ∀ f, Drops cfg key w t f →
    (∃ b now, w.log[w.read]? = some b ∧ f = prepare (.book b) now) ∧
      ∃ n s, ((watch cfg key).step w (.forward t)).1.taken = some (n, s) ∧ Folded w.log n w.read ∧ w.read < s
  | _ => True

/-- A batch of the market is not stamped earlier than a book of it that a bootstrap could have been taken of, up to the
one the batch itself leaves. -/
def InOrder (key : BookKey) (w : Watch) : Move → Prop
  | .apply b => w.line.sending = none → marketOf b = key → w.offeredWith b ≤ b.recvTsNs
  | _ => True


variable {cfg : WsConfig} {key k : BookKey} {books : BookSnapshot} {subs : List SubFilter}
  {deadline now wall : Nat} {seen seen' : ClientBooks} {out out' : List Sent} {w : Watch}

/-! ## Bootstraps and watermarks -/

theorem gave_append (key : BookKey) (out out' : List Sent) : gave key (out ++ out') = (gave key out || gave key out') :=
  List.any_append

variable (books key) in
/-- A bootstrap of the market sets its watermark, to the stamp of the book it is taken of; nothing else does. -/
def Marked (seen seen' : ClientBooks) (out : List Sent) : Prop :=
  (gave key out = false ∧ seen'.watermarks.get key = seen.watermarks.get key) ∨
    (gave key out = true ∧ ∃ acc since, books.get key = some acc ∧ acc.baselined = true ∧
      seen'.watermarks.get key = if acc.wireTsNs ≠ 0 then some (acc.wireTsNs, since) else seen.watermarks.get key)

theorem Marked.quiet (h : seen'.watermarks.get key = seen.watermarks.get key) : Marked key books seen seen' [] :=
  Or.inl ⟨rfl, h⟩

theorem Marked.trans {seen'' : ClientBooks} (h : Marked key books seen seen' out)
    (h' : Marked key books seen' seen'' out') : Marked key books seen seen'' (out ++ out') := by
  obtain ⟨hgave, hsame⟩ | ⟨hgave, acc, since, hget, hwhole, hset⟩ := h
  · obtain ⟨hgave', hsame'⟩ | ⟨hgave', acc', since', hget', hwhole', hset'⟩ := h'
    · exact Or.inl ⟨by rw [gave_append, hgave, hgave']; rfl, hsame'.trans hsame⟩
    · exact Or.inr ⟨by rw [gave_append, hgave']; simp, acc', since', hget', hwhole', by rw [hset', hsame]⟩
  · refine Or.inr ⟨by rw [gave_append, hgave]; rfl, ?_⟩
    obtain ⟨-, hsame'⟩ | ⟨-, acc', since', hget', hwhole', hset'⟩ := h'
    · exact ⟨acc, since, hget, hwhole, hsame'.trans hset⟩
    · rw [hget] at hget'
      cases hget'
      refine ⟨acc, since', hget, hwhole, ?_⟩
      rw [hset', hset]
      split_ifs <;> rfl

theorem marked_bootstrapped {acc : BookAccumulator} (hget : books.get k = some acc) (hwhole : acc.baselined = true) :
    Marked key books seen (seen.bootstrapped k acc now) [⟨bootstrap acc k wall, some k, false⟩] := by
  by_cases hk : k = key
  · subst hk
    refine Or.inr ⟨by simp [gave], acc, now, hget, hwhole, ?_⟩
    unfold ClientBooks.bootstrapped
    split_ifs
    · exact FinMap.get_insert_self _ _ _
    · rfl
  · refine Or.inl ⟨by simp [gave, hk], ?_⟩
    unfold ClientBooks.bootstrapped
    dsimp only
    split_ifs
    · exact FinMap.get_insert_of_ne _ _ (Ne.symm hk)
    · rfl

theorem marked_replayMarket (seen : ClientBooks) (k : BookKey) :
    Marked key books seen (seen.replayMarket books subs now wall k).1 (seen.replayMarket books subs now wall k).2 := by
  unfold ClientBooks.replayMarket
  cases hget : books.get k with
  | none => exact .quiet rfl
  | some acc =>
    dsimp only
    by_cases hwanted : (!wanted subs k acc) = true
    · rw [if_pos hwanted]
      exact .quiet rfl
    · rw [if_neg hwanted]
      by_cases hopen : (!acc.baselined || !acc.pendingEmpty) = true
      · rw [if_pos hopen]
        refine .quiet ?_
        unfold ClientBooks.withhold
        split <;> rfl
      · rw [if_neg hopen]
        have hwhole : acc.baselined = true := by
          simp only [Bool.or_eq_true, Bool.not_eq_true', not_or, Bool.not_eq_false] at hopen
          exact hopen.1
        exact marked_bootstrapped hget hwhole

theorem marked_replayScoped : ∀ (iter : List BookKey) (seen : ClientBooks),
    Marked key books seen (seen.replayScoped books subs now wall iter).1 (seen.replayScoped books subs now wall iter).2
  | [], _ => .quiet rfl
  | k :: iter, seen => (marked_replayMarket seen k).trans (marked_replayScoped iter _)

variable (key books subs deadline now wall) in
theorem marked_releaseWithheld (seen : ClientBooks) (k : BookKey) :
    Marked key books seen (seen.releaseWithheld books subs deadline now wall k).1
      (seen.releaseWithheld books subs deadline now wall k).2.1 := by
  unfold ClientBooks.releaseWithheld
  cases seen.awaiting.get k with
  | none => exact .quiet rfl
  | some since =>
    dsimp only
    unfold withheldBootstrap
    cases hget : books.get k with
    | none => exact .quiet rfl
    | some acc =>
      dsimp only
      by_cases hwanted : (!wanted subs k acc) = true
      · rw [if_pos hwanted]
        exact .quiet rfl
      · rw [if_neg hwanted]
        by_cases hwhole : (!acc.baselined) = true
        · rw [if_pos hwhole]
          exact .quiet rfl
        · rw [if_neg hwhole]
          by_cases hready : (acc.pendingEmpty || decide (now - since ≥ deadline)) = true
          · rw [if_pos hready]
            exact marked_bootstrapped hget (by simpa using hwhole)
          · rw [if_neg hready]
            exact .quiet rfl

theorem marked_sweep : ∀ (iter : List BookKey) (seen : ClientBooks),
    Marked key books seen (seen.sweep books subs deadline now wall iter).1
      (seen.sweep books subs deadline now wall iter).2
  | [], _ => .quiet rfl
  | k :: iter, seen => (marked_releaseWithheld key books subs deadline now wall seen k).trans (marked_sweep iter _)

/-! ## The client's own steps -/

theorem marked_subscribe (c : Client) (f : SubFilter) (t : Moment) :
    Marked key books c.seen (c.subscribe cfg books f t).1.seen (c.subscribe cfg books f t).2 := by
  unfold Client.subscribe
  split_ifs
  · exact .quiet rfl
  · exact .quiet rfl
  · exact marked_replayScoped t.iter _

theorem marked_unsubscribe (c : Client) (f : SubFilter) (t : Moment) :
    Marked key books c.seen (c.unsubscribe books f t).1.seen (c.unsubscribe books f t).2 := by
  unfold Client.unsubscribe
  dsimp only
  split_ifs
  · exact marked_replayScoped t.iter _
  · exact .quiet rfl

theorem marked_repair (c : Client) (t : Moment) :
    Marked key books c.seen (c.repair cfg books t).1.seen (c.repair cfg books t).2 := by
  unfold Client.repair
  split_ifs
  · exact marked_replayScoped t.iter _
  · exact .quiet rfl

/-- A frame written from the queue is no bootstrap. -/
theorem gave_write (f : PreparedFrame) : gave key (ClientBooks.write subs f) = false := by
  unfold ClientBooks.write
  split_ifs <;> simp [gave]

variable (key books subs deadline now wall) in
/-- A frame of another market leaves the watermark to its own release; one of the market is released, and then may
consume the watermark. -/
theorem forward_marks (seen : ClientBooks) (f : PreparedFrame) :
    ∃ seen', Marked key books seen seen' (seen.forward books subs deadline now wall f).2 ∧
      ((seen.forward books subs deadline now wall f).1.watermarks.get key = none ∨
        (seen.forward books subs deadline now wall f).1.watermarks.get key = seen'.watermarks.get key) ∧
      (f.bookMarket = some key → seen' = (seen.releaseWithheld books subs deadline now wall key).1) := by
  unfold ClientBooks.forward
  cases hmarket : f.bookMarket with
  | none => exact ⟨seen, Or.inl ⟨gave_write f, rfl⟩, Or.inr rfl, nofun⟩
  | some k =>
    dsimp only
    have hmarked := marked_releaseWithheld key books subs deadline now wall seen k
    refine ⟨(seen.releaseWithheld books subs deadline now wall k).1, ?_⟩
    rcases hrelease : seen.releaseWithheld books subs deadline now wall k with ⟨seen', released, held⟩
    rw [hrelease] at hmarked
    have hself : some k = some key → seen' = (seen.releaseWithheld books subs deadline now wall key).1 := by
      intro hk
      cases hk
      rw [hrelease]
    have hwrite : Marked key books seen seen' (released ++ ClientBooks.write subs f) :=
      hmarked.trans (Or.inl ⟨gave_write f, rfl⟩)
    cases held with
    | true => exact ⟨hmarked, Or.inr rfl, hself⟩
    | false =>
      dsimp only
      cases hget : seen'.watermarks.get k with
      | none => exact ⟨hwrite, Or.inr rfl, hself⟩
      | some mark =>
        obtain ⟨mark, since⟩ := mark
        dsimp only
        split_ifs
        · exact ⟨hmarked, Or.inr rfl, hself⟩
        · refine ⟨hwrite, ?_, hself⟩
          by_cases hk : key = k
          · subst hk
            exact Or.inl (FinMap.get_erase_self _ _)
          · exact Or.inr (FinMap.get_erase_of_ne _ hk)

/-- What a frame writes gives the market what its release gives. -/
theorem gave_forward {f : PreparedFrame} (hmarket : f.bookMarket = some key) :
    gave key (seen.forward books subs deadline now wall f).2 =
      gave key (seen.releaseWithheld books subs deadline now wall key).2.1 := by
  unfold ClientBooks.forward
  rw [hmarket]
  dsimp only
  rcases seen.releaseWithheld books subs deadline now wall key with ⟨seen', released, held⟩
  have hwrite : gave key (released ++ ClientBooks.write subs f) = gave key released := by
    rw [gave_append, gave_write, Bool.or_false]
  cases held with
  | true => rfl
  | false =>
    dsimp only
    cases seen'.watermarks.get key with
    | none => exact hwrite
    | some mark =>
      dsimp only
      split_ifs
      · rfl
      · exact hwrite

/-! ## What every step in order keeps -/

/-- A frame is a batch, serialized. -/
def Renders (f : PreparedFrame) (b : NormalizedBook) : Prop := ∃ now, f = prepare (.book b) now

/-- A watermark is no later than any batch that its bootstrap does not hold, or that was not broadcast before it. -/
def Holds (log : List NormalizedBook) (offered : Nat) (taken : Option (Nat × Nat)) (mark : Nat) : Prop :=
  ∃ n s, taken = some (n, s) ∧ n ≤ log.length ∧ mark ≤ offered ∧
    ∀ i b, log[i]? = some b → ¬ Folded log n i ∨ s ≤ i → mark ≤ b.recvTsNs

structure Sound (key : BookKey) (w : Watch) : Prop where
  read : w.read ≤ w.log.length
  flight : ∀ q, w.line.queue = some q →
    ∃ bs, List.Forall₂ Renders (framesOf key q) bs ∧ w.log.drop w.read = bs ++ w.sending key
  accepted : w.line.queue = none → w.line.client = none
  entry : ∀ acc, w.line.books.get key = some acc →
    acc.wireTsNs ≤ acc.pendingWireTsNs ∧ (acc.baselined = true → acc.wireTsNs ≤ w.offered)
  unfolded : ∀ i b, w.log[i]? = some b → ¬ Folded w.log w.log.length i → w.offered ≤ b.recvTsNs
  sending : ∀ b, w.line.sending = some b → marketOf b = key → w.offered ≤ b.recvTsNs ∧ w.log.getLast? = some b
  marked : ∀ c mark since, w.line.client = some c → c.seen.watermarks.get key = some (mark, since) →
    Holds w.log w.offered w.taken mark

variable {b : NormalizedBook}

theorem sending_of_some (hs : w.line.sending = some b) :
    w.sending key = if marketOf b = key then [b] else [] := by
  unfold Watch.sending
  rw [hs]
  split_ifs with hk
  · simp [hk]
  · simp [hk]

theorem sending_of_none (hs : w.line.sending = none) : w.sending key = [] := by
  unfold Watch.sending
  rw [hs]
  rfl

/-- The last place of the log is the only one that has not been broadcast, and its batch is no earlier than any book
offered. -/
theorem Sound.unsent (h : Sound key w) {i : Nat} (hi : w.sent key ≤ i) (hget : w.log[i]? = some b) :
    w.offered ≤ b.recvTsNs := by
  have hlt : i < w.log.length := by
    obtain ⟨hlt, -⟩ := List.getElem?_eq_some_iff.mp hget
    exact hlt
  unfold Watch.sent at hi
  cases hs : w.line.sending with
  | none =>
    rw [sending_of_none hs, List.length_nil] at hi
    omega
  | some b' =>
    rw [sending_of_some hs] at hi
    split_ifs at hi with hk
    · obtain ⟨hstamp, hlast⟩ := h.sending b' hs hk
      rw [List.length_singleton] at hi
      have hplace : i = w.log.length - 1 := by omega
      rw [List.getLast?_eq_getElem?, ← hplace, hget] at hlast
      cases hlast
      exact hstamp
    · rw [List.length_nil] at hi
      omega

/-- What `taken` is after some messages are written. -/
def takenAfter (key : BookKey) (w : Watch) (out : List Sent) : Option (Nat × Nat) :=
  if w.marks key out then some (w.log.length, w.sent key) else w.taken

/-- **A bootstrap is no later than what it does not hold.** -/
theorem Sound.bootstrapped (h : Sound key w) (hm : Marked key w.line.books seen seen' out)
    (hseen : ∀ mark since, seen.watermarks.get key = some (mark, since) → Holds w.log w.offered w.taken mark)
    {mark since : Nat} (hget : seen'.watermarks.get key = some (mark, since)) :
    Holds w.log w.offered (takenAfter key w out) mark := by
  unfold takenAfter Watch.marks
  obtain ⟨hgave, hsame⟩ | ⟨hgave, acc, since', hacc, hwhole, hset⟩ := hm
  · rw [hgave, Bool.false_and, if_neg Bool.false_ne_true]
    exact hseen mark since (hsame ▸ hget)
  · rw [hgave, hacc, Bool.true_and, Option.any_some]
    by_cases hzero : acc.wireTsNs ≠ 0
    · rw [if_pos hzero] at hset
      rw [if_pos (decide_eq_true hzero)]
      rw [hset] at hget
      cases hget
      have hoffered := (h.entry acc hacc).2 hwhole
      refine ⟨w.log.length, w.sent key, rfl, le_rfl, hoffered, fun i b hi hout => hoffered.trans ?_⟩
      rcases hout with hout | hout
      · exact h.unfolded i b hi hout
      · exact h.unsent hout hi
    · rw [if_neg hzero] at hset
      rw [if_neg (by simpa using hzero)]
      exact hseen mark since (hset ▸ hget)

/-- A step of the client that leaves its queue alone. -/
theorem Sound.turned (h : Sound key w) {c c' : Client} (hqueue : w.line.queue ≠ none)
    (hseen : ∀ mark since, c.seen.watermarks.get key = some (mark, since) → Holds w.log w.offered w.taken mark)
    (hm : Marked key w.line.books c.seen c'.seen out) :
    Sound key { w with line := { w.line with client := some c' }, taken := takenAfter key w out } where
  read := h.read
  flight := h.flight
  accepted hq := absurd hq hqueue
  entry := h.entry
  unfolded := h.unfolded
  sending := h.sending
  marked c'' mark since hc hget := by
    cases hc
    exact h.bootstrapped hm hseen hget

theorem Sound.turn (h : Sound key w) {act : Client → Client × List Sent}
    (hact : ∀ c, Marked key w.line.books c.seen (act c).1.seen (act c).2) :
    Sound key { w with line := (w.line.turn act).1, taken := takenAfter key w (w.line.turn act).2 } := by
  unfold Line.turn
  cases hc : w.line.client with
  | none => exact h
  | some c =>
    have hqueue : w.line.queue ≠ none := fun hq => by
      rw [h.accepted hq] at hc
      cases hc
    exact h.turned hqueue (fun mark since => h.marked c mark since hc) (hact c)

theorem connect_cases (l : Line) (t : Moment) :
    l.connect t = (l, []) ∨ (l.queue ≠ none ∧ l.client = none ∧
      l.connect t = ({ l with client := some (Client.connect l.books t).1 }, (Client.connect l.books t).2)) := by
  unfold Line.connect
  split
  · rename_i q hq hc
    exact Or.inr ⟨by rw [hq]; nofun, hc, rfl⟩
  · exact Or.inl rfl

theorem Sound.connect (h : Sound key w) (t : Moment) :
    Sound key { w with line := (w.line.connect t).1, taken := takenAfter key w (w.line.connect t).2 } := by
  obtain heq | ⟨hqueue, hc, heq⟩ := connect_cases w.line t
  · rw [heq]
    exact h
  · have hm : Marked key w.line.books (⟨∅, ∅⟩ : ClientBooks) (Client.connect w.line.books t).1.seen
        (Client.connect w.line.books t).2 := marked_replayScoped t.iter _
    rw [heq]
    exact h.turned (c := ⟨[], ⟨∅, ∅⟩, none, false⟩) hqueue (fun _ _ hnone => by cases hnone) hm

theorem Sound.accept (h : Sound key w) :
    Sound key { w with
      line := { w.line with queue := some (w.line.queue.getD []) }
      read := w.next key .accept
      taken := takenAfter key w [] } := by
  have hsent : w.log.drop (w.sent key) = w.sending key := by
    unfold Watch.sent
    cases hs : w.line.sending with
    | none => rw [sending_of_none hs, List.length_nil, Nat.sub_zero, List.drop_length]
    | some b =>
      rw [sending_of_some hs]
      split_ifs with hk
      · obtain ⟨-, hlast⟩ := h.sending b hs hk
        obtain ⟨init, hinit⟩ := List.getLast?_eq_some_iff.mp hlast
        rw [hinit, List.length_append, List.length_singleton, Nat.add_sub_cancel, List.drop_left]
      · rw [List.length_nil, Nat.sub_zero, List.drop_length]
  unfold Watch.next
  cases hq : w.line.queue with
  | none =>
    refine ⟨?_, fun q hq' => ?_, nofun, h.entry, h.unfolded, h.sending, fun c mark since hc => ?_⟩
    · exact Nat.sub_le _ _
    · cases hq'
      exact ⟨[], List.Forall₂.nil, hsent⟩
    · rw [h.accepted hq] at hc
      cases hc
  | some q =>
    refine ⟨h.read, fun q' hq' => ?_, nofun, h.entry, h.unfolded, h.sending, h.marked⟩
    cases hq'
    exact h.flight q hq

theorem forall₂_append_left {α β : Type} {R : α → β → Prop} : ∀ {l l' : List α} {bs : List β},
    List.Forall₂ R (l ++ l') bs → ∃ cs cs', bs = cs ++ cs' ∧ cs.length = l.length ∧ List.Forall₂ R l' cs'
  | [], _, bs, h => ⟨[], bs, rfl, rfl, h⟩
  | a :: l, l', bs, h => by
    cases h with
    | cons _ htail =>
      obtain ⟨cs, cs', rfl, hlen, hrest⟩ := forall₂_append_left htail
      exact ⟨_ :: cs, cs', rfl, by rw [List.length_cons, List.length_cons, hlen], hrest⟩

/-- Frames that leave the queue are the next ones of the log. -/
theorem Sound.advance (h : Sound key w) {q q' : List PreparedFrame} (hq : w.line.queue = some (q ++ q')) :
    w.read + (framesOf key q).length ≤ w.log.length ∧ ∃ bs, List.Forall₂ Renders (framesOf key q') bs ∧
      w.log.drop (w.read + (framesOf key q).length) = bs ++ w.sending key := by
  obtain ⟨bs, hbs, hlog⟩ := h.flight _ hq
  unfold framesOf at hbs
  rw [List.filter_append] at hbs
  obtain ⟨cs, cs', rfl, hlen, hrest⟩ := forall₂_append_left hbs
  have hlength := congrArg List.length hlog
  have hread := h.read
  rw [List.length_drop, List.length_append, List.length_append] at hlength
  unfold framesOf
  refine ⟨by omega, cs', hrest, ?_⟩
  rw [← List.drop_drop, hlog, ← hlen, List.append_assoc, List.drop_left]

theorem Sound.lagged (h : Sound key w) (n : Nat) :
    Sound key { w with line := w.line.lagged n, read := w.next key (.lagged n), taken := takenAfter key w [] } := by
  unfold Line.lagged Watch.next
  cases hc : w.line.client with
  | none => exact h
  | some c =>
    have hseen : c.lagged.seen = c.seen := by
      unfold Client.lagged
      split <;> rfl
    cases hq : w.line.queue with
    | none =>
      rw [h.accepted hq] at hc
      cases hc
    | some q =>
      rw [Option.isSome_some, if_pos rfl, Option.getD_some]
      obtain ⟨hread, hflight⟩ := h.advance (show w.line.queue = some (q.take n ++ q.drop n) by rw [List.take_append_drop, hq])
      refine ⟨hread, fun q' hq' => ?_, nofun, h.entry, h.unfolded, h.sending, fun c' mark since hc' hget => ?_⟩
      · cases hq'
        exact hflight
      · cases hc'
        rw [hseen] at hget
        exact h.marked c mark since hc hget

theorem Sound.broadcast (h : Sound key w) (now : Nat) :
    Sound key { w with line := w.line.broadcast now, taken := takenAfter key w [] } := by
  unfold Line.broadcast
  cases hs : w.line.sending with
  | none => exact h
  | some b =>
    refine ⟨h.read, fun q' hq' => ?_, fun hq => ?_, h.entry, h.unfolded, nofun, h.marked⟩
    · obtain ⟨q, hq, rfl⟩ := Option.map_eq_some_iff.mp hq'
      obtain ⟨bs, hbs, hlog⟩ := h.flight q hq
      rw [sending_of_some hs] at hlog
      unfold framesOf
      rw [List.filter_append, sending_of_none rfl]
      by_cases hk : marketOf b = key
      · rw [if_pos hk] at hlog
        have hframe : ([prepare (.book b) now].filter fun f => f.bookMarket = some key) = [prepare (.book b) now] :=
          List.filter_eq_self.mpr fun f hf => by
            rw [List.mem_singleton.mp hf]
            exact decide_eq_true (congrArg some hk)
        rw [hframe]
        exact ⟨bs ++ [b], List.rel_append hbs (.cons ⟨now, rfl⟩ .nil), by rw [hlog, List.append_nil]⟩
      · rw [if_neg hk] at hlog
        have hframe : ([prepare (.book b) now].filter fun f => f.bookMarket = some key) = [] :=
          List.filter_eq_nil_iff.mpr fun f hf => by
            rw [List.mem_singleton.mp hf]
            exact fun heq => hk (Option.some.inj (of_decide_eq_true heq))
        rw [hframe, List.append_nil]
        exact ⟨bs, hbs, hlog⟩
    · exact h.accepted (Option.map_eq_none_iff.mp hq)

/-! ### A batch is applied -/

/-- The stamp of a book is no later than what has been buffered, and moves only as an event closes. -/
theorem wire_apply {acc : BookAccumulator} (hacc : acc.wireTsNs ≤ acc.pendingWireTsNs) (b : NormalizedBook) :
    (acc.apply b).wireTsNs ≤ (acc.apply b).pendingWireTsNs ∧
      (b.last = false → (acc.apply b).wireTsNs = acc.wireTsNs ∧
        ((acc.apply b).baselined = true → acc.baselined = true)) := by
  unfold BookAccumulator.apply
  dsimp only
  by_cases hlast : b.last = true
  · rw [if_pos hlast]
    refine ⟨le_rfl, fun h => ?_⟩
    rw [hlast] at h
    cases h
  · rw [if_neg hlast]
    split_ifs
    · exact ⟨le_rfl, fun _ => ⟨rfl, nofun⟩⟩
    · exact ⟨hacc.trans (le_max_left _ _), fun _ => ⟨rfl, id⟩⟩

theorem folded_append {log : List NormalizedBook} {n i : Nat} (hn : n ≤ log.length) :
    Folded (log ++ [b]) n i ↔ Folded log n i := by
  unfold Folded
  refine exists_congr fun k => exists_congr fun b' => and_congr_right fun _ => and_congr_right fun hk => ?_
  rw [List.getElem?_append_left (lt_of_lt_of_le hk hn)]

theorem Holds.snoc {log : List NormalizedBook} {offered offered' mark : Nat} {taken : Option (Nat × Nat)}
    (h : Holds log offered taken mark) (hoffered : offered ≤ offered') (hb : offered' ≤ b.recvTsNs) :
    Holds (log ++ [b]) offered' taken mark := by
  obtain ⟨n, s, htaken, hn, hmark, hlater⟩ := h
  refine ⟨n, s, htaken, ?_, hmark.trans hoffered, fun i b' hi hout => ?_⟩
  · rw [List.length_append]
    omega
  · rw [folded_append hn] at hout
    by_cases hlt : i < log.length
    · rw [List.getElem?_append_left hlt] at hi
      exact hlater i b' hi hout
    · rw [List.getElem?_append_right (by omega)] at hi
      obtain ⟨-, rfl⟩ := List.getElem?_eq_some_iff.mp hi
      rw [List.getElem_singleton]
      exact hmark.trans (hoffered.trans hb)

/-- The market's entry with the batch applied, against what was offered before. -/
theorem Sound.applied (h : Sound key w) (hk : marketOf b = key) :
    (w.applied b).wireTsNs ≤ (w.applied b).pendingWireTsNs ∧ w.offered ≤ w.offeredWith b ∧
      ((w.applied b).baselined = true → (w.applied b).wireTsNs ≤ w.offeredWith b) ∧
      (b.last = false → w.offeredWith b = w.offered) := by
  have hbefore : ∃ acc : BookAccumulator, w.applied b = acc.apply b ∧ acc.wireTsNs ≤ acc.pendingWireTsNs ∧
      (acc.baselined = true → acc.wireTsNs ≤ w.offered) := by
    unfold Watch.applied
    rw [hk]
    cases hget : w.line.books.get key with
    | some acc => exact ⟨acc, rfl, h.entry acc hget⟩
    | none => exact ⟨.new b.symbol, rfl, le_rfl, fun _ => Nat.zero_le _⟩
  obtain ⟨acc, hacc, hpending, hwhole⟩ := hbefore
  obtain ⟨hpending', hopen⟩ := wire_apply hpending b
  unfold Watch.offeredWith
  rw [hacc]
  refine ⟨hpending', le_max_left _ _, fun hnow => ?_, fun hlast => ?_⟩
  · rw [if_pos hnow]
    exact le_max_right _ _
  · obtain ⟨hwire, hkept⟩ := hopen hlast
    refine max_eq_left ?_
    split_ifs with hnow
    · rw [hwire]
      exact hwhole (hkept hnow)
    · exact Nat.zero_le _

theorem Sound.apply (h : Sound key w) (hs : w.line.sending = none) (hk : marketOf b = key)
    (horder : w.offeredWith b ≤ b.recvTsNs) :
    Sound key { w with
      line := { w.line with books := publishBook w.line.books b, sending := some b }
      log := w.log ++ [b]
      offered := w.offeredWith b } := by
  obtain ⟨hpending, hmono, hwire, hopen⟩ := h.applied hk
  have hentry : (publishBook w.line.books b).get key = some (w.applied b) := by
    unfold publishBook Watch.applied
    rw [← hk, FinMap.get_insert_self]
  constructor
  · show w.read ≤ (w.log ++ [b]).length
    rw [List.length_append]
    exact h.read.trans (Nat.le_add_right _ _)
  · intro q hq
    obtain ⟨bs, hbs, hlog⟩ := h.flight q hq
    refine ⟨bs, hbs, ?_⟩
    show (w.log ++ [b]).drop w.read = bs ++ _
    rw [sending_of_some (b := b) rfl, if_pos hk, List.drop_append_of_le_length h.read, hlog, sending_of_none hs,
      List.append_nil]
  · exact h.accepted
  · intro acc hacc
    dsimp only at hacc
    rw [hentry] at hacc
    cases hacc
    exact ⟨hpending, hwire⟩
  · intro i b' hi hout
    show w.offeredWith b ≤ _
    dsimp only at hi hout
    by_cases hlt : i < w.log.length
    · rw [List.getElem?_append_left hlt] at hi
      -- Places before the new batch are still open only if it closes nothing.
      have hlast : b.last = false := by
        by_contra hlast
        refine hout ⟨w.log.length, b, hlt.le, by rw [List.length_append]; exact Nat.lt_succ_self _, ?_, by simpa using hlast⟩
        rw [List.getElem?_append_right le_rfl, Nat.sub_self]
        rfl
      rw [hopen hlast]
      refine h.unfolded i b' hi fun hfolded => hout ?_
      obtain ⟨k, c, hik, hkn, hget, hc⟩ := (folded_append (b := b) le_rfl).mpr hfolded
      exact ⟨k, c, hik, by rw [List.length_append]; omega, hget, hc⟩
    · rw [List.getElem?_append_right (by omega)] at hi
      obtain ⟨-, rfl⟩ := List.getElem?_eq_some_iff.mp hi
      rw [List.getElem_singleton]
      exact horder
  · intro b' hb' _
    cases hb'
    exact ⟨horder, List.getLast?_concat⟩
  · intro c mark since hc hget
    exact (h.marked c mark since hc hget).snoc hmono horder

/-- A batch of another market. -/
theorem Sound.apply_other (h : Sound key w) (hs : w.line.sending = none) (hk : marketOf b ≠ key) :
    Sound key { w with line := { w.line with books := publishBook w.line.books b, sending := some b } } := by
  have hentry : (publishBook w.line.books b).get key = w.line.books.get key :=
    FinMap.get_insert_of_ne _ _ (Ne.symm hk)
  refine ⟨h.read, fun q hq => ?_, h.accepted, fun acc hacc => ?_, h.unfolded, fun b' hb' hk' => ?_, h.marked⟩
  · obtain ⟨bs, hbs, hlog⟩ := h.flight q hq
    refine ⟨bs, hbs, ?_⟩
    rw [sending_of_some (b := b) rfl, if_neg hk, hlog, sending_of_none hs]
  · dsimp only at hacc
    exact h.entry acc (hentry ▸ hacc)
  · cases hb'
    exact absurd hk' hk

/-! ### A frame is read -/

variable (cfg) in
theorem forward_cases (l : Line) (t : Moment) :
    (l.forward cfg t = (l, []) ∧ (l.client = none ∨ l.queue = none ∨ l.queue = some [])) ∨
      ∃ c f q, l.client = some c ∧ l.queue = some (f :: q) ∧
        l.forward cfg t =
          ({ l with client := some (c.forward cfg l.books f t).1, queue := some q }, (c.forward cfg l.books f t).2) := by
  unfold Line.forward
  split
  · rename_i c f q hc hq
    exact Or.inr ⟨c, f, q, hc, hq, rfl⟩
  · rename_i hnone
    refine Or.inl ⟨rfl, ?_⟩
    cases hc : l.client with
    | none => exact Or.inl rfl
    | some c =>
      right
      cases hq : l.queue with
      | none => exact Or.inl rfl
      | some q =>
        cases q with
        | nil => exact Or.inr rfl
        | cons f q => exact absurd hq (hnone c f q hc)

theorem next_forward_of_read {c : Client} {f : PreparedFrame} {q : List PreparedFrame} (hc : w.line.client = some c)
    (hq : w.line.queue = some (f :: q)) (t : Moment) :
    w.next key (.forward t) = w.read + (framesOf key [f]).length := by
  unfold Watch.next
  rw [hc, hq]
  rfl

theorem Sound.forward (h : Sound key w) (t : Moment) :
    Sound key { w with
      line := (w.line.forward cfg t).1
      read := w.next key (.forward t)
      taken := takenAfter key w (w.line.forward cfg t).2 } := by
  obtain ⟨heq, hidle⟩ | ⟨c, f, q, hc, hq, heq⟩ := forward_cases cfg w.line t
  · have hnext : w.next key (.forward t) = w.read := by
      unfold Watch.next
      rcases hidle with hc | hq | hq
      · rw [hc]
        rfl
      · rw [hq]
        split_ifs <;> rfl
      · rw [hq]
        split_ifs <;> rfl
    rw [heq, hnext]
    exact h
  · obtain ⟨hread, hflight⟩ := h.advance (show w.line.queue = some ([f] ++ q) from hq)
    rw [heq, next_forward_of_read hc hq]
    refine ⟨hread, fun q' hq' => ?_, nofun, h.entry, h.unfolded, h.sending, fun c' mark since hc' hget => ?_⟩
    · cases hq'
      exact hflight
    · cases hc'
      obtain ⟨seen', hm, hconsumed | hkept, -⟩ := forward_marks key w.line.books c.subs
        cfg.bootstrapReleaseDeadline t.now t.wall c.seen f
      · change (c.seen.forward _ _ _ _ _ f).1.watermarks.get key = _ at hget
        rw [hconsumed] at hget
        cases hget
      · change (c.seen.forward _ _ _ _ _ f).1.watermarks.get key = _ at hget
        rw [hkept] at hget
        exact h.bootstrapped hm (fun mark since => h.marked c mark since hc) hget

/-! ## Every run -/

theorem Sound.step (h : Sound key w) {i : Move} (hi : InOrder key w i) : Sound key ((watch cfg key).step w i).1 := by
  cases i with
  | apply b =>
    cases hs : w.line.sending with
    | some b' =>
      have hline : w.line.apply b = w.line := by
        unfold Line.apply
        rw [hs]
      have hnote : w.note key (.apply b) = w := by
        unfold Watch.note
        rw [hs]
        rfl
      show Sound key { w.note key (.apply b) with line := w.line.apply b, read := w.read, taken := w.taken }
      rw [hline, hnote]
      exact h
    | none =>
      have hline : w.line.apply b = { w.line with books := publishBook w.line.books b, sending := some b } := by
        unfold Line.apply
        rw [hs]
      show Sound key { w.note key (.apply b) with line := w.line.apply b, read := w.read, taken := w.taken }
      rw [hline]
      by_cases hk : marketOf b = key
      · have hnote : w.note key (.apply b) = { w with log := w.log ++ [b], offered := w.offeredWith b } :=
          if_pos ⟨by rw [hs]; rfl, hk⟩
        rw [hnote]
        exact h.apply hs hk (hi hs hk)
      · have hnote : w.note key (.apply b) = w := if_neg fun hboth => hk hboth.2
        rw [hnote]
        exact h.apply_other hs hk
  | broadcast now => exact h.broadcast now
  | evict k =>
    refine ⟨h.read, h.flight, h.accepted, fun acc hacc => h.entry acc ?_, h.unfolded, h.sending, h.marked⟩
    change (w.line.books.erase k).get key = some acc at hacc
    rw [FinMap.get_erase] at hacc
    split_ifs at hacc
    exact hacc
  | accept => exact h.accept
  | connect t => exact h.connect t
  | subscribe f t => exact h.turn fun c => marked_subscribe c f t
  | unsubscribe f t => exact h.turn fun c => marked_unsubscribe c f t
  | lagged n => exact h.lagged n
  | repair t => exact h.turn fun c => marked_repair c t
  | sweep t => exact h.turn fun c => marked_sweep t.iter c.seen
  | forward t => exact h.forward t

/-- **A frame older than its watermark is in the bootstrap.** -/
theorem Sound.dropsThePast (h : Sound key w) (i : Move) : DropsThePast cfg key w i := by
  cases i with
  | forward t =>
    rintro f ⟨c, q, hc, hq, hmarket, -, mark, since, hget, hold, -⟩
    obtain ⟨bs, hbs, hlog⟩ := h.flight _ hq
    have hframes : framesOf key (f :: q) = f :: framesOf key q := List.filter_cons_of_pos (decide_eq_true hmarket)
    rw [hframes] at hbs
    cases hbs with
    | @cons _ b _ cs hrenders hrest =>
      obtain ⟨now, rfl⟩ := hrenders
      have hplace : w.log[w.read]? = some b := by
        rw [← List.head?_drop, hlog]
        rfl
      refine ⟨⟨b, now, hplace, rfl⟩, ?_⟩
      -- The watermark the frame is judged by is the one the release leaves.
      have hm := marked_releaseWithheld key w.line.books c.subs cfg.bootstrapReleaseDeadline t.now t.wall c.seen key
      obtain ⟨n, s, htaken, -, -, hlater⟩ := h.bootstrapped hm (fun mark since => h.marked c mark since hc) hget
      refine ⟨n, s, ?_, ?_, ?_⟩
      · obtain ⟨-, hidle⟩ | ⟨c', f', q', hc', hq', heq⟩ := forward_cases cfg w.line t
        · rw [hc, hq] at hidle
          rcases hidle with hidle | hidle | hidle <;> cases hidle
        · rw [hc] at hc'
          rw [hq] at hq'
          cases hc'
          cases hq'
          show takenAfter key w (w.line.forward cfg t).2 = some (n, s)
          have hgave : gave key (c.forward cfg w.line.books (prepare (.book b) now) t).2 = gave key
              (c.seen.releaseWithheld w.line.books c.subs cfg.bootstrapReleaseDeadline t.now t.wall key).2.1 :=
            gave_forward hmarket
          rw [heq, ← htaken]
          unfold takenAfter Watch.marks
          dsimp only
          rw [hgave]
      · by_contra hfolded
        have hstamp := hlater w.read b hplace (Or.inl hfolded)
        exact absurd hold (not_lt.mpr hstamp)
      · by_contra hsent
        have hstamp := hlater w.read b hplace (Or.inr (not_lt.mp hsent))
        exact absurd hold (not_lt.mpr hstamp)
  | _ => trivial

theorem sound_start : Sound key start :=
  ⟨le_rfl, nofun, fun _ => rfl, nofun, nofun, nofun, nofun⟩

/-- **A join watermark only drops the past.**  In every run in which no batch of the market is stamped earlier than a
book of it that a bootstrap could have been taken of, every frame the watermark drops had been folded into the
bootstrap that set it, or passed over by a batch that was, and had been broadcast before that bootstrap was taken. -/
theorem watermark_drops_the_past (cfg : WsConfig) (key : BookKey) (moves : List Move)
    (horder : (watch cfg key).Along (InOrder key) start moves) :
    (watch cfg key).Along (DropsThePast cfg key) start moves := by
  have hsound : ∀ (moves : List Move) (w : Watch), Sound key w → (watch cfg key).Along (InOrder key) w moves →
      (watch cfg key).Along (DropsThePast cfg key) w moves := by
    intro moves
    induction moves with
    | nil => exact fun _ _ _ => trivial
    | cons i moves ih => exact fun w hw horder => ⟨hw.dropsThePast i, ih _ (hw.step horder.1) horder.2⟩
  exact hsound moves start sound_start horder

/-- Two batches queued before the client reads the replay map, which holds both. -/
def queuedBehind : List Move :=
  [.accept, .apply (marketBatch true [BookAccumulator.clearBoth] true 5), .broadcast 0,
    .apply (marketBatch true [unitChange .update 1] true 10), .broadcast 0, .connect instant, .forward instant,
    .forward instant]

/-- The first is dropped, the second ties with the bootstrap. -/
theorem queued_prefix_is_dropped :
    (watch sampleConfig sampleKey).Along (DropsThePast sampleConfig sampleKey) start queuedBehind := by
  refine watermark_drops_the_past sampleConfig sampleKey queuedBehind
    ⟨trivial, fun _ _ => ?_, trivial, fun _ _ => ?_, trivial, trivial, trivial, trivial, trivial⟩
  · decide +kernel
  · decide +kernel

/-- A book, and after the client has been bootstrapped from it a batch that was stamped earlier: it came through
another publisher, whose receiver waited longer for the arbiter. -/
def overtaken : List Move :=
  [.apply (marketBatch true [BookAccumulator.clearBoth] true 10), .broadcast 0, .accept, .connect instant,
    .apply (marketBatch true [unitChange .update 1] true 5), .broadcast 0, .forward instant]

theorem later_batch_is_dropped :
    ¬ (watch sampleConfig sampleKey).Along (DropsThePast sampleConfig sampleKey) start overtaken := by
  rintro ⟨-, -, -, -, -, -, hlast, -⟩
  obtain ⟨-, n, s, htaken, -, hsent⟩ := hlast _
    ⟨_, _, rfl, rfl, rfl, by decide +kernel, _, _, rfl, by decide +kernel, by decide +kernel⟩
  have htaken' : some (1, 1) = some (n, s) := htaken
  cases htaken'
  revert hsent
  decide +kernel

end EdgeConnect.Ws.Watermark
