import EdgeConnect.Sinks.WsWatermark

/-!
# Increments and the books under them

An increment means something to a client only on a book it holds.  A client comes by a book by a Clear-led message, a
bootstrap or a frame, and holds it under that message's type for as long as the market stays in its scope.

* `Scene` — a line, with the newest batch of each market, how the client last met the market, and the books it was given;
* `HandsOnlyHeld` — an increment is written only of a book the client was given and has had in scope since;
* `Straight` — a batch in scope goes on from the one before or opens its market; a bootstrap carries the type of its
  market's frames; what is not bootstrapped stays out of scope; no opening batch is lost;
* `Backed`, `Sound` — every increment still to read has its book by then; what every straight step keeps;
* `hands_only_held_books` — the run.
-/

set_option autoImplicit false

namespace EdgeConnect.Ws.Scope

open Watermark (Line)

/-! ## What a frame shows -/

/-- The type a message goes out under. -/
def typeTag : FeedMessage → String
  | .book _ => "book"
  | .orderBook _ => "order_book"
  | .market kind _ _ _ _ => kind
  | .status _ _ => "status"

/-- The first change is a Clear. -/
def leads (b : NormalizedBook) : Bool := b.changes.head?.any fun c => c.action = .clear

/-- A frame whose batch is led by a Clear. -/
def opens (f : PreparedFrame) : Bool := f.payload.batch.any leads

/-- Whether filters select a market under a symbol and a type. -/
def selects (subs : List SubFilter) (key : BookKey) (symbol kind : String) : Bool :=
  subs.isEmpty || subs.any fun f =>
    f.matchesMessage key.source.id key.source.name (some symbol) (some key.channel) kind

/-- The frame a batch will be. -/
def frameOf (b : NormalizedBook) : PreparedFrame := prepare (.book b) 0

/-! ## The scene -/

/-- `met` is the symbol and the type of the market's last message written, and `given` the books the client holds, each
under the type it was given. -/
structure Scene where
  line : Line
  newest : FinMap BookKey NormalizedBook
  met : FinMap BookKey (String × String)
  given : List (BookKey × String)

/-- A message is written to the client. -/
def Scene.told (s : Scene) (m : Sent) : Scene :=
  match m.market, m.msg.batch with
  | some key, some b =>
    { s with
      met := s.met.insert key (b.symbol, typeTag m.msg)
      given := if leads b then (key, typeTag m.msg) :: s.given else s.given }
  | _, _ => s

namespace Scene

def start : Scene := ⟨.start, ∅, ∅, []⟩

/-- The frames the client has still to read, the one being sent included. -/
def unread (s : Scene) : List PreparedFrame := s.line.queue.getD [] ++ s.line.sending.toList.map frameOf

/-- A batch is noted as it is applied. -/
def noted (s : Scene) : Watermark.Move → FinMap BookKey NormalizedBook
  | .apply b => if s.line.sending.isNone then s.newest.insert (marketOf b) b else s.newest
  | _ => s.newest

/-- The books the client's filters leave in scope. -/
def kept (s : Scene) (l : Line) : List (BookKey × String) :=
  s.given.filter fun g => l.client.all fun c => (s.met.get g.1).all fun m => selects c.subs g.1 m.1 m.2

/-- The line has moved to `l`, and nothing has been written yet. -/
def moved (s : Scene) (i : Watermark.Move) (l : Line) : Scene := ⟨l, s.noted i, s.met, s.kept l⟩

/-- The market of a frame that is read and refused by the filters: it has left the client's scope. -/
def refused (s : Scene) : Watermark.Move → Option BookKey
  | .forward _ =>
    match s.line.client, s.line.queue with
    | some c, some (f :: _) => if passes c.subs f then none else f.bookMarket
    | _, _ => none
  | _ => none

/-- The line has moved to `l`, and some messages have been written. -/
def after (s : Scene) (i : Watermark.Move) (l : Line) (out : List Sent) : Scene :=
  let s' := out.foldl told (s.moved i l)
  { s' with given := s'.given.filter fun g => s.refused i ≠ some g.1 }

def step (cfg : WsConfig) (s : Scene) (i : Watermark.Move) : Scene × List Sent :=
  let r := s.line.step cfg i
  (s.after i r.1 r.2, r.2)

end Scene

def scene (cfg : WsConfig) : Machine Scene Watermark.Move (List Sent) := ⟨Scene.step cfg⟩

/-- A batch written that no Clear leads is of a book the client was given under the same type, and has had in scope
since. -/
def HandsOnlyHeld (cfg : WsConfig) (s : Scene) (i : Watermark.Move) : Prop :=
  let r := s.line.step cfg i
  ∀ pre m post b, r.2 = pre ++ m :: post → m.msg.batch = some b → leads b = false →
    ∃ key, m.market = some key ∧ (key, typeTag m.msg) ∈ (pre.foldl Scene.told (s.moved i r.1)).given

/-! ## Straight steps -/

/-- A replay and the maps it iterates. -/
def Iterates (s : Scene) : Watermark.Move → Prop
  | .connect t | .subscribe _ t | .unsubscribe _ t | .repair t => ∀ key, s.line.books.contains key = true → key ∈ t.iter
  | _ => True

/-- A frame is no older than a market's watermark. -/
def Fresh (mark : Option (Nat × Nat)) (f : PreparedFrame) : Prop := ∀ w since, mark = some (w, since) → w ≤ f.recvTsNs

/-- The market's batch before was in scope too, and of the same type. -/
def GoesOn (s : Scene) (subs : List SubFilter) (b : NormalizedBook) : Prop :=
  s.line.books.contains (marketOf b) = true ∧
    ∃ p, s.newest.get (marketOf b) = some p ∧ passes subs (frameOf p) = true ∧ p.orderLevel = b.orderLevel

/-- What the client reads of a market next is all in scope, and of one type, Clear-led frames aside. -/
def ReadsOn (s : Scene) (subs : List SubFilter) (key : BookKey) (kind : String) : Prop :=
  (∀ f ∈ framesOf key s.unread, passes subs f = true ∧ (opens f = true ∨ f.kind = kind)) ∧
    ∀ p, s.newest.get key = some p → (frameOf p).kind = kind

/-- What the client reads of a market next is out of scope, Clear-led frames aside, unless it was in scope `already`. -/
def StaysOut (s : Scene) (subs : List SubFilter) (key : BookKey) (already : PreparedFrame → Bool) : Prop :=
  (∀ f ∈ framesOf key s.unread, opens f = false → passes subs f = true → already f = true) ∧
    (s.line.books.contains key = true → ∀ p, s.newest.get key = some p → passes subs (frameOf p) = true →
      already (frameOf p) = true)

/-- A replay, on one market: a book that is bootstrapped is read on from, one that is withheld is owed, and any other
stays out of scope. -/
def Replays (s : Scene) (seen : ClientBooks) (subs scope : List SubFilter) (already : PreparedFrame → Bool)
    (key : BookKey) : Prop :=
  match s.line.books.get key with
  | some acc =>
    if wanted scope key acc then
      acc.baselined = true → acc.pendingEmpty = true → ReadsOn s subs key (bookKind acc)
    else seen.awaiting.get key = none → StaysOut s subs key already
  | none => seen.awaiting.get key = none → StaysOut s subs key already

/-- A release, on one market. -/
def Releases (s : Scene) (cfg : WsConfig) (c : Client) (t : Moment) (key : BookKey) : Prop :=
  ∀ since, c.seen.awaiting.get key = some since →
    match withheldBootstrap s.line.books key c.subs (t.now - since ≥ cfg.bootstrapReleaseDeadline) with
    | .waiting => True
    | .outOfScope => StaysOut s c.subs key fun _ => false
    | .ready acc => ReadsOn s c.subs key (bookKind acc)

def Straight (cfg : WsConfig) (s : Scene) : Watermark.Move → Prop
  | .apply b => s.line.sending = none → ∀ c, s.line.client = some c → c.seen.awaiting.get (marketOf b) = none →
    passes c.subs (frameOf b) = true →
      GoesOn s c.subs b ∨ leads b = true ∧ Fresh (c.seen.watermarks.get (marketOf b)) (frameOf b)
  | .connect _ => s.line.queue.isSome = true → s.line.client = none → ∀ key, Replays s ⟨∅, ∅⟩ [] [] (fun _ => false) key
  | .subscribe f _ => ∀ c, s.line.client = some c → c.subs.length < cfg.maxSubs → f ∉ c.subs →
    ∀ key, Replays s c.seen (c.subs ++ [f]) [f] (fun x => !c.subs.isEmpty && passes c.subs x) key
  | .unsubscribe f _ => ∀ c, s.line.client = some c → f ∈ c.subs →
    ∀ key, Replays s c.seen (c.subs.filter fun x => x ≠ f) (c.subs.filter fun x => x ≠ f) (fun _ => false) key
  | .repair t => ∀ c, s.line.client = some c →
    lagRepairReady c.lagRepairDue c.lastLagRepair cfg.lagRepairMinInterval t.now = true →
    ∀ key, Replays s c.seen c.subs c.subs (fun _ => true) key
  | .sweep t => ∀ c, s.line.client = some c → ∀ key ∈ t.iter, Releases s cfg c t key
  | .forward t => ∀ c f q, s.line.client = some c → s.line.queue = some (f :: q) → ∀ key, f.bookMarket = some key →
    Releases s cfg c t key
  | .lagged n => ∀ c, s.line.client = some c → ∀ f ∈ (s.line.queue.getD []).take n, opens f = true →
    passes c.subs f = true → ∀ key, f.bookMarket = some key →
      (c.seen.awaiting.get key).isSome = true ∨ (key, f.kind) ∈ s.given
  | .broadcast _ | .evict _ | .accept => True

/-! ## Reading with a book in hand -/

/-- The types held of a market after a frame of it, from those held before: a Clear-led frame gives its own unless the
watermark may drop it, and a frame out of scope ends all. -/
def hold (subs : List SubFilter) (mark : Option (Nat × Nat)) (T : Set String) (f : PreparedFrame) : Set String :=
  {kind | passes subs f = true ∧ (kind ∈ T ∨ opens f = true ∧ Fresh mark f ∧ kind = f.kind)}

/-- Read one after the other, every increment of the frames is of a type held by then, and `Q` holds at the end. -/
def Backed (subs : List SubFilter) (mark : Option (Nat × Nat)) (Q : Set String → Prop) :
    Set String → List PreparedFrame → Prop
  | T, [] => Q T
  | T, f :: fs =>
    (passes subs f = true → opens f = false → f.kind ∈ T) ∧ Backed subs mark Q (hold subs mark T f) fs

variable {subs subs' : List SubFilter} {mark mark' : Option (Nat × Nat)} {Q Q' : Set String → Prop} {T T' : Set String}
  {f : PreparedFrame} {fs fs' : List PreparedFrame}

theorem hold_mono (hT : T ⊆ T') (hpass : passes subs f = true → passes subs' f = true)
    (hmark : ∀ x, Fresh mark x → Fresh mark' x) : hold subs mark T f ⊆ hold subs' mark' T' f := by
  rintro kind ⟨hin, hheld | ⟨hopens, hfresh, hkind⟩⟩
  · exact ⟨hpass hin, Or.inl (hT hheld)⟩
  · exact ⟨hpass hin, Or.inr ⟨hopens, hmark f hfresh, hkind⟩⟩

/-- Who holds more, sees more of the frames that open a market, and drops fewer, is backed as well. -/
theorem Backed.mono (hpass : ∀ f ∈ fs, passes subs f = true → passes subs' f = true)
    (hincr : ∀ f ∈ fs, opens f = false → passes subs' f = true → passes subs f = true)
    (hmark : ∀ x, Fresh mark x → Fresh mark' x) (hQ : ∀ T T', T ⊆ T' → Q T → Q' T')
    (h : Backed subs mark Q T fs) (hT : T ⊆ T') : Backed subs' mark' Q' T' fs := by
  induction fs generalizing T T' with
  | nil => exact hQ T T' hT h
  | cons f fs ih =>
    refine ⟨fun hin hopens => hT (h.1 (hincr f List.mem_cons_self hopens hin) hopens), ?_⟩
    exact ih (fun g hg => hpass g (List.mem_cons_of_mem f hg)) (fun g hg => hincr g (List.mem_cons_of_mem f hg)) h.2
      (hold_mono hT (hpass f List.mem_cons_self) hmark)

theorem Backed.more (h : Backed subs mark Q T fs) (hQ : ∀ T T', T ⊆ T' → Q T → Q' T') (hT : T ⊆ T') :
    Backed subs mark Q' T' fs :=
  h.mono (fun _ _ => id) (fun _ _ _ => id) (fun _ => id) hQ hT

/-- The last frame, taken out. -/
theorem backed_snoc : Backed subs mark Q T (fs ++ [f]) ↔
    Backed subs mark (fun T => (passes subs f = true → opens f = false → f.kind ∈ T) ∧ Q (hold subs mark T f)) T fs := by
  induction fs generalizing T with
  | nil => exact Iff.rfl
  | cons g fs ih => exact and_congr_right fun _ => ih

/-- A client that holds the type of every frame it reads. -/
theorem backed_of_held {kind : String} (hkind : kind ∈ T)
    (hfs : ∀ f ∈ fs, passes subs f = true ∧ (opens f = true ∨ f.kind = kind)) (hQ : ∀ T, kind ∈ T → Q T) :
    Backed subs mark Q T fs := by
  induction fs generalizing T with
  | nil => exact hQ T hkind
  | cons f fs ih =>
    obtain ⟨hin, htype⟩ := hfs f List.mem_cons_self
    refine ⟨fun _ hopens => ?_, ih ⟨hin, Or.inl hkind⟩ fun g hg => hfs g (List.mem_cons_of_mem f hg)⟩
    rcases htype with hled | htype
    · rw [hled] at hopens
      cases hopens
    · rw [htype]
      exact hkind

/-- A client that is shown no increment. -/
theorem backed_of_out (hfs : ∀ f ∈ fs, opens f = false → passes subs f = false) (hQ : ∀ T, Q T) :
    Backed subs mark Q T fs := by
  induction fs generalizing T with
  | nil => exact hQ T
  | cons f fs ih =>
    refine ⟨fun hin hopens => ?_, ih fun g hg => hfs g (List.mem_cons_of_mem f hg)⟩
    rw [hfs f List.mem_cons_self hopens] at hin
    cases hin

/-- Frames that give nothing new can be lost. -/
theorem Backed.lose (hQ : ∀ T T', T ⊆ T' → Q T → Q T')
    (hfs : ∀ f ∈ fs, opens f = true → passes subs f = true → f.kind ∈ T) (h : Backed subs mark Q T (fs ++ fs')) :
    Backed subs mark Q T fs' := by
  induction fs with
  | nil => exact h
  | cons f fs ih =>
    refine ih (fun g hg => hfs g (List.mem_cons_of_mem f hg)) (h.2.more hQ ?_)
    rintro kind ⟨hin, hheld | ⟨hopens, -, rfl⟩⟩
    · exact hheld
    · exact hfs f List.mem_cons_self hopens hin

/-! ## Books given -/

variable {cfg : WsConfig} {s : Scene} {key k : BookKey} {books : BookSnapshot} {seen seen' : ClientBooks}
  {out out' : List Sent} {i : Watermark.Move} {scope : List SubFilter} {c : Client} {t : Moment} {b : NormalizedBook}

theorem given_told (s : Scene) (m : Sent) : s.given ⊆ (s.told m).given := by
  intro g hg
  unfold Scene.told
  split
  · dsimp only
    split_ifs
    · exact List.mem_cons_of_mem _ hg
    · exact hg
  · exact hg

theorem given_tell : ∀ (out : List Sent) (s : Scene), s.given ⊆ (out.foldl Scene.told s).given
  | [], _ => fun _ => id
  | m :: out, s => fun _ hg => given_tell out (s.told m) (given_told s m hg)

/-- A Clear-led message gives its book. -/
theorem tell_gives {m : Sent} (hm : m ∈ out) (hkey : m.market = some key) (hb : m.msg.batch = some b)
    (hled : leads b = true) (s : Scene) : (key, typeTag m.msg) ∈ (out.foldl Scene.told s).given := by
  induction out generalizing s with
  | nil => cases hm
  | cons x out ih =>
    rcases List.mem_cons.mp hm with rfl | hm
    · refine given_tell out _ ?_
      unfold Scene.told
      rw [hkey, hb]
      dsimp only
      rw [if_pos hled]
      exact List.mem_cons_self
    · exact ih hm _

/-- Every book given is in scope as the market was last met. -/
def InScope (subs : List SubFilter) (s : Scene) : Prop :=
  ∀ g ∈ s.given, ∀ m, s.met.get g.1 = some m → selects subs g.1 m.1 m.2 = true

/-- What a message shows of its market is in scope. -/
def Selected (subs : List SubFilter) (m : Sent) : Prop :=
  ∀ key b, m.market = some key → m.msg.batch = some b → selects subs key b.symbol (typeTag m.msg) = true

theorem selected_nil (m : Sent) (hm : m ∈ []) : Selected subs m := absurd hm List.not_mem_nil

theorem InScope.told {m : Sent} (h : InScope subs s) (hm : Selected subs m) : InScope subs (s.told m) := by
  unfold Scene.told
  split
  · rename_i key b hkey hb
    intro g hg x hx
    dsimp only at hg hx
    rw [FinMap.get_insert] at hx
    split_ifs at hx with hsame
    · cases hx
      rw [hsame]
      exact hm key b hkey hb
    · split_ifs at hg
      · rcases List.mem_cons.mp hg with rfl | hg
        · exact absurd rfl hsame
        · exact h g hg x hx
      · exact h g hg x hx
  · exact h

theorem InScope.tell (h : InScope subs s) (hout : ∀ m ∈ out, Selected subs m) :
    InScope subs (out.foldl Scene.told s) := by
  induction out generalizing s with
  | nil => exact h
  | cons m out ih =>
    exact ih (h.told (hout m List.mem_cons_self)) fun x hx => hout x (List.mem_cons_of_mem m hx)

/-! ## Bootstraps -/

/-- Every message is the bootstrap of a market in scope. -/
def Bootstraps (books : BookSnapshot) (subs : List SubFilter) (out : List Sent) : Prop :=
  ∀ m ∈ out, ∃ key acc wall, books.get key = some acc ∧ wanted subs key acc = true ∧
    m = ⟨bootstrap acc key wall, some key, false⟩

theorem leads_toBookScoped (acc : BookAccumulator) (key : BookKey) (scope : ReplayScope) (wall : Nat) :
    leads (acc.toBookScoped key scope wall) = true := by
  cases scope with
  | levels => rfl
  | orders => rfl

theorem typeTag_bootstrap (acc : BookAccumulator) (key : BookKey) (wall : Nat) :
    typeTag (bootstrap acc key wall) = bookKind acc := by
  unfold bootstrap bookKind
  split_ifs <;> rfl

theorem symbol_toBookScoped (acc : BookAccumulator) (key : BookKey) (scope : ReplayScope) (wall : Nat) :
    (acc.toBookScoped key scope wall).symbol = acc.symbol := by
  cases scope with
  | levels => rfl
  | orders => rfl

theorem Bootstraps.append (h : Bootstraps books subs out) (h' : Bootstraps books subs out') :
    Bootstraps books subs (out ++ out') := by
  intro m hm
  rcases List.mem_append.mp hm with hm | hm
  · exact h m hm
  · exact h' m hm

theorem bootstraps_nil : Bootstraps books subs [] := fun _ hm => absurd hm List.not_mem_nil

theorem bootstraps_single {acc : BookAccumulator} (hget : books.get key = some acc)
    (hwanted : ¬ (!wanted subs key acc) = true) (wall : Nat) :
    Bootstraps books subs [⟨bootstrap acc key wall, some key, false⟩] := by
  intro m hm
  exact ⟨key, acc, wall, hget, by simpa using hwanted, List.mem_singleton.mp hm⟩

theorem bootstraps_replay (books : BookSnapshot) (subs : List SubFilter) (now wall : Nat) :
    ∀ (iter : List BookKey) (seen : ClientBooks),
      Bootstraps books subs (seen.replayScoped books subs now wall iter).2
  | [], _ => bootstraps_nil
  | key :: iter, seen => by
    rw [replayScoped_cons]
    refine Bootstraps.append ?_ (bootstraps_replay books subs now wall iter _)
    unfold ClientBooks.replayMarket
    cases hget : books.get key with
    | none => exact bootstraps_nil
    | some acc =>
      dsimp only
      by_cases hwanted : (!wanted subs key acc) = true
      · rw [if_pos hwanted]
        exact bootstraps_nil
      · rw [if_neg hwanted]
        split_ifs
        · exact bootstraps_nil
        · exact bootstraps_single hget hwanted wall

theorem bootstraps_release (books : BookSnapshot) (subs : List SubFilter) (deadline now wall : Nat) (seen : ClientBooks)
    (key : BookKey) : Bootstraps books subs (seen.releaseWithheld books subs deadline now wall key).2.1 := by
  unfold ClientBooks.releaseWithheld
  cases seen.awaiting.get key with
  | none => exact bootstraps_nil
  | some since =>
    dsimp only
    unfold withheldBootstrap
    cases hget : books.get key with
    | none => exact bootstraps_nil
    | some acc =>
      dsimp only
      by_cases hwanted : (!wanted subs key acc) = true
      · rw [if_pos hwanted]
        exact bootstraps_nil
      · rw [if_neg hwanted]
        by_cases hwhole : (!acc.baselined) = true
        · rw [if_pos hwhole]
          exact bootstraps_nil
        · rw [if_neg hwhole]
          by_cases hready : (acc.pendingEmpty || decide (now - since ≥ deadline)) = true
          · rw [if_pos hready]
            exact bootstraps_single hget hwanted wall
          · rw [if_neg hready]
            exact bootstraps_nil

theorem bootstraps_sweep (books : BookSnapshot) (subs : List SubFilter) (deadline now wall : Nat) :
    ∀ (iter : List BookKey) (seen : ClientBooks),
      Bootstraps books subs (seen.sweep books subs deadline now wall iter).2
  | [], _ => bootstraps_nil
  | key :: iter, seen => by
    rw [sweep_cons]
    exact (bootstraps_release books subs deadline now wall seen key).append
      (bootstraps_sweep books subs deadline now wall iter _)

/-- A bootstrap is Clear-led. -/
theorem Bootstraps.led (h : Bootstraps books subs out) {m : Sent} (hm : m ∈ out) (hb : m.msg.batch = some b) :
    leads b = true := by
  obtain ⟨key, acc, wall, -, -, rfl⟩ := h m hm
  dsimp only at hb
  rw [bootstrap_batch] at hb
  cases hb
  exact leads_toBookScoped acc key _ wall

/-- The filters that select a market for its bootstrap select the bootstrap. -/
theorem Bootstraps.selected (h : Bootstraps books scope out)
    (hscope : ∀ key symbol kind, selects scope key symbol kind = true → selects subs key symbol kind = true) :
    ∀ m ∈ out, Selected subs m := by
  intro m hm key b hkey hb
  obtain ⟨k, acc, wall, -, hwanted, rfl⟩ := h m hm
  dsimp only at hkey hb
  cases hkey
  rw [bootstrap_batch] at hb
  cases hb
  dsimp only
  rw [symbol_toBookScoped, typeTag_bootstrap]
  exact hscope _ acc.symbol (bookKind acc) hwanted

/-- Once a market is heard of, its book is given under the type it is served under. -/
theorem Bootstraps.gives (h : Bootstraps books subs out) (hheard : heard key out ≠ []) {acc : BookAccumulator}
    (hget : books.get key = some acc) (s : Scene) : (key, bookKind acc) ∈ (out.foldl Scene.told s).given := by
  obtain ⟨b, hb⟩ := List.exists_mem_of_ne_nil _ hheard
  obtain ⟨m, hm, hmb⟩ := List.mem_filterMap.mp hb
  split_ifs at hmb with hkey
  have hled := h.led hm hmb
  obtain ⟨k, acc', wall, hget', -, rfl⟩ := h m hm
  cases hkey
  rw [hget] at hget'
  cases hget'
  have hgiven := tell_gives hm rfl hmb hled s
  rwa [typeTag_bootstrap] at hgiven

/-! ## What every straight step keeps -/

/-- The types the client holds of a market. -/
def Scene.held (s : Scene) (key : BookKey) : Set String := {kind | (key, kind) ∈ s.given}

/-- The market's newest batch, if it is in scope, is of a type held. -/
def Scene.Ends (s : Scene) (subs : List SubFilter) (key : BookKey) (T : Set String) : Prop :=
  s.line.books.contains key = true → ∀ p, s.newest.get key = some p → passes subs (frameOf p) = true →
    (frameOf p).kind ∈ T

/-- Unless the market is withheld, a client that holds these types is backed in all it has still to read. -/
def Scene.Backs (s : Scene) (subs : List SubFilter) (key : BookKey) (seat : Seat) (T : Set String) : Prop :=
  seat.awaiting.isSome = true ∨ Backed subs seat.watermark (s.Ends subs key) T (framesOf key s.unread)

structure Sound (s : Scene) : Prop where
  accepted : s.line.queue = none → s.line.client = none
  rendered : ∀ q, s.line.queue = some q → ∀ f ∈ q, ∃ b now, f = prepare (.book b) now
  inScope : ∀ c, s.line.client = some c → InScope c.subs s
  backs : ∀ c, s.line.client = some c → ∀ key, s.Backs c.subs key (c.seen.seat key) (s.held key)

variable {l : Line} {seat : Seat}

theorem ends_mono (s : Scene) (subs : List SubFilter) (key : BookKey) :
    ∀ T T', T ⊆ T' → s.Ends subs key T → s.Ends subs key T' :=
  fun _ _ hT h hentry p hp hin => hT (h hentry p hp hin)

theorem line_tell : ∀ (out : List Sent) (s : Scene),
    (out.foldl Scene.told s).line = s.line ∧ (out.foldl Scene.told s).newest = s.newest
  | [], _ => ⟨rfl, rfl⟩
  | m :: out, s => by
    have hm : (s.told m).line = s.line ∧ (s.told m).newest = s.newest := by
      unfold Scene.told
      split <;> exact ⟨rfl, rfl⟩
    obtain ⟨hline, hnewest⟩ := line_tell out (s.told m)
    exact ⟨hline.trans hm.1, hnewest.trans hm.2⟩

theorem line_after (s : Scene) (i : Watermark.Move) (l : Line) (out : List Sent) :
    (s.after i l out).line = l ∧ (s.after i l out).newest = s.noted i := line_tell out (s.moved i l)

/-- Filters that select all a client has met keep all it was given. -/
theorem given_kept (hin : ∀ c, l.client = some c → InScope c.subs s) : s.given ⊆ s.kept l := by
  intro g hg
  refine List.mem_filter.mpr ⟨hg, ?_⟩
  cases hc : l.client with
  | none => rfl
  | some c =>
    rw [Option.all_some]
    cases hm : s.met.get g.1 with
    | none => rfl
    | some m => exact hin c hc g hg m hm

variable (out) in
/-- What is given once the messages are written is given afterwards, but for a market that has left the scope. -/
theorem held_after (hk : s.refused i ≠ some key) :
    (out.foldl Scene.told (s.moved i l)).held key ⊆ (s.after i l out).held key := by
  intro kind hkind
  exact List.mem_filter.mpr ⟨hkind, by simpa using hk⟩

theorem inScope_after (hc : l.client = some c) (hout : ∀ m ∈ out, Selected c.subs m) :
    InScope c.subs (s.after i l out) := by
  have hkept : InScope c.subs (s.moved i l) := by
    intro g hg m hm
    obtain ⟨-, hin⟩ := List.mem_filter.mp hg
    rw [hc, Option.all_some] at hin
    change s.met.get g.1 = some m at hm
    rw [hm] at hin
    exact hin
  intro g hg
  exact hkept.tell hout g (List.mem_of_mem_filter hg)

/-- The scene in which a client reads on. -/
theorem Sound.after (haccepted : l.queue = none → l.client = none)
    (hrendered : ∀ q, l.queue = some q → ∀ f ∈ q, ∃ b now, f = prepare (.book b) now)
    (hout : ∀ c, l.client = some c → ∀ m ∈ out, Selected c.subs m)
    (hbacks : ∀ c, l.client = some c → ∀ key,
      (s.after i l out).Backs c.subs key (c.seen.seat key) ((s.after i l out).held key)) :
    Sound (s.after i l out) := by
  obtain ⟨hline, -⟩ := line_after s i l out
  refine ⟨?_, ?_, fun c hc => ?_, fun c hc => ?_⟩
  · rw [hline]
    exact haccepted
  · rw [hline]
    exact hrendered
  · rw [hline] at hc
    exact inScope_after hc (hout c hc)
  · rw [hline] at hc
    exact hbacks c hc

/-- A market that is not withheld. -/
theorem Scene.Backs.open (h : s.Backs subs key (seen.seat key) T) (hopen : seen.awaiting.get key = none) :
    Backed subs (seen.watermarks.get key) (s.Ends subs key) T (framesOf key s.unread) := by
  refine h.resolve_left ?_
  show ¬ (seen.awaiting.get key).isSome = true
  rw [hopen]
  nofun

/-- A market is backed once it is backed unless withheld. -/
theorem backs_of_open (h : seen.awaiting.get key = none →
    Backed subs (seen.watermarks.get key) (s.Ends subs key) T (framesOf key s.unread)) :
    s.Backs subs key (seen.seat key) T := by
  rcases Option.eq_none_or_eq_some (seen.awaiting.get key) with hopen | ⟨since, hwithheld⟩
  · exact Or.inr (h hopen)
  · refine Or.inl ?_
    show (seen.awaiting.get key).isSome = true
    rw [hwithheld]
    rfl

/-- The same market to read, by a client that holds more of it. -/
theorem Scene.Backs.transfer {s' : Scene} {T T' : Set String} (h : s.Backs subs key seat T)
    (hunread : framesOf key s'.unread = framesOf key s.unread)
    (hbooks : s'.line.books.contains key = true → s.line.books.contains key = true)
    (hnewest : s'.newest.get key = s.newest.get key) (hT : T ⊆ T') : s'.Backs subs key seat T' := by
  refine h.imp_right fun h => ?_
  rw [hunread]
  refine h.more (fun T T' hT hends hentry p hp hin => ?_) hT
  exact hT (hends (hbooks hentry) p (hnewest ▸ hp) hin)

/-! ### The arbiter's steps -/

/-- A step that writes nothing and leaves the filters alone takes no book from the client. -/
theorem Sound.held_quiet (h : Sound s) (hrefused : s.refused i = none)
    (hsubs : ∀ c', l.client = some c' → ∃ c, s.line.client = some c ∧ c.subs = c'.subs) (key : BookKey) :
    s.held key ⊆ (s.after i l []).held key := by
  have hkept : s.given ⊆ s.kept l := given_kept fun c' hc' => by
    obtain ⟨c, hc, hsame⟩ := hsubs c' hc'
    rw [← hsame]
    exact h.inScope c hc
  have hk : s.refused i ≠ some key := by
    rw [hrefused]
    nofun
  exact fun kind hkind => held_after [] hk (hkept hkind)

theorem opens_prepare (b : NormalizedBook) (now : Nat) : opens (prepare (.book b) now) = leads b := by
  show Option.any leads (if b.orderLevel then FeedMessage.orderBook _ else FeedMessage.book _).batch = leads b
  split
  · rfl
  · rfl

/-- When a batch is serialized makes no difference to what its frame gives. -/
theorem hold_prepare (subs : List SubFilter) (mark : Option (Nat × Nat)) (T : Set String) (b : NormalizedBook)
    (now : Nat) : hold subs mark T (prepare (.book b) now) = hold subs mark T (frameOf b) := by
  unfold hold frameOf
  rw [opens_prepare, opens_prepare]
  rfl

theorem framesOf_frameOf (b : NormalizedBook) (now : Nat) :
    framesOf key [prepare (.book b) now] = if marketOf b = key then [prepare (.book b) now] else [] := by
  unfold framesOf
  split_ifs with hk
  · exact List.filter_cons_of_pos (decide_eq_true (congrArg some hk))
  · exact List.filter_cons_of_neg fun heq => hk (Option.some.inj (of_decide_eq_true heq))

theorem contains_publishBook (hk : marketOf b ≠ key) :
    (publishBook books b).contains key = true → books.contains key = true := by
  rw [FinMap.contains_eq_true, FinMap.contains_eq_true, publishBook, FinMap.get_insert_of_ne _ _ (Ne.symm hk)]
  exact id

/-- **A batch is applied.** -/
theorem Sound.apply (h : Sound s) (hs : s.line.sending = none) (hstraight : Straight cfg s (.apply b)) :
    Sound (s.after (.apply b) { s.line with books := publishBook s.line.books b, sending := some b } []) := by
  refine Sound.after h.accepted h.rendered (fun _ _ => selected_nil) fun c hc key => ?_
  have hc' : s.line.client = some c := hc
  have hheld := h.held_quiet (i := .apply b)
    (l := { s.line with books := publishBook s.line.books b, sending := some b }) rfl (fun c' hc' => ⟨c', hc', rfl⟩)
  have hnoted : s.noted (.apply b) = s.newest.insert (marketOf b) b := if_pos (by rw [hs]; rfl)
  have hunread : (s.after (.apply b) { s.line with books := publishBook s.line.books b, sending := some b } []).unread =
      s.unread ++ [frameOf b] := by
    unfold Scene.unread
    rw [hs]
    exact congrArg (· ++ [frameOf b]) (List.append_nil _).symm
  by_cases hk : marketOf b = key
  · subst hk
    refine backs_of_open fun hopen => ?_
    have hbacked := (h.backs c hc' (marketOf b)).open hopen
    rw [hunread, framesOf_append, show framesOf (marketOf b) [frameOf b] = [frameOf b] from
      (framesOf_frameOf b 0).trans (if_pos rfl), backed_snoc]
    refine hbacked.more (fun T T' hT hends => ?_) (hheld (marketOf b))
    -- Either the type is held already, or the batch gives it.
    have hgoes : passes c.subs (frameOf b) = true → (frameOf b).kind ∈ T' ∨
        leads b = true ∧ Fresh (c.seen.seat (marketOf b)).watermark (frameOf b) := by
      intro hin
      refine (hstraight hs c hc' hopen hin).imp_left fun ⟨hentry, p, hp, hpin, htype⟩ => ?_
      have hheld := hT (hends hentry p hp hpin)
      rwa [show (frameOf p).kind = (frameOf b).kind from congrArg (fun level : Bool => if level then "order_book" else "book") htype] at hheld
    refine ⟨fun hin hopens => (hgoes hin).resolve_right fun ⟨hled, _⟩ => ?_, fun _ p hp hin => ?_⟩
    · rw [frameOf, opens_prepare, hled] at hopens
      cases hopens
    · change (s.noted (.apply b)).get (marketOf b) = some p at hp
      rw [hnoted, FinMap.get_insert_self] at hp
      cases hp
      refine ⟨hin, (hgoes hin).imp_right fun ⟨hled, hfresh⟩ => ⟨?_, hfresh, rfl⟩⟩
      rw [frameOf, opens_prepare, hled]
  · refine (h.backs c hc' key).transfer ?_ (contains_publishBook hk) ?_ (hheld key)
    · rw [hunread, framesOf_append, show framesOf key [frameOf b] = [] from
        (framesOf_frameOf b 0).trans (if_neg hk), List.append_nil]
    · show (s.noted (.apply b)).get key = s.newest.get key
      rw [hnoted, FinMap.get_insert_of_ne _ _ (Ne.symm hk)]

/-- A batch is broadcast: what was being sent is in the queue, serialized later. -/
theorem Sound.broadcast (h : Sound s) (now : Nat) : Sound (s.after (.broadcast now) (s.line.broadcast now) []) := by
  cases hs : s.line.sending with
  | none =>
    have hline : s.line.broadcast now = s.line := by
      unfold Line.broadcast
      rw [hs]
    rw [hline]
    refine Sound.after h.accepted h.rendered (fun _ _ => selected_nil) fun c hc key => ?_
    exact (h.backs c hc key).transfer rfl id rfl (h.held_quiet rfl (fun c' hc' => ⟨c', hc', rfl⟩) key)
  | some b =>
    have hline : s.line.broadcast now =
        { s.line with sending := none, queue := s.line.queue.map fun q => q ++ [prepare (.book b) now] } := by
      unfold Line.broadcast
      rw [hs]
    rw [hline]
    refine Sound.after (fun hq => h.accepted (Option.map_eq_none_iff.mp hq)) (fun q' hq' => ?_) (fun _ _ => selected_nil)
      fun c hc key => ?_
    · obtain ⟨q, hq, rfl⟩ := Option.map_eq_some_iff.mp hq'
      intro f hf
      rcases List.mem_append.mp hf with hf | hf
      · exact h.rendered q hq f hf
      · exact ⟨b, now, List.mem_singleton.mp hf⟩
    · have hheld := h.held_quiet (i := .broadcast now)
        (l := { s.line with sending := none, queue := s.line.queue.map fun q => q ++ [prepare (.book b) now] }) rfl
        (fun c' hc' => ⟨c', hc', rfl⟩) key
      cases hq : s.line.queue with
      | none =>
        rw [h.accepted hq] at hc
        cases hc
      | some q =>
        have hbacks := h.backs c hc key
        have hold : framesOf key s.unread = framesOf key q ++ framesOf key [frameOf b] := by
          rw [← framesOf_append]
          unfold Scene.unread
          rw [hq, hs]
          rfl
        have hnew : framesOf key (s.after (.broadcast now)
            { s.line with sending := none, queue := some (q ++ [prepare (.book b) now]) } []).unread =
              framesOf key q ++ framesOf key [prepare (.book b) now] := by
          rw [← framesOf_append]
          exact congrArg (framesOf key) (List.append_nil _)
        rw [hq] at hheld
        refine hbacks.imp_right fun hbacked => ?_
        rw [Option.map_some, hnew]
        rw [hold] at hbacked
        rw [frameOf, framesOf_frameOf] at hbacked
        rw [framesOf_frameOf]
        split_ifs at hbacked ⊢
        · rw [backed_snoc] at hbacked ⊢
          refine hbacked.more (fun T T' hT hlast => ?_) hheld
          rw [opens_prepare] at hlast ⊢
          rw [hold_prepare] at hlast ⊢
          exact ⟨fun hin hopens => hT (hlast.1 hin hopens),
            ends_mono s c.subs key _ _ (hold_mono hT id fun _ => id) hlast.2⟩
        · exact hbacked.more (ends_mono s c.subs key) hheld

theorem Sound.evict (h : Sound s) (k : BookKey) :
    Sound (s.after (.evict k) { s.line with books := s.line.books.erase k } []) := by
  refine Sound.after h.accepted h.rendered (fun _ _ => selected_nil) fun c hc key => ?_
  refine (h.backs c hc key).transfer rfl (fun hentry => ?_) rfl
    (h.held_quiet rfl (fun c' hc' => ⟨c', hc', rfl⟩) key)
  change (s.line.books.erase k).contains key = true at hentry
  rw [FinMap.contains_eq_true] at hentry ⊢
  obtain ⟨acc, hget⟩ := hentry
  rw [FinMap.get_erase] at hget
  split_ifs at hget
  exact ⟨acc, hget⟩

theorem Sound.accept (h : Sound s) :
    Sound (s.after .accept { s.line with queue := some (s.line.queue.getD []) } []) := by
  refine Sound.after nofun (fun q hq => ?_) (fun _ _ => selected_nil) fun c hc key => ?_
  · cases hq
    cases hq' : s.line.queue with
    | none => exact fun f hf => absurd hf List.not_mem_nil
    | some q => exact h.rendered q hq'
  · exact (h.backs c hc key).transfer rfl id rfl (h.held_quiet rfl (fun c' hc' => ⟨c', hc', rfl⟩) key)

/-- **A client finds frames gone.** -/
theorem Sound.lagged (h : Sound s) {n : Nat} (hstraight : Straight cfg s (.lagged n)) :
    Sound (s.after (.lagged n) (s.line.lagged n) []) := by
  cases hc : s.line.client with
  | none =>
    have hline : s.line.lagged n = s.line := by
      unfold Line.lagged
      rw [hc]
    rw [hline]
    refine Sound.after h.accepted h.rendered (fun _ _ => selected_nil) fun c hc key => ?_
    exact (h.backs c hc key).transfer rfl id rfl (h.held_quiet rfl (fun c' hc' => ⟨c', hc', rfl⟩) key)
  | some c =>
    have hline : s.line.lagged n =
        { s.line with queue := s.line.queue.map fun q => q.drop n, client := some c.lagged } := by
      unfold Line.lagged
      rw [hc]
    have hsubs : c.lagged.subs = c.subs := by
      unfold Client.lagged
      split <;> rfl
    obtain ⟨q, hq⟩ : ∃ q, s.line.queue = some q := by
      refine Option.ne_none_iff_exists'.mp fun hq => ?_
      rw [h.accepted hq] at hc
      cases hc
    rw [hline]
    refine Sound.after (fun hnone => ?_) (fun q' hq' f hf => ?_) (fun _ _ => selected_nil) fun c' hc' key => ?_
    · rw [hq] at hnone
      cases hnone
    · rw [hq] at hq'
      cases hq'
      exact h.rendered q hq f (List.mem_of_mem_drop hf)
    · cases hc'
      have hheld := h.held_quiet (i := .lagged n)
        (l := { s.line with queue := s.line.queue.map fun q => q.drop n, client := some c.lagged }) rfl
        (fun c' hc' => ⟨c, hc, by cases hc'; exact hsubs.symm⟩) key
      have hunread : framesOf key s.unread = framesOf key (q.take n) ++ framesOf key (s.after (.lagged n)
          { s.line with queue := s.line.queue.map fun q => q.drop n, client := some c.lagged } []).unread := by
        rw [← framesOf_append, ← List.take_append_drop n s.unread]
        unfold Scene.unread
        rw [hq]
        refine congrArg (framesOf key) ?_
        rw [List.take_append_drop]
        show q ++ _ = q.take n ++ (q.drop n ++ _)
        rw [← List.append_assoc, List.take_append_drop]
        rfl
      rw [hsubs, lagged_seen]
      refine backs_of_open fun hopen => Backed.more ?_ (ends_mono s c.subs key) hheld
      have hbacked := (h.backs c hc key).open hopen
      rw [hunread] at hbacked
      refine hbacked.lose (ends_mono s c.subs key) fun f hf hopens hin => ?_
      obtain ⟨hf, hmarket⟩ := List.mem_filter.mp hf
      refine (hstraight c hc f (by rw [hq]; exact hf) hopens hin key (of_decide_eq_true hmarket)).resolve_left ?_
      rw [hopen]
      nofun

/-! ### Replays -/

theorem unread_after (s : Scene) (i : Watermark.Move) (l : Line) (out : List Sent) :
    (s.after i l out).unread = l.queue.getD [] ++ l.sending.toList.map frameOf := by
  obtain ⟨hline, -⟩ := line_after s i l out
  unfold Scene.unread
  rw [hline]

/-- What comes into scope by no filter is backed by nothing. -/
theorem StaysOut.backed (h : StaysOut s subs key fun _ => false) :
    Backed subs mark (s.Ends subs key) T (framesOf key s.unread) := by
  refine backed_of_out (fun f hf hopens => ?_) fun T hentry p hp hin => ?_
  · by_contra hin
    exact Bool.false_ne_true (h.1 f hf hopens (by simpa using hin))
  · exact absurd (h.2 hentry p hp hin) Bool.false_ne_true

theorem ReadsOn.backed {kind : String} (h : ReadsOn s subs key kind) (hkind : kind ∈ T) :
    Backed subs mark (s.Ends subs key) T (framesOf key s.unread) := by
  refine backed_of_held hkind h.1 fun T hkind _ p hp _ => ?_
  rw [h.2 p hp]
  exact hkind

/-- **A replay, on one market.** -/
theorem Replays.backs {already : PreparedFrame → Bool} {now wall : Nat}
    (h : Replays s seen subs scope already key)
    (hgives : ((seen.seat key).replayed (s.line.books.get key) scope key now wall).2 ≠ [] →
      ∀ acc, s.line.books.get key = some acc → bookKind acc ∈ T)
    (hstays : seen.awaiting.get key = none → StaysOut s subs key already →
      Backed subs (seen.watermarks.get key) (s.Ends subs key) T (framesOf key s.unread)) :
    s.Backs subs key ((seen.seat key).replayed (s.line.books.get key) scope key now wall).1 T := by
  have hquiet : (seen.awaiting.get key = none → StaysOut s subs key already) → s.Backs subs key (seen.seat key) T :=
    fun hout => backs_of_open fun hopen => hstays hopen (hout hopen)
  unfold Replays at h
  unfold Seat.replayed at hgives ⊢
  cases hget : s.line.books.get key with
  | none =>
    rw [hget] at h
    exact hquiet h
  | some acc =>
    rw [hget] at h hgives
    dsimp only at h hgives ⊢
    by_cases hwanted : wanted scope key acc = true
    · rw [if_pos hwanted] at h
      rw [hwanted, Bool.not_true, if_neg Bool.false_ne_true] at hgives ⊢
      by_cases hopen : (!acc.baselined || !acc.pendingEmpty) = true
      · rw [if_pos hopen]
        exact Or.inl rfl
      · rw [if_neg hopen] at hgives ⊢
        simp only [Bool.or_eq_true, Bool.not_eq_true', not_or, Bool.not_eq_false] at hopen
        exact Or.inr ((h hopen.1 hopen.2).backed (hgives (List.cons_ne_nil _ _) acc rfl))
    · rw [if_neg hwanted] at h
      rw [if_pos (by simpa using hwanted)]
      exact hquiet h

/-- A client's own step that replays the markets some filters select. -/
theorem Sound.replay (h : Sound s) (hqueue : s.line.queue ≠ none) (hnoted : s.noted i = s.newest)
    (hrefused : s.refused i = none) (c₀ : Client) {already : PreparedFrame → Bool} (hsubs : c.subs = c₀.subs)
    (hseen : c.seen = (c₀.replay s.line.books scope t).1.seen)
    (hiter : ∀ key, s.line.books.contains key = true → key ∈ t.iter)
    (hscope : ∀ key symbol kind, selects scope key symbol kind = true → selects c₀.subs key symbol kind = true)
    (hreplays : ∀ key, Replays s c₀.seen c₀.subs scope already key)
    (hstays : ∀ key T, (∀ kind, (key, kind) ∈ s.kept { s.line with client := some c } → kind ∈ T) →
      c₀.seen.awaiting.get key = none → StaysOut s c₀.subs key already →
      Backed c₀.subs (c₀.seen.watermarks.get key) (s.Ends c₀.subs key) T (framesOf key s.unread)) :
    Sound (s.after i { s.line with client := some c } (c₀.replay s.line.books scope t).2) := by
  have hboot : Bootstraps s.line.books scope (c₀.replay s.line.books scope t).2 :=
    bootstraps_replay s.line.books scope t.now t.wall t.iter c₀.seen
  obtain ⟨hline, hnewest⟩ := line_after s i { s.line with client := some c } (c₀.replay s.line.books scope t).2
  refine Sound.after (fun hq => absurd hq hqueue) h.rendered (fun c' hc' => ?_) fun c' hc' key => ?_
  · cases hc'
    rw [hsubs]
    exact hboot.selected hscope
  · cases hc'
    have hk : s.refused i ≠ some key := by
      rw [hrefused]
      nofun
    have hseat : (c₀.replay s.line.books scope t).1.seen.seat key =
        ((c₀.seen.seat key).replayed (s.line.books.get key) scope key t.now t.wall).1 :=
      congrArg Prod.fst (replay_seat hiter scope key)
    have hheard : heard key (c₀.replay s.line.books scope t).2 =
        ((c₀.seen.seat key).replayed (s.line.books.get key) scope key t.now t.wall).2 :=
      congrArg Prod.snd (replay_seat hiter scope key)
    have hafter : ((c₀.replay s.line.books scope t).2.foldl Scene.told (s.moved i { s.line with client := some c })).held
        key ⊆ (s.after i { s.line with client := some c } (c₀.replay s.line.books scope t).2).held key := held_after _ hk
    have hbacks : s.Backs c₀.subs key _ _ := (hreplays key).backs
      (fun hne acc hget => hafter (hboot.gives (hheard ▸ hne) hget _))
      (hstays key _ fun kind hkind => hafter (given_tell _ _ hkind))
    rw [← hseat, ← hseen, ← hsubs] at hbacks
    refine hbacks.transfer ?_ ?_ ?_ fun _ => id
    · rw [unread_after]
      rfl
    · rw [hline]
      exact id
    · rw [hnewest, hnoted]

theorem Sound.idle (h : Sound s) (hnoted : s.noted i = s.newest) (hrefused : s.refused i = none) :
    Sound (s.after i s.line []) :=
  Sound.after h.accepted h.rendered (fun _ _ => selected_nil) fun c hc key =>
    (h.backs c hc key).transfer rfl id (by rw [(line_after s i s.line []).2, hnoted])
      (h.held_quiet hrefused (fun c' hc' => ⟨c', hc', rfl⟩) key)

/-- A client that stays as it is. -/
theorem Sound.still (h : Sound s) (hc : s.line.client = some c) (hnoted : s.noted i = s.newest)
    (hrefused : s.refused i = none) : Sound (s.after i { s.line with client := some c } []) := by
  rw [← hc]
  exact h.idle hnoted hrefused

theorem selects_append {f : SubFilter} (hne : subs ≠ []) {symbol kind : String}
    (h : selects subs key symbol kind = true) : selects (subs ++ [f]) key symbol kind = true := by
  unfold selects at h ⊢
  rw [List.isEmpty_eq_false_iff.mpr hne, Bool.false_or] at h
  rw [List.any_append, h, Bool.true_or, Bool.or_true]

theorem selects_last {f : SubFilter} {symbol kind : String} (h : selects [f] key symbol kind = true) :
    selects (subs ++ [f]) key symbol kind = true := by
  unfold selects at h ⊢
  rw [List.any_append]
  rw [show ([f] : List SubFilter).isEmpty = false from rfl, Bool.false_or] at h
  rw [h, Bool.or_true, Bool.or_true]

theorem passes_append {f : SubFilter} {x : PreparedFrame} (hne : subs ≠ []) (h : passes subs x = true) :
    passes (subs ++ [f]) x = true := by
  unfold passes at h ⊢
  rw [List.isEmpty_eq_false_iff.mpr hne, Bool.false_or] at h
  rw [List.any_append, h, Bool.true_or, Bool.or_true]

theorem Sound.connect (h : Sound s) (hiter : Iterates s (.connect t)) (hstraight : Straight cfg s (.connect t)) :
    Sound (s.after (.connect t) (s.line.connect t).1 (s.line.connect t).2) := by
  obtain heq | ⟨hqueue, hc, heq⟩ := Watermark.connect_cases s.line t
  · rw [heq]
    exact h.idle rfl rfl
  · rw [heq]
    refine h.replay hqueue rfl rfl ⟨[], ⟨∅, ∅⟩, none, false⟩ rfl rfl hiter (fun _ _ _ => id) (hstraight ?_ hc) fun key T _ _ hout => hout.backed
    exact Option.isSome_iff_ne_none.mpr hqueue

theorem Sound.subscribe (h : Sound s) {f : SubFilter} (hiter : Iterates s (.subscribe f t))
    (hstraight : Straight cfg s (.subscribe f t)) :
    Sound (s.after (.subscribe f t) (s.line.turn fun c => c.subscribe cfg s.line.books f t).1
      (s.line.turn fun c => c.subscribe cfg s.line.books f t).2) := by
  unfold Line.turn
  cases hc : s.line.client with
  | none => exact h.idle rfl rfl
  | some c =>
    dsimp only
    unfold Client.subscribe
    by_cases hfull : c.subs.length ≥ cfg.maxSubs
    · rw [if_pos hfull]
      exact h.still hc rfl rfl
    · rw [if_neg hfull]
      by_cases hmem : f ∈ c.subs
      · rw [if_pos hmem]
        exact h.still hc rfl rfl
      · rw [if_neg hmem]
        have hqueue : s.line.queue ≠ none := fun hq => by
          rw [h.accepted hq] at hc
          cases hc
        refine h.replay hqueue rfl rfl { c with subs := c.subs ++ [f] } rfl rfl hiter
          (fun _ _ _ => selects_last) (hstraight c hc (not_le.mp hfull) hmem) fun key T hT hopen hout => ?_
        by_cases hsubs : c.subs = []
        · -- The first filter narrows the feed.
          rw [hsubs] at hout ⊢
          exact hout.backed
        · have hkept : s.given ⊆ s.kept { s.line with client := some { c with subs := c.subs ++ [f] } } :=
            given_kept fun c' hc' => by
              cases hc'
              exact fun g hg m hm => selects_append hsubs (h.inScope c hc g hg m hm)
          refine ((h.backs c hc key).open hopen).mono (fun x _ => passes_append hsubs) (fun x hx hopens hin => ?_) (fun _ => id)
            (fun T T' hT hends hentry p hp hin => hT (hends hentry p hp ?_)) fun kind hkind => hT kind (hkept hkind)
          · exact (Bool.and_eq_true_iff.mp (hout.1 x hx hopens hin)).2
          · exact (Bool.and_eq_true_iff.mp (hout.2 hentry p hp hin)).2

theorem Sound.unsubscribe (h : Sound s) {f : SubFilter} (hiter : Iterates s (.unsubscribe f t))
    (hstraight : Straight cfg s (.unsubscribe f t)) :
    Sound (s.after (.unsubscribe f t) (s.line.turn fun c => c.unsubscribe s.line.books f t).1
      (s.line.turn fun c => c.unsubscribe s.line.books f t).2) := by
  unfold Line.turn
  cases hc : s.line.client with
  | none => exact h.idle rfl rfl
  | some c =>
    dsimp only
    unfold Client.unsubscribe
    dsimp only
    by_cases hwidened : (c.subs.filter fun x => x ≠ f).length ≠ c.subs.length
    · rw [if_pos hwidened]
      have hmem : f ∈ c.subs := by
        by_contra hmem
        refine hwidened (congrArg List.length (List.filter_eq_self.mpr fun x hx => decide_eq_true ?_))
        rintro rfl
        exact hmem hx
      have hqueue : s.line.queue ≠ none := fun hq => by
        rw [h.accepted hq] at hc
        cases hc
      exact h.replay hqueue rfl rfl { c with subs := c.subs.filter fun x => x ≠ f } rfl rfl hiter
        (fun _ _ _ => id) (hstraight c hc hmem) fun key T _ _ hout => hout.backed
    · rw [if_neg hwidened]
      exact h.still hc rfl rfl

theorem Sound.repair (h : Sound s) (hiter : Iterates s (.repair t)) (hstraight : Straight cfg s (.repair t)) :
    Sound (s.after (.repair t) (s.line.turn fun c => c.repair cfg s.line.books t).1
      (s.line.turn fun c => c.repair cfg s.line.books t).2) := by
  unfold Line.turn
  cases hc : s.line.client with
  | none => exact h.idle rfl rfl
  | some c =>
    dsimp only
    unfold Client.repair
    by_cases hready : lagRepairReady c.lagRepairDue c.lastLagRepair cfg.lagRepairMinInterval t.now = true
    · rw [if_pos hready]
      have hqueue : s.line.queue ≠ none := fun hq => by
        rw [h.accepted hq] at hc
        cases hc
      refine h.replay hqueue rfl rfl { c with lagRepairDue := false } rfl rfl hiter
        (fun _ _ _ => id) (hstraight c hc hready) fun key T hT hopen _ => ?_
      have hkept : s.given ⊆ s.kept
          { s.line with client := some { c with
            seen := (({ c with lagRepairDue := false } : Client).replay s.line.books c.subs t).1.seen
            lagRepairDue := false
            lastLagRepair := some t.written } } :=
        given_kept fun c' hc' => by
          cases hc'
          exact h.inScope c hc
      exact ((h.backs c hc key).open hopen).more (ends_mono s c.subs key) fun kind hkind => hT kind (hkept hkind)
    · rw [if_neg hready]
      exact h.still hc rfl rfl

/-! ### Releases and frames -/

/-- **A release, on one market**: it is withheld still, or the client is backed in it. -/
theorem Releases.backs (T' : Set String) (h : Releases s cfg c t key) (hbacks : s.Backs c.subs key (c.seen.seat key) T) (hT : T ⊆ T')
    (hgives : ((c.seen.seat key).released (s.line.books.get key) c.subs key cfg.bootstrapReleaseDeadline t.now
      t.wall).2.1 ≠ [] → ∀ acc, s.line.books.get key = some acc → bookKind acc ∈ T') :
    let r := (c.seen.seat key).released (s.line.books.get key) c.subs key cfg.bootstrapReleaseDeadline t.now t.wall
    (r.2.2 = true → r.1.awaiting.isSome = true) ∧
      (r.2.2 = false → Backed c.subs r.1.watermark (s.Ends c.subs key) T' (framesOf key s.unread)) := by
  intro r
  have hr : r = (c.seen.seat key).released (s.line.books.get key) c.subs key cfg.bootstrapReleaseDeadline t.now t.wall :=
    rfl
  rw [← hr] at hgives
  clear_value r
  unfold Seat.released at hr
  unfold Releases withheldBootstrap at h
  cases hwithheld : (c.seen.seat key).awaiting with
  | none =>
    rw [hwithheld] at hr
    rw [hr]
    refine ⟨nofun, fun _ => ?_⟩
    refine (hbacks.resolve_left ?_).more (ends_mono s c.subs key) hT
    rw [hwithheld]
    nofun
  | some since =>
    rw [hwithheld] at hr
    have h := h since hwithheld
    have hheld : (c.seen.seat key).awaiting.isSome = true := by rw [hwithheld]; rfl
    cases hget : s.line.books.get key with
    | none =>
      rw [hget] at hr
      rw [hr]
      exact ⟨fun _ => hheld, nofun⟩
    | some acc =>
      rw [hget] at hr h hgives
      dsimp only at hr h
      by_cases hwanted : (!wanted c.subs key acc) = true
      · rw [if_pos hwanted] at hr h
        rw [hr]
        exact ⟨nofun, fun _ => h.backed⟩
      · rw [if_neg hwanted] at hr h
        by_cases hwhole : (!acc.baselined) = true
        · rw [if_pos hwhole] at hr
          rw [hr]
          exact ⟨fun _ => hheld, nofun⟩
        · rw [if_neg hwhole] at hr h
          by_cases hready : (acc.pendingEmpty || decide (t.now - since ≥ cfg.bootstrapReleaseDeadline)) = true
          · rw [if_pos hready] at hr h
            rw [hr] at hgives ⊢
            exact ⟨nofun, fun _ => h.backed (hgives (List.cons_ne_nil _ _) acc rfl)⟩
          · rw [if_neg hready] at hr
            rw [hr]
            exact ⟨fun _ => hheld, nofun⟩

theorem Sound.sweep (h : Sound s) (hstraight : Straight cfg s (.sweep t)) :
    Sound (s.after (.sweep t) (s.line.turn fun c => c.sweep cfg s.line.books t).1
      (s.line.turn fun c => c.sweep cfg s.line.books t).2) := by
  unfold Line.turn
  cases hc : s.line.client with
  | none => exact h.idle rfl rfl
  | some c =>
    dsimp only
    have hboot : Bootstraps s.line.books c.subs (c.sweep cfg s.line.books t).2 :=
      bootstraps_sweep s.line.books c.subs cfg.bootstrapReleaseDeadline t.now t.wall t.iter c.seen
    obtain ⟨hline, hnewest⟩ := line_after s (.sweep t) { s.line with client := some (c.sweep cfg s.line.books t).1 }
      (c.sweep cfg s.line.books t).2
    refine Sound.after (fun hq => ?_) h.rendered (fun c' hc' => ?_) fun c' hc' key => ?_
    · rw [h.accepted hq] at hc
      cases hc
    · cases hc'
      exact hboot.selected fun _ _ _ => id
    · cases hc'
      have hkept : s.given ⊆ s.kept { s.line with client := some (c.sweep cfg s.line.books t).1 } :=
        given_kept fun c' hc' => by
          cases hc'
          exact h.inScope c hc
      have hafter : ((c.sweep cfg s.line.books t).2.foldl Scene.told
          (s.moved (.sweep t) { s.line with client := some (c.sweep cfg s.line.books t).1 })).held key ⊆
            (s.after (.sweep t) { s.line with client := some (c.sweep cfg s.line.books t).1 }
              (c.sweep cfg s.line.books t).2).held key := held_after _ nofun
      have hheld : s.held key ⊆ (s.after (.sweep t) { s.line with client := some (c.sweep cfg s.line.books t).1 }
          (c.sweep cfg s.line.books t).2).held key := fun kind hkind => hafter (given_tell _ _ (hkept hkind))
      have hbacks : s.Backs c.subs key ((c.sweep cfg s.line.books t).1.seen.seat key)
          ((s.after (.sweep t) { s.line with client := some (c.sweep cfg s.line.books t).1 }
            (c.sweep cfg s.line.books t).2).held key) := by
        by_cases hmem : key ∈ t.iter
        · obtain ⟨hseat, hheard⟩ := sweep_mem s.line.books c.subs cfg.bootstrapReleaseDeadline t.now t.wall t.iter c.seen
            t.nodup hmem
          have hrelease := Releases.backs _ (hstraight c hc key hmem) (h.backs c hc key) hheld
            fun hne acc hget => hafter (hboot.gives (hheard ▸ hne) hget _)
          change s.Backs c.subs key ((c.seen.sweep _ _ _ _ _ _).1.seat key) _
          rw [hseat]
          cases hflag : ((c.seen.seat key).released (s.line.books.get key) c.subs key cfg.bootstrapReleaseDeadline t.now
            t.wall).2.2 with
          | true => exact Or.inl (hrelease.1 hflag)
          | false => exact Or.inr (hrelease.2 hflag)
        · obtain ⟨hseat, -⟩ := sweep_notMem s.line.books c.subs cfg.bootstrapReleaseDeadline t.now t.wall t.iter c.seen hmem
          change s.Backs c.subs key ((c.seen.sweep _ _ _ _ _ _).1.seat key) _
          rw [hseat]
          exact (h.backs c hc key).transfer rfl id rfl hheld
      refine hbacks.transfer ?_ ?_ ?_ fun _ => id
      · rw [unread_after]
        rfl
      · rw [hline]
        exact id
      · rw [hnewest]
        rfl

theorem Releases.told (h : Releases s cfg c t key) (hbacks : s.Backs c.subs key (c.seen.seat key) (s.held key))
    (s₁ : Scene) (hkept : s.given ⊆ s₁.given) :
    let r := c.seen.releaseWithheld s.line.books c.subs cfg.bootstrapReleaseDeadline t.now t.wall key
    (r.2.2 = true → (r.1.awaiting.get key).isSome = true) ∧
      (r.2.2 = false → Backed c.subs (r.1.watermarks.get key) (s.Ends c.subs key) ((r.2.1.foldl Scene.told s₁).held key)
        (framesOf key s.unread)) := by
  intro r
  have hr : (r.1.seat key, heard key r.2.1, r.2.2) = (c.seen.seat key).released (s.line.books.get key) c.subs key
      cfg.bootstrapReleaseDeadline t.now t.wall :=
    releaseWithheld_self s.line.books c.subs cfg.bootstrapReleaseDeadline t.now t.wall key c.seen
  have hboot : Bootstraps s.line.books c.subs r.2.1 := bootstraps_release _ _ _ _ _ _ _
  have hbacks := Releases.backs ((r.2.1.foldl Scene.told s₁).held key) h hbacks
    (fun kind hkind => given_tell _ _ (hkept hkind))
  rw [← hr] at hbacks
  exact hbacks fun hne acc hget => hboot.gives hne hget s₁

/-- What becomes of a frame: withheld, dropped by the watermark, or judged by the filters. -/
theorem forward_outcomes {deadline now wall : Nat} (seen : ClientBooks) (hkey : f.bookMarket = some key) :
    let r := seen.releaseWithheld books subs deadline now wall key
    let g := seen.forward books subs deadline now wall f
    r.2.2 = true ∧ g = (r.1, r.2.1) ∨ r.2.2 = false ∧ g = (r.1, r.2.1) ∧ ¬ Fresh (r.1.watermarks.get key) f ∨
      r.2.2 = false ∧ g.2 = r.2.1 ++ ClientBooks.write subs f ∧ g.1.watermarks.get key = none := by
  intro r g
  have hg : g = seen.forward books subs deadline now wall f := rfl
  have hr : seen.releaseWithheld books subs deadline now wall key = r := rfl
  clear_value r g
  unfold ClientBooks.forward at hg
  rw [hkey] at hg
  dsimp only at hg
  rw [hr] at hg
  obtain ⟨seen', out, held⟩ := r
  cases held with
  | true => exact Or.inl ⟨rfl, hg⟩
  | false =>
    right
    dsimp only at hg ⊢
    cases hmark : seen'.watermarks.get key with
    | none =>
      rw [hmark] at hg
      rw [hg]
      exact Or.inr ⟨rfl, rfl, hmark⟩
    | some mark =>
      obtain ⟨w, since⟩ := mark
      rw [hmark] at hg
      dsimp only at hg
      by_cases hold : f.recvTsNs < w ∧ now - since < deadline
      · rw [if_pos hold] at hg
        exact Or.inl ⟨rfl, hg, fun hfresh => absurd (hfresh w since rfl) (not_le.mpr hold.1)⟩
      · rw [if_neg hold] at hg
        rw [hg]
        exact Or.inr ⟨rfl, rfl, FinMap.get_erase_self _ _⟩

theorem source_name (b : NormalizedBook) : (SourceKey.of b).name = b.venue := by
  unfold SourceKey.of SourceKey.new
  split_ifs <;> rfl

variable (subs) in
/-- A frame written shows what the filters judged it by. -/
theorem prepare_shows (b : NormalizedBook) (now : Nat) :
    (prepare (.book b) now).payload.batch = some { b with wsSendTsNs := now } ∧
      typeTag (prepare (.book b) now).payload = (prepare (.book b) now).kind ∧
      passes subs (prepare (.book b) now) = selects subs (marketOf b) b.symbol (prepare (.book b) now).kind := by
  refine ⟨?_, ?_, ?_⟩
  · show (if b.orderLevel then FeedMessage.orderBook _ else FeedMessage.book _).batch = _
    split_ifs <;> rfl
  · show typeTag (if b.orderLevel then FeedMessage.orderBook _ else FeedMessage.book _) = if b.orderLevel then _ else _
    split_ifs <;> rfl
  · unfold selects
    rw [show (marketOf b).source.name = b.venue from source_name b]
    rfl

theorem selected_write (b : NormalizedBook) (now : Nat) :
    ∀ m ∈ ClientBooks.write subs (prepare (.book b) now), Selected subs m := by
  obtain ⟨hbatch, htag, hpasses⟩ := prepare_shows subs b now
  intro m hm key b' hkey hb'
  unfold ClientBooks.write at hm
  split_ifs at hm with hin
  · rw [List.mem_singleton.mp hm] at hkey hb' ⊢
    cases hkey
    dsimp only at hb' ⊢
    rw [hbatch] at hb'
    cases hb'
    rw [htag]
    exact hpasses ▸ hin
  · cases hm

theorem refused_forward {q : List PreparedFrame} (hc : s.line.client = some c) (hq : s.line.queue = some (f :: q))
    (t : Moment) : s.refused (.forward t) = if passes c.subs f then none else f.bookMarket := by
  unfold Scene.refused
  rw [hc, hq]

/-- What the client holds after a frame that its filters have judged, or that it has dropped. -/
theorem hold_after {q : List PreparedFrame} {r : List Sent} (hc : s.line.client = some c)
    (hq : s.line.queue = some (f :: q)) (hkey : f.bookMarket = some key)
    (hheard : out = r ∧ ¬ Fresh mark f ∨ out = r ++ ClientBooks.write c.subs f)
    (hkind : ∃ b now, f = prepare (.book b) now) :
    hold c.subs mark ((r.foldl Scene.told (s.moved (.forward t) l)).held key) f ⊆
      (s.after (.forward t) l out).held key := by
  obtain ⟨b, now, rfl⟩ := hkind
  rintro kind ⟨hin, hheld⟩
  have hk : s.refused (.forward t) ≠ some key := by
    rw [refused_forward hc hq, if_pos hin]
    nofun
  refine held_after _ hk ?_
  obtain ⟨rfl, hstale⟩ | rfl := hheard
  · exact hheld.resolve_right fun ⟨_, hfresh, _⟩ => hstale hfresh
  · show (key, kind) ∈ ((r ++ ClientBooks.write c.subs _).foldl Scene.told _).given
    rw [List.foldl_append]
    rcases hheld with hheld | ⟨hopens, -, rfl⟩
    · exact given_tell _ _ hheld
    · obtain ⟨hbatch, htag, -⟩ := prepare_shows c.subs b now
      rw [← htag]
      refine tell_gives (m := ⟨(prepare (.book b) now).payload, some key, true⟩) ?_ rfl hbatch ?_ _
      · unfold ClientBooks.write
        rw [if_pos hin, hkey]
        exact List.mem_singleton_self _
      · rw [opens_prepare] at hopens
        exact hopens

/-- **A frame is read.** -/
theorem Sound.forward (h : Sound s) (hstraight : Straight cfg s (.forward t)) :
    Sound (s.after (.forward t) (s.line.forward cfg t).1 (s.line.forward cfg t).2) := by
  obtain ⟨heq, hidle⟩ | ⟨c, f, q, hc, hq, heq⟩ := Watermark.forward_cases cfg s.line t
  · have hrefused : s.refused (.forward t) = none := by
      unfold Scene.refused
      rcases hidle with hc | hq | hq
      · rw [hc]
      · rw [hq]
        cases s.line.client <;> rfl
      · rw [hq]
        cases s.line.client <;> rfl
    rw [heq]
    exact h.idle rfl hrefused
  · rw [heq]
    obtain ⟨b, now, hf⟩ := h.rendered _ hq f List.mem_cons_self
    have hmarket : f.bookMarket = some (marketOf b) := by rw [hf]; rfl
    have hboot := bootstraps_release s.line.books c.subs cfg.bootstrapReleaseDeadline t.now t.wall c.seen (marketOf b)
    have hout : ∀ m ∈ (c.forward cfg s.line.books f t).2, Selected c.subs m := by
      have hreleased : ∀ m ∈ _, Selected c.subs m := hboot.selected fun _ _ _ => id
      intro m hm
      change m ∈ (c.seen.forward s.line.books c.subs cfg.bootstrapReleaseDeadline t.now t.wall f).2 at hm
      rcases forward_outcomes c.seen hmarket with ⟨-, hg⟩ | ⟨-, hg, -⟩ | ⟨-, hg, -⟩
      · rw [hg] at hm
        exact hreleased m hm
      · rw [hg] at hm
        exact hreleased m hm
      · rw [hg] at hm
        rcases List.mem_append.mp hm with hm | hm
        · exact hreleased m hm
        · rw [hf] at hm
          exact selected_write b now m hm
    refine Sound.after nofun (fun q' hq' x hx => ?_) (fun c' hc' => ?_) fun c' hc' key => ?_
    · cases hq'
      exact h.rendered _ hq x (List.mem_cons_of_mem f hx)
    · cases hc'
      exact hout
    · cases hc'
      have hkept : s.given ⊆ s.kept
          { s.line with client := some (c.forward cfg s.line.books f t).1, queue := some q } :=
        given_kept fun c' hc' => by
          cases hc'
          exact h.inScope c hc
      obtain ⟨hline, hnewest⟩ := line_after s (.forward t)
        { s.line with client := some (c.forward cfg s.line.books f t).1, queue := some q }
        (c.forward cfg s.line.books f t).2
      have hunread : s.unread = f :: (s.after (.forward t)
          { s.line with client := some (c.forward cfg s.line.books f t).1, queue := some q }
          (c.forward cfg s.line.books f t).2).unread := by
        rw [unread_after]
        unfold Scene.unread
        rw [hq]
        rfl
      have hends : ∀ T T', T ⊆ T' → s.Ends c.subs key T → (s.after (.forward t)
          { s.line with client := some (c.forward cfg s.line.books f t).1, queue := some q }
          (c.forward cfg s.line.books f t).2).Ends c.subs key T' := by
        intro T T' hT hends
        unfold Scene.Ends
        rw [hline, hnewest]
        exact ends_mono s c.subs key T T' hT hends
      by_cases hk : marketOf b = key
      · subst hk
        obtain ⟨hheld, hread⟩ := (hstraight c f q hc hq _ hmarket).told (h.backs c hc _) (s.moved (.forward t)
          { s.line with client := some (c.forward cfg s.line.books f t).1, queue := some q }) hkept
        rw [hunread, show ∀ l, framesOf (marketOf b) (f :: l) = f :: framesOf (marketOf b) l from fun l =>
          List.filter_cons_of_pos (decide_eq_true hmarket)] at hread
        rcases forward_outcomes c.seen hmarket with ⟨hflag, hg⟩ | ⟨hflag, hg, hstale⟩ | ⟨hflag, hg, hmark⟩
        · refine Or.inl ?_
          show ((c.seen.forward _ _ _ _ _ f).1.awaiting.get _).isSome = true
          rw [hg]
          exact hheld hflag
        · refine Or.inr ?_
          show Backed c.subs ((c.seen.forward _ _ _ _ _ f).1.watermarks.get _) _ _ _
          rw [hg]
          exact (hread hflag).2.more hends
            (hold_after hc hq hmarket (Or.inl ⟨congrArg Prod.snd hg, hstale⟩) ⟨b, now, hf⟩)
        · refine Or.inr ?_
          show Backed c.subs ((c.seen.forward _ _ _ _ _ f).1.watermarks.get _) _ _ _
          rw [hmark]
          exact (hread hflag).2.mono (fun _ _ => id) (fun _ _ _ => id) (fun _ _ => nofun) hends
            (hold_after hc hq hmarket (Or.inr hg) ⟨b, now, hf⟩)
      · have hne : f.bookMarket ≠ some key := by
          rw [hmarket]
          exact fun heq => hk (Option.some.inj heq)
        have hseat : (c.forward cfg s.line.books f t).1.seen.seat key = c.seen.seat key :=
          (forward_ne _ _ _ _ _ c.seen hne).1
        have hrefused : s.refused (.forward t) ≠ some key := by
          rw [refused_forward hc hq]
          split_ifs
          · nofun
          · exact hne
        rw [hseat]
        refine (h.backs c hc key).transfer ?_ (by rw [hline]; exact id) (by rw [hnewest]; rfl)
          fun kind hkind => held_after _ hrefused (given_tell _ _ (hkept hkind))
        rw [hunread, show ∀ l, framesOf key (f :: l) = framesOf key l from fun l =>
          List.filter_cons_of_neg fun heq => hne (of_decide_eq_true heq)]

/-! ## Every run -/

theorem Sound.step (h : Sound s) (hiter : Iterates s i) (hstraight : Straight cfg s i) :
    Sound ((scene cfg).step s i).1 := by
  cases i with
  | apply b =>
    show Sound (s.after (.apply b) (s.line.apply b) [])
    cases hs : s.line.sending with
    | some b' =>
      have hline : s.line.apply b = s.line := by
        unfold Line.apply
        rw [hs]
      have hnoted : s.noted (.apply b) = s.newest := by
        unfold Scene.noted
        rw [hs]
        rfl
      rw [hline]
      exact h.idle hnoted rfl
    | none =>
      have hline : s.line.apply b = { s.line with books := publishBook s.line.books b, sending := some b } := by
        unfold Line.apply
        rw [hs]
      rw [hline]
      exact h.apply hs hstraight
  | broadcast now => exact h.broadcast now
  | evict k => exact h.evict k
  | accept => exact h.accept
  | connect t => exact h.connect hiter hstraight
  | subscribe f t => exact h.subscribe hiter hstraight
  | unsubscribe f t => exact h.unsubscribe hiter hstraight
  | lagged n => exact h.lagged hstraight
  | repair t => exact h.repair hiter hstraight
  | sweep t => exact h.sweep hstraight
  | forward t => exact h.forward hstraight

/-- Bootstraps are no increments. -/
theorem Bootstraps.handsOnly (h : Bootstraps books subs out) {pre post : List Sent} {m : Sent}
    (hout : out = pre ++ m :: post) (hb : m.msg.batch = some b) (hled : leads b = false) : False := by
  rw [h.led (by rw [hout]; exact List.mem_append_cons_self) hb] at hled
  cases hled

/-- **A frame that is written is of a book in hand.** -/
theorem Sound.handsOnly_forward (h : Sound s) (hstraight : Straight cfg s (.forward t)) :
    HandsOnlyHeld cfg s (.forward t) := by
  intro pre m post b' hout hb' hled
  change (s.line.forward cfg t).2 = _ at hout
  obtain ⟨heq, -⟩ | ⟨c, f, q, hc, hq, heq⟩ := Watermark.forward_cases cfg s.line t
  · rw [heq] at hout
    exact absurd hout.symm (List.append_ne_nil_of_right_ne_nil pre (List.cons_ne_nil m post))
  · obtain ⟨b, now, hf⟩ := h.rendered _ hq f List.mem_cons_self
    obtain ⟨hbatch, htag, -⟩ := prepare_shows c.subs b now
    have hmarket : f.bookMarket = some (marketOf b) := by rw [hf]; rfl
    have hboot := bootstraps_release s.line.books c.subs cfg.bootstrapReleaseDeadline t.now t.wall c.seen (marketOf b)
    have hkept : s.given ⊆ s.kept (s.line.forward cfg t).1 := given_kept fun c' hc' => by
      rw [heq] at hc'
      cases hc'
      exact h.inScope c hc
    obtain ⟨-, hread⟩ := (hstraight c f q hc hq _ hmarket).told (h.backs c hc _)
      (s.moved (.forward t) (s.line.forward cfg t).1) hkept
    have hunread : framesOf (marketOf b) s.unread =
        f :: framesOf (marketOf b) (q ++ s.line.sending.toList.map frameOf) := by
      unfold Scene.unread
      rw [hq]
      exact List.filter_cons_of_pos (decide_eq_true hmarket)
    rw [heq] at hout
    change (c.seen.forward s.line.books c.subs cfg.bootstrapReleaseDeadline t.now t.wall f).2 = _ at hout
    rcases forward_outcomes c.seen hmarket with ⟨-, hg⟩ | ⟨-, hg, -⟩ | ⟨hflag, hg, -⟩
    · rw [hg] at hout
      exact (hboot.handsOnly hout hb' hled).elim
    · rw [hg] at hout
      exact (hboot.handsOnly hout hb' hled).elim
    · rw [hg] at hout
      unfold ClientBooks.write at hout
      by_cases hin : passes c.subs f = true
      · rw [if_pos hin] at hout
        -- The increment is the frame: whatever is written before it is a bootstrap.
        rcases List.eq_nil_or_concat post with rfl | ⟨post', x, rfl⟩
        · obtain ⟨rfl, hm⟩ := List.append_inj' hout rfl
          cases hm
          refine ⟨marketOf b, hmarket, ?_⟩
          have hopens : opens f = false := by
            unfold opens
            rw [hb']
            exact hled
          have hheld := (hunread ▸ hread hflag).1 hin hopens
          rw [hf] at hheld ⊢
          rw [htag]
          exact hheld
        · rw [List.concat_eq_append, ← List.cons_append, ← List.append_assoc] at hout
          exact (hboot.handsOnly (List.append_inj' hout rfl).1 hb' hled).elim
      · rw [if_neg hin, List.append_nil] at hout
        exact (hboot.handsOnly hout hb' hled).elim

theorem Sound.handsOnlyHeld (h : Sound s) (hstraight : Straight cfg s i) : HandsOnlyHeld cfg s i := by
  have hnothing : (s.line.step cfg i).2 = [] → HandsOnlyHeld cfg s i := by
    intro hnil pre m post b hout
    rw [hnil] at hout
    exact absurd hout.symm (List.append_ne_nil_of_right_ne_nil pre (List.cons_ne_nil m post))
  have hboots : ∀ subs, Bootstraps s.line.books subs (s.line.step cfg i).2 → HandsOnlyHeld cfg s i :=
    fun subs hboot pre m post b hout hb hled => (hboot.handsOnly hout hb hled).elim
  cases i with
  | apply b => exact hnothing rfl
  | broadcast now => exact hnothing rfl
  | evict k => exact hnothing rfl
  | accept => exact hnothing rfl
  | lagged n => exact hnothing rfl
  | connect t =>
    refine hboots [] ?_
    show Bootstraps s.line.books [] (s.line.connect t).2
    obtain heq | ⟨-, -, heq⟩ := Watermark.connect_cases s.line t
    · rw [heq]
      exact bootstraps_nil
    · rw [heq]
      exact bootstraps_replay _ _ _ _ _ _
  | subscribe f t =>
    refine hboots [f] ?_
    show Bootstraps s.line.books [f] (s.line.turn fun c => c.subscribe cfg s.line.books f t).2
    unfold Line.turn Client.subscribe
    cases s.line.client with
    | none => exact bootstraps_nil
    | some c =>
      dsimp only
      split_ifs
      · exact bootstraps_nil
      · exact bootstraps_nil
      · exact bootstraps_replay _ _ _ _ _ _
  | unsubscribe f t =>
    cases hc : s.line.client with
    | none =>
      refine hnothing ?_
      show (s.line.turn _).2 = []
      unfold Line.turn
      rw [hc]
    | some c =>
      refine hboots (c.subs.filter fun x => x ≠ f) ?_
      show Bootstraps s.line.books _ (s.line.turn fun c => c.unsubscribe s.line.books f t).2
      unfold Line.turn
      rw [hc]
      unfold Client.unsubscribe
      dsimp only
      split_ifs
      · exact bootstraps_replay _ _ _ _ _ _
      · exact bootstraps_nil
  | repair t =>
    cases hc : s.line.client with
    | none =>
      refine hnothing ?_
      show (s.line.turn _).2 = []
      unfold Line.turn
      rw [hc]
    | some c =>
      refine hboots c.subs ?_
      show Bootstraps s.line.books _ (s.line.turn fun c => c.repair cfg s.line.books t).2
      unfold Line.turn
      rw [hc]
      unfold Client.repair
      dsimp only
      split_ifs
      · exact bootstraps_replay _ _ _ _ _ _
      · exact bootstraps_nil
  | sweep t =>
    cases hc : s.line.client with
    | none =>
      refine hnothing ?_
      show (s.line.turn _).2 = []
      unfold Line.turn
      rw [hc]
    | some c =>
      refine hboots c.subs ?_
      show Bootstraps s.line.books _ (s.line.turn fun c => c.sweep cfg s.line.books t).2
      unfold Line.turn
      rw [hc]
      exact bootstraps_sweep _ _ _ _ _ _ _
  | forward t => exact h.handsOnly_forward hstraight

theorem sound_start : Sound .start := ⟨fun _ => rfl, nofun, nofun, nofun⟩

/-- **No client is handed increments of a book it was not given.**  In every run of straight steps, every increment
written to the client is of a book it was given under the same type, by a message that a Clear leads, and has had in
scope since. -/
theorem hands_only_held_books (cfg : WsConfig) (moves : List Watermark.Move)
    (hiter : (scene cfg).Along Iterates .start moves) (hstraight : (scene cfg).Along (Straight cfg) .start moves) :
    (scene cfg).Along (HandsOnlyHeld cfg) .start moves := by
  have hsound : ∀ (moves : List Watermark.Move) (s : Scene), Sound s → (scene cfg).Along Iterates s moves →
      (scene cfg).Along (Straight cfg) s moves → (scene cfg).Along (HandsOnlyHeld cfg) s moves := by
    intro moves
    induction moves with
    | nil => exact fun _ _ _ _ => trivial
    | cons i moves ih =>
      exact fun s hs hiter hstraight =>
        ⟨hs.handsOnlyHeld hstraight.1, ih _ (hs.step hiter.1 hstraight.1) hiter.2 hstraight.2⟩
  exact hsound moves .start sound_start hiter hstraight

def bySymbol : SubFilter := ⟨none, none, none, none, some "S", none, none⟩

/-- A filtered client meets a market from its first batch on. -/
def metFromTheStart : List Watermark.Move :=
  [.accept, .connect instant, .subscribe bySymbol instant,
    .apply (marketBatch true [BookAccumulator.clearBoth, unitChange .update 1] true 5), .broadcast 0, .forward instant,
    .apply (marketBatch true [unitChange .update 2] true 10), .broadcast 0, .forward instant]

/-- Nothing to replay, and nothing to read. -/
theorem replays_nothing {already : PreparedFrame → Bool} (hbooks : s.line.books = ∅) (hunread : s.unread = [])
    (key : BookKey) : Replays s seen subs scope already key := by
  unfold Replays StaysOut
  rw [hbooks, hunread]
  refine fun _ => ⟨fun f hf => absurd hf List.not_mem_nil, fun hentry => ?_⟩
  obtain ⟨acc, hget⟩ := FinMap.contains_eq_true.mp hentry
  cases hget

theorem met_market_is_held :
    (scene sampleConfig).Along (HandsOnlyHeld sampleConfig) .start metFromTheStart := by
  refine hands_only_held_books sampleConfig metFromTheStart
    ⟨trivial, nofun, nofun, trivial, trivial, trivial, trivial, trivial, trivial, trivial⟩
    ⟨trivial, fun _ _ => replays_nothing rfl rfl, fun _ _ _ _ => replays_nothing rfl rfl, fun _ c hc _ _ => ?_, trivial,
      fun c f q hc hq key hkey since hsince => ?_, fun _ c hc _ _ => ?_, trivial,
      fun c f q hc hq key hkey since hsince => ?_, trivial⟩
  · cases hc
    exact Or.inr ⟨rfl, nofun⟩
  · cases hc
    cases hsince
  · cases hc
    exact Or.inl ⟨rfl, _, rfl, rfl, rfl⟩
  · cases hc
    cases hsince

def orderBooks : SubFilter := ⟨none, none, none, none, none, none, some "order_book"⟩

/-- An order-level market begins with a bare Clear, so that its entry is served as a price-level one; a client that
asks for order-level books subscribes, and the market's first order follows. -/
def bareClearFirst : List Watermark.Move :=
  [.apply (marketBatch true [BookAccumulator.clearBoth] true 5), .broadcast 0, .accept, .connect instant,
    .subscribe orderBooks instant, .apply (marketBatch true [unitChange .update 1] true 10), .broadcast 0,
    .forward instant]

theorem bareClearFirst_iterates : (scene sampleConfig).Along Iterates .start bareClearFirst := by
  have hone : ∀ key, (publishBook ∅ (marketBatch true [BookAccumulator.clearBoth] true 5)).contains key = true →
      key ∈ instant.iter := by
    intro key hkey
    rw [FinMap.contains_eq_true, publishBook] at hkey
    obtain ⟨acc, hget⟩ := hkey
    rw [FinMap.get_insert] at hget
    split_ifs at hget with hsame
    · rw [hsame]
      exact List.mem_singleton_self _
    · cases hget
  exact ⟨trivial, trivial, trivial, hone, hone, trivial, trivial, trivial, trivial⟩

theorem increments_of_a_book_not_given :
    (scene sampleConfig).Along Iterates .start bareClearFirst ∧
      ¬ (scene sampleConfig).Along (HandsOnlyHeld sampleConfig) .start bareClearFirst := by
  refine ⟨bareClearFirst_iterates, ?_⟩
  rintro ⟨-, -, -, -, -, -, -, hlast, -⟩
  obtain ⟨key, -, hgiven⟩ := hlast [] _ [] _ rfl rfl rfl
  change _ ∈ ([] : List (BookKey × String)) at hgiven
  cases hgiven

end EdgeConnect.Ws.Scope
