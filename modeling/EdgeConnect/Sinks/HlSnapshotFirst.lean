import EdgeConnect.Sinks.HlConverge

/-!
# Diffs come after their snapshot

Any markets under any symbols; the arbiter, the stage and any number of clients in any order.

* `feed` — what a client was last given of a coin since it subscribed; `WellFed` — every `Updates` frame is of the
  market whose snapshot it was given;
* `Step.OfVenue` — the runs in question; `Step.Covered` — whoever watches a coin finds its books publishable, a
  market keeps its symbol, and a coin without a pin is bootstrapped from one market at most;
* `Grounded` — a subscriber has the snapshot of the market it reads, or reads that snapshot first;
* `updates_follow_their_snapshot` — in covered runs every client is well fed;
* `diffs_before_any_snapshot` — a client that subscribes behind a bare clear is given diffs and no snapshot.
-/

set_option autoImplicit false

namespace EdgeConnect

namespace Hl

open Ws (BookSnapshot FeedMessage marketOf publishBook)

/-! ## What a client was given -/

/-- Whether a client is subscribed to a coin's `l4Book`, and the market of the last snapshot since. -/
structure Feed where
  subscribed : Bool
  given : Option BookKey

def Feed.note (coin : String) (s : Feed) : Wire → Feed
  | .subscribed sub => if sub = .l4Book coin ∧ s.subscribed = false then ⟨true, none⟩ else s
  | .unsubscribed sub => if sub = .l4Book coin then ⟨false, s.given⟩ else s
  | .l4Book f =>
    match f.data with
    | .snapshot _ _ => if f.coin = coin then { s with given := some f.market } else s
    | .updates _ => s
  | _ => s

def feed (coin : String) (wire : List Wire) : Feed := wire.foldl (Feed.note coin) ⟨false, none⟩

/-- Every diff of the coin is of the market whose snapshot the client was last given. -/
def WellFed (coin : String) (wire : List Wire) : Prop :=
  ∀ pre f post, wire = pre ++ .l4Book f :: post → f.coin = coin → (∃ diffs, f.data = .updates diffs) →
    (feed coin pre).given = some f.market

variable {coin : String} {wire : List Wire} {h : Hub} {c c' : HlClient}

theorem feed_append (frames : List Wire) :
    feed coin (wire ++ frames) = frames.foldl (Feed.note coin) (feed coin wire) := List.foldl_append

theorem wellFed_nil : WellFed coin [] := by
  intro pre f post heq
  cases pre <;> cases heq

/-- One more frame, which is no diff of the coin or one of the market given last. -/
theorem WellFed.snoc {x : Wire} (hw : WellFed coin wire)
    (hx : ∀ f, x = .l4Book f → f.coin = coin → (∃ diffs, f.data = .updates diffs) →
      (feed coin wire).given = some f.market) : WellFed coin (wire ++ [x]) := by
  intro pre f post heq hcoin hdiff
  rcases List.eq_nil_or_concat post with rfl | ⟨post, y, rfl⟩
  · obtain ⟨rfl, hxf⟩ := List.append_inj' heq rfl
    exact hx f (List.cons.inj hxf).1 hcoin hdiff
  · rw [List.concat_eq_append, ← List.cons_append, ← List.append_assoc] at heq
    obtain ⟨rfl, -⟩ := List.append_inj' heq rfl
    exact hw pre f post rfl hcoin hdiff

/-- Frames that are no diffs are never out of place. -/
theorem WellFed.append {frames : List Wire} (hw : WellFed coin wire)
    (hframes : ∀ f, .l4Book f ∈ frames → ∃ bids asks, f.data = .snapshot bids asks) :
    WellFed coin (wire ++ frames) := by
  induction frames using List.reverseRecOn with
  | nil => rwa [List.append_nil]
  | append_singleton frames x ih =>
    rw [← List.append_assoc]
    refine (ih fun f hf => hframes f (List.mem_append_left _ hf)).snoc ?_
    rintro f rfl - ⟨diffs, hdiffs⟩
    obtain ⟨bids, asks, hsnap⟩ := hframes f (List.mem_append_right _ (List.mem_singleton_self _))
    rw [hsnap] at hdiffs
    cases hdiffs

/-- What is not about the coin changes nothing of what was given of it. -/
theorem feed_of_other {frames : List Wire}
    (hother : ∀ x ∈ frames, ∀ s : Feed, Feed.note coin s x = s) :
    feed coin (wire ++ frames) = feed coin wire := by
  rw [feed_append]
  generalize feed coin wire = s
  induction frames generalizing s with
  | nil => rfl
  | cons x frames ih =>
    rw [List.foldl_cons, hother x List.mem_cons_self s]
    exact ih (fun y hy => hother y (List.mem_cons_of_mem x hy)) s

/-- Snapshots never end a subscription. -/
theorem subscribed_of_frames {frames : List L4Frame} :
    (feed coin (wire ++ frames.map .l4Book)).subscribed = (feed coin wire).subscribed := by
  rw [feed_append]
  generalize feed coin wire = s
  induction frames generalizing s with
  | nil => rfl
  | cons f frames ih =>
    rw [List.map_cons, List.foldl_cons, ih]
    obtain ⟨fcoin, market, data⟩ := f
    cases data with
    | snapshot bids asks =>
      show (if fcoin = coin then { s with given := some market } else s).subscribed = s.subscribed
      split
      · rfl
      · rfl
    | updates diffs => rfl

/-! ## The runs in question -/

/-- Batches of the venue, the first of each market led by a clear. -/
structure VenueBatch (h : Hub) (b : NormalizedBook) : Prop where
  source : b.sourceId = SOURCE_ID
  first : h.books.get (marketOf b) = none → rebaseline b = true

def Step.OfVenue (h : Hub) : Step → Prop
  | .publish m => ∀ b, m.batch = some b → m = .book b ∧ VenueBatch h b
  | .control _ _ iter | .advance _ iter => Iterates h iter
  | _ => True

/-- The client has the coin's `l4Book`, or is about to. -/
def HlClient.Asks (c : HlClient) (coin : String) : Prop :=
  .l4Book coin ∈ c.subs ∨ c.phase = .subscribing (.l4Book coin) ∨ c.phase = .bootstrapping (.l4Book coin)

def Watched (h : Hub) (coin : String) : Prop :=
  ∃ i c, h.clients.get i = some c ∧ c.phase ≠ .closing ∧ c.Asks coin

/-- Every book of the coin may be published as full state. -/
def AllPublishable (h : Hub) (coin : String) : Prop :=
  ∀ key acc, h.books.get key = some acc → acc.symbol = coin → publishable key acc coin = true

/-- One market at most has the coin. -/
def OneMarket (h : Hub) (coin : String) : Prop :=
  ∀ key acc key' acc', h.books.get key = some acc → acc.symbol = coin →
    h.books.get key' = some acc' → acc'.symbol = coin → key = key'

/-- The coin a task is about to bootstrap. -/
def HlClient.bootstrapsNext (c : HlClient) : Option Sub :=
  match c.phase with
  | .bootstrapping sub => some sub
  | .rebootstrapping (sub :: _) => some sub
  | _ => none

/-- A batch of a watched coin leaves its book publishable and no batch renames its market; a coin is asked for when
all its books are publishable, and bootstrapped without a pin from one market at most. -/
def Step.Covered (h : Hub) : Step → Prop
  | .publish m => ∀ b, m.batch = some b →
    (∀ acc, h.books.get (marketOf b) = some acc → acc.symbol = b.symbol) ∧
      (Watched h b.symbol →
        publishable (marketOf b) (((h.books.get (marketOf b)).getD (.new b.symbol)).apply b) b.symbol = true)
  | .control _ (.subscribe (.l4Book coin)) _ => AllPublishable h coin
  | .advance i _ => ∀ c, h.clients.get i = some c → ∀ coin, c.bootstrapsNext = some (.l4Book coin) →
    c.pinned.get coin = none → OneMarket h coin
  | _ => True

/-! ## The first batch a subscriber reads -/

/-- Whether an item decides what a subscriber of the coin sees next. -/
def Item.concerns (coin : String) : Item → Bool
  | .lost => true
  | .batch q => q.batch.symbol = coin

/-- A batch that will reach a subscriber as a snapshot. -/
def Passing.opens (q : Passing) : Prop :=
  rebaseline q.batch = true ∧ q.batch.changes.any namesOrder = true ∧ q.frame ≠ some none

/-- What the next item about a coin must be for a subscriber: a loss, which is repaired by a snapshot, or a batch of
the market it was given and has no other pin than, or that market's opening snapshot. -/
def FirstOk (h : Hub) (coin : String) (pin given : Option BookKey) (P : List Item) : Prop :=
  match P.find? (Item.concerns coin) with
  | none => ∀ key acc, h.books.get key = some acc → acc.symbol = coin → given = some key
  | some .lost => True
  | some (.batch q) => (∀ key, pin = some key → key = marketOf q.batch) ∧
    (given = some (marketOf q.batch) ∨ q.opens)

/-- A coin among the subscriptions still to re-bootstrap. -/
def HlClient.Reboots (c : HlClient) (coin : String) : Prop :=
  ∃ left, c.phase = .rebootstrapping left ∧ .l4Book coin ∈ left

/-- A subscriber has the snapshot of the market it is pinned to, or will have one before any diff. -/
def Grounded (h : Hub) (c : HlClient) (coin : String) : Prop :=
  (∃ key, c.pinned.get coin = some key ∧ (feed coin c.wire).given = some key) ∨ c.Reboots coin ∨
    FirstOk h coin (c.pinned.get coin) (feed coin c.wire).given (h.pipeline c)

/-- Every batch on its way has a book, under its own symbol. -/
def Sourced (h : Hub) (P : List Item) : Prop :=
  ∀ q, .batch q ∈ P → ∃ acc, h.books.get (marketOf q.batch) = some acc ∧ acc.symbol = q.batch.symbol

/-- What a run keeps of a client. -/
structure Served (h : Hub) (c : HlClient) : Prop where
  sourced : Sourced h (h.pipeline c)
  pinned : ∀ coin key, c.pinned.get coin = some key → ∃ acc, h.books.get key = some acc ∧ acc.symbol = coin
  wellFed : ∀ coin, WellFed coin c.wire
  asked : c.phase ≠ .closing → ∀ coin, c.Asks coin → (feed coin c.wire).subscribed = true
  grounded : c.phase ≠ .closing → ∀ coin, .l4Book coin ∈ c.subs → Grounded h c coin
  left : ∀ left, c.phase = .rebootstrapping left → ∀ sub ∈ left, sub ∈ c.subs

/-- What a run keeps. -/
structure Baselined (h : Hub) : Prop where
  accounted : Accounted h
  faithful : Faithful h
  ahead : Sourced h (h.pipeline .fresh)
  watched : ∀ coin, Watched h coin → AllPublishable h coin
  served : ∀ i c, h.clients.get i = some c → Served h c

/-! ## Books keep their symbol -/

theorem symbol_apply (acc : BookAccumulator) (b : NormalizedBook) : (acc.apply b).symbol = b.symbol := by
  unfold BookAccumulator.apply
  simp only
  split
  · rfl
  · split
    · rfl
    · rfl

/-- A new book is order-level only after a batch that names an order. -/
theorem namesOrder_of_new {b : NormalizedBook}
    (hlevel : ((BookAccumulator.new b.symbol).apply b).orderLevel = true) :
    b.changes.any namesOrder = true := by
  unfold BookAccumulator.apply at hlevel
  simp only at hlevel
  split at hlevel
  · have hany : ((b.changes.filter BookChange.isFinite).any fun c => c.orderId ≠ 0 ∧ c.action ≠ .clear) = true :=
      hlevel
    obtain ⟨c, hc, hnames⟩ := List.any_eq_true.mp hany
    exact List.any_eq_true.mpr ⟨c, (List.mem_filter.mp hc).1, hnames⟩
  · split at hlevel
    · cases hlevel
    · cases hlevel

/-- Every book of the one is a book of the other, under the same symbol. -/
def Extends (h h' : Hub) : Prop :=
  ∀ key acc, h.books.get key = some acc → ∃ acc', h'.books.get key = some acc' ∧ acc'.symbol = acc.symbol

theorem publish_books (harr : h.arriving = none) (m : FeedMessage) :
    (h.publish m).books = m.batch.elim h.books (publishBook h.books) := by
  unfold Hub.publish
  rw [harr]

/-- A batch that renames nothing. -/
theorem extends_publish (harr : h.arriving = none) {m : FeedMessage}
    (hkeep : ∀ b, m.batch = some b → ∀ acc, h.books.get (marketOf b) = some acc → acc.symbol = b.symbol) :
    Extends h (h.publish m) := by
  intro key acc hacc
  rw [publish_books harr]
  cases hb : m.batch with
  | none => exact ⟨acc, hacc, rfl⟩
  | some b =>
    rw [Option.elim_some, get_publishBook]
    split
    · rename_i hkey
      subst hkey
      exact ⟨_, rfl, (symbol_apply _ b).trans (hkeep b hb acc hacc).symm⟩
    · exact ⟨acc, hacc, rfl⟩

namespace Sourced

variable {P P' F : List Item} {h' : Hub}

theorem mono (hs : Sourced h P) (hext : Extends h h') : Sourced h' P := by
  intro q hq
  obtain ⟨acc, hacc, hsym⟩ := hs q hq
  obtain ⟨acc', hacc', hsym'⟩ := hext _ acc hacc
  exact ⟨acc', hacc', hsym'.trans hsym⟩

theorem sub (hs : Sourced h P) (hsub : ∀ q, .batch q ∈ P' → .batch q ∈ P) : Sourced h P' :=
  fun q hq => hs q (hsub q hq)

theorem moves (hs : Sourced h P) (hm : Moves h P P') : Sourced h P' := by
  -- the batches of the new pipeline are batches of the old one, up to their frames
  have hbatch : ∀ q', Item.batch q' ∈ P' → ∃ q, Item.batch q ∈ P ∧ q.batch = q'.batch := by
    intro q' hq'
    cases hm with
    | same => exact ⟨q', hq', rfl⟩
    | lose F X R =>
      rcases List.mem_append.mp hq' with hq' | hq'
      · exact ⟨q', List.mem_append_left _ hq', rfl⟩
      · have hR := (List.mem_cons.mp hq').resolve_left nofun
        exact ⟨q', List.mem_append_right _ (List.mem_append_right _ hR), rfl⟩
    | skip F b R =>
      rcases List.mem_append.mp hq' with hq' | hq'
      · exact ⟨q', List.mem_append_left _ hq', rfl⟩
      · rcases List.mem_cons.mp hq' with hq' | hq'
        · cases hq'
          exact ⟨_, List.mem_append_right _ List.mem_cons_self, rfl⟩
        · exact ⟨q', List.mem_append_right _ (List.mem_cons_of_mem _ hq'), rfl⟩
    | render F m b wants =>
      rcases List.mem_append.mp hq' with hq' | hq'
      · exact ⟨q', List.mem_append_left _ hq', rfl⟩
      · rcases List.mem_cons.mp hq' with hq' | hq'
        · cases hq'
          exact ⟨_, List.mem_append_right _ List.mem_cons_self, rfl⟩
        · exact ⟨q', List.mem_append_right _ (List.mem_cons_of_mem _ hq'), rfl⟩
  intro q' hq'
  obtain ⟨q, hq, heq⟩ := hbatch q' hq'
  rw [← heq]
  exact hs q hq

/-- A batch that is published has a book from then on. -/
theorem publish (hs : Sourced h P) (harr : h.arriving = none) {m : FeedMessage}
    (hkeep : ∀ b, m.batch = some b → ∀ acc, h.books.get (marketOf b) = some acc → acc.symbol = b.symbol) :
    Sourced (h.publish m) (P ++ itemsOf m none) := by
  intro q hq
  rcases List.mem_append.mp hq with hq | hq
  · exact hs.mono (extends_publish harr hkeep) q hq
  · unfold itemsOf at hq
    obtain ⟨b, hb, he⟩ := List.mem_map.mp hq
    cases he
    obtain ⟨rfl, -⟩ := venueBatch_book (Option.mem_toList.mp hb)
    rw [publish_books harr]
    show ∃ acc, (publishBook h.books b).get (marketOf b) = some acc ∧ acc.symbol = b.symbol
    rw [get_publishBook, if_pos rfl]
    exact ⟨_, rfl, symbol_apply _ b⟩

end Sourced

/-! ## The next item about a coin -/

namespace FirstOk

variable {pin given : Option BookKey} {P P' F R : List Item} {h' : Hub} {q q' : Passing}

theorem append_of_some {x : Item} (hx : F.find? (Item.concerns coin) = some x) :
    FirstOk h coin pin given (F ++ R) ↔ FirstOk h coin pin given F := by
  unfold FirstOk
  rw [List.find?_append, hx]
  rfl

theorem append_of_none (hF : F.find? (Item.concerns coin) = none) :
    FirstOk h coin pin given (F ++ R) ↔ FirstOk h coin pin given R := by
  unfold FirstOk
  rw [List.find?_append, hF]
  rfl

theorem of_lost : FirstOk h coin pin given (.lost :: R) := trivial

theorem cons_batch (hcoin : q.batch.symbol = coin) : FirstOk h coin pin given (.batch q :: R) ↔
    (∀ key, pin = some key → key = marketOf q.batch) ∧ (given = some (marketOf q.batch) ∨ q.opens) := by
  have hconcerns : Item.concerns coin (.batch q) = true := decide_eq_true hcoin
  unfold FirstOk
  rw [List.find?_cons_of_pos hconcerns]

theorem cons_other (hcoin : q.batch.symbol ≠ coin) :
    FirstOk h coin pin given (.batch q :: R) ↔ FirstOk h coin pin given R := by
  have hconcerns : ¬ Item.concerns coin (.batch q) = true := fun hc => hcoin (of_decide_eq_true hc)
  unfold FirstOk
  rw [List.find?_cons_of_neg hconcerns]

theorem congr (hf : FirstOk h coin pin given P) (hbooks : h'.books = h.books) : FirstOk h' coin pin given P := by
  unfold FirstOk at hf ⊢
  rw [hbooks]
  exact hf

/-- Settling the frame of a batch keeps what the next item must be, if it keeps an opening snapshot one. -/
theorem settle (hf : FirstOk h coin pin given (F ++ .batch q :: R)) (hbatch : q'.batch = q.batch)
    (hopens : q.batch.symbol = coin → q.opens → q'.opens) :
    FirstOk h coin pin given (F ++ .batch q' :: R) := by
  cases hF : F.find? (Item.concerns coin) with
  | some x =>
    rw [append_of_some hF] at hf ⊢
    exact hf
  | none =>
    rw [append_of_none hF] at hf ⊢
    by_cases hcoin : q.batch.symbol = coin
    · rw [cons_batch hcoin] at hf
      rw [cons_batch (hbatch.symm ▸ hcoin), hbatch]
      exact ⟨hf.1, hf.2.imp id (hopens hcoin)⟩
    · rw [cons_other hcoin] at hf
      rwa [cons_other (hbatch.symm ▸ hcoin)]

/-- **What the stage does to a pipeline leaves its next item in order**: a batch of a wanted coin is rendered, and
an opening one as a snapshot. -/
theorem moves (hf : FirstOk h coin pin given P) (hm : Moves h P P') (hwant : (h.wanted.wants coin).l4 ≠ 0) :
    FirstOk h coin pin given P' := by
  cases hm with
  | same => exact hf
  | lose F X R =>
    cases hF : F.find? (Item.concerns coin) with
    | some x =>
      rw [append_of_some hF] at hf ⊢
      exact hf
    | none =>
      rw [append_of_none hF]
      exact of_lost
  | skip F b R hwants =>
    refine hf.settle ?_ ?_
    · rfl
    · intro hcoin
      exact absurd (hcoin ▸ hwants) hwant
  | render F m b wants hwants hstage hb =>
    refine hf.settle ?_ ?_
    · rfl
    · rintro - ⟨hr, hnames, -⟩
      have hlevel : ((h.memory (marketOf b)).apply b).orderLevel = true := by
        rw [orderLevel_apply, hnames, Bool.or_true]
      refine ⟨hr, hnames, ?_⟩
      unfold renderL4
      rw [if_neg (by simpa using hwants), if_pos hr, if_pos hlevel]
      exact nofun

end FirstOk

/-! ## A subscriber's footing -/

namespace Grounded

variable {h' : Hub}

theorem moves (hg : Grounded h c coin) (hc' : c' = { c with rx := c'.rx })
    (hm : Moves h (h.pipeline c) (h'.pipeline c')) (hbooks : h'.books = h.books)
    (hwant : (h.wanted.wants coin).l4 ≠ 0) : Grounded h' c' coin := by
  rw [hc']
  rcases hg with hpin | hreboot | hfirst
  · exact Or.inl hpin
  · exact Or.inr (Or.inl hreboot)
  · have hpipe : h'.pipeline { c with rx := c'.rx } = h'.pipeline c' := Hub.pipeline_congr rfl
    refine Or.inr (Or.inr ?_)
    rw [hpipe]
    exact (hfirst.moves hm hwant).congr hbooks

/-- A publish leaves a subscriber its footing: a batch of a market that it was given, or the first one of a new
market, which opens it. -/
theorem publish (hg : Grounded h c coin) (harr : h.arriving = none) {m : FeedMessage}
    (hpinned : ∀ key, c.pinned.get coin = some key → ∃ acc, h.books.get key = some acc ∧ acc.symbol = coin)
    (hvenue : ∀ b, m.batch = some b → m = .book b ∧ VenueBatch h b)
    (hkeep : ∀ b, m.batch = some b → ∀ acc, h.books.get (marketOf b) = some acc → acc.symbol = b.symbol)
    (hpub : ∀ b, m.batch = some b → b.symbol = coin →
      publishable (marketOf b) (((h.books.get (marketOf b)).getD (.new b.symbol)).apply b) b.symbol = true) :
    Grounded (h.publish m) c coin := by
  rcases hg with hpin | hreboot | hfirst
  · exact Or.inl hpin
  · exact Or.inr (Or.inl hreboot)
  have hpipe : (h.publish m).pipeline c = h.pipeline c ++ itemsOf m none := Hub.publish_pipeline harr m
  cases hfind : (h.pipeline c).find? (Item.concerns coin) with
  | some x =>
    refine Or.inr (Or.inr ?_)
    rw [hpipe, FirstOk.append_of_some hfind]
    unfold FirstOk at hfirst ⊢
    rw [hfind] at hfirst ⊢
    cases x with
    | lost => trivial
    | batch q => exact hfirst
  | none =>
    have hgiven : ∀ key acc, h.books.get key = some acc → acc.symbol = coin →
        (feed coin c.wire).given = some key := by
      unfold FirstOk at hfirst
      rw [hfind] at hfirst
      exact hfirst
    -- a pin is a market the client was given
    cases hpin : c.pinned.get coin with
    | some key =>
      obtain ⟨acc, hacc, hsym⟩ := hpinned key hpin
      exact Or.inl ⟨key, hpin, hgiven key acc hacc hsym⟩
    | none =>
    refine Or.inr (Or.inr ?_)
    rw [hpipe, FirstOk.append_of_none hfind, hpin]
    cases hb : m.batch with
    | none =>
      have hv : venueBatch m = none := by
        cases hv : venueBatch m with
        | none => rfl
        | some b =>
          rw [(venueBatch_book hv).1] at hb
          cases hb
      rw [itemsOf_none hv]
      intro key acc hacc
      rw [publish_books harr, hb] at hacc
      exact hgiven key acc hacc
    | some b =>
      obtain ⟨rfl, hvb⟩ := hvenue b hb
      have hv : venueBatch (.book b) = some b := if_pos hvb.source
      rw [itemsOf_some hv]
      by_cases hcoin : b.symbol = coin
      · rw [FirstOk.cons_batch hcoin]
        refine ⟨nofun, ?_⟩
        cases hacc : h.books.get (marketOf b) with
        | some acc => exact Or.inl (hgiven _ acc hacc ((hkeep b rfl acc hacc).trans hcoin))
        | none =>
          have hlevel := hpub b rfl hcoin
          rw [hacc, Option.getD_none] at hlevel
          exact Or.inr ⟨hvb.first hacc, namesOrder_of_new (of_decide_eq_true hlevel).2.2.2, nofun⟩
      · rw [FirstOk.cons_other hcoin]
        intro key acc hacc hsym
        have hacc : (publishBook h.books b).get key = some acc := by
          rw [publish_books harr] at hacc
          exact hacc
        rw [get_publishBook] at hacc
        split at hacc
        · cases hacc
          exact absurd ((symbol_apply _ b).symm.trans hsym) hcoin
        · exact hgiven key acc hacc hsym

end Grounded

/-! ## Bootstraps -/

theorem takeMarket_of_publishable (hpub : AllPublishable h coin) {key : BookKey} {acc : BookAccumulator}
    (hacc : h.books.get key = some acc) (hsym : acc.symbol = coin) : takeMarket h.books key coin = some acc := by
  unfold takeMarket
  rw [hacc, Option.filter_some, if_pos (hpub key acc hacc hsym)]

/-- A name resolves to every market that has it. -/
theorem mem_marketsFor (hpub : AllPublishable h coin) {iter : List BookKey} (hiter : Iterates h iter)
    {key : BookKey} {acc : BookAccumulator} (hacc : h.books.get key = some acc) (hsym : acc.symbol = coin) :
    key ∈ marketsFor h.books iter coin := by
  unfold marketsFor takeMarkets
  refine List.mem_map.mpr ⟨(key, acc), List.mem_filterMap.mpr ⟨key, ?_, ?_⟩, rfl⟩
  · exact hiter.2 key (FinMap.contains_eq_true.mpr ⟨acc, hacc⟩)
  · rw [takeMarket_of_publishable hpub hacc hsym]
    rfl

/-- A name resolves to markets that have it. -/
theorem market_of_mem {iter : List BookKey} {key : BookKey} (hkey : key ∈ marketsFor h.books iter coin) :
    ∃ acc, h.books.get key = some acc ∧ acc.symbol = coin := by
  unfold marketsFor takeMarkets at hkey
  obtain ⟨e, he, rfl⟩ := List.mem_map.mp hkey
  obtain ⟨key, -, he⟩ := List.mem_filterMap.mp he
  obtain ⟨acc, htake, rfl⟩ := Option.map_eq_some_iff.mp he
  obtain ⟨hacc, hpub⟩ := Option.filter_eq_some_iff.mp htake
  exact ⟨acc, hacc, (of_decide_eq_true hpub).2.1⟩

theorem bootstrap_snapshot {iter : List BookKey} {sub : Sub} {pin : Option BookKey} {f : L4Frame}
    (hf : f ∈ bootstrap h.books iter sub pin) : ∃ bids asks, f.data = .snapshot bids asks := by
  unfold bootstrap at hf
  split at hf
  · obtain ⟨e, -, rfl⟩ := List.mem_map.mp hf
    exact ⟨_, _, rfl⟩
  · cases hf

theorem wellFed_bootstrap (hw : WellFed coin wire) {iter : List BookKey} {sub : Sub} {pin : Option BookKey} :
    WellFed coin (wire ++ (bootstrap h.books iter sub pin).map .l4Book) := by
  refine hw.append fun f hf => ?_
  obtain ⟨f', hf', he⟩ := List.mem_map.mp hf
  cases he
  exact bootstrap_snapshot hf'

/-- A bootstrap of another subscription gives nothing of the coin. -/
theorem feed_other_bootstrap {iter : List BookKey} {sub : Sub} {pin : Option BookKey} (hsub : sub ≠ .l4Book coin) :
    feed coin (wire ++ (bootstrap h.books iter sub pin).map .l4Book) = feed coin wire := by
  refine feed_of_other fun x hx s => ?_
  obtain ⟨f, hf, rfl⟩ := List.mem_map.mp hx
  have hcoin : f.coin ≠ coin := by
    rintro rfl
    exact hsub (bootstrap_coin hf)
  obtain ⟨bids, asks, hdata⟩ := bootstrap_snapshot hf
  show (match f.data with
    | .snapshot _ _ => if f.coin = coin then { s with given := some f.market } else s
    | .updates _ => s) = s
  rw [hdata]
  exact if_neg hcoin

theorem given_snapshot (key : BookKey) (b : NormalizedBook) :
    (feed coin (wire ++ [.l4Book ⟨coin, key, renderL4bookSnapshot b⟩])).given = some key := by
  rw [feed_append]
  show (if coin = coin then ({ feed coin wire with given := some key } : Feed) else feed coin wire).given = some key
  rw [if_pos rfl]

/-- A pinned coin is bootstrapped with the snapshot of its market. -/
theorem given_pinned_bootstrap (hpub : AllPublishable h coin) {key : BookKey} {acc : BookAccumulator}
    (hacc : h.books.get key = some acc) (hsym : acc.symbol = coin) (iter : List BookKey) :
    (feed coin (wire ++ (bootstrap h.books iter (.l4Book coin) (some key)).map .l4Book)).given = some key := by
  unfold bootstrap
  simp only
  rw [takeMarket_of_publishable hpub hacc hsym]
  exact given_snapshot key _

/-- A coin without a pin is bootstrapped with the snapshot of the one market it has. -/
theorem given_bootstrap (hpub : AllPublishable h coin) (hone : OneMarket h coin) {iter : List BookKey}
    (hiter : Iterates h iter) {key : BookKey} {acc : BookAccumulator} (hacc : h.books.get key = some acc)
    (hsym : acc.symbol = coin) :
    (feed coin (wire ++ (bootstrap h.books iter (.l4Book coin) none).map .l4Book)).given = some key := by
  have halone : ∀ key' acc', h.books.get key' = some acc' → publishable key' acc' coin = true → key' = key :=
    fun key' acc' hacc' hpub' => hone key' acc' key acc hacc' (of_decide_eq_true hpub').2.1 hacc hsym
  have hpin : ∀ k, (none : Option BookKey) = some k → k = key := nofun
  rw [bootstrap_eq halone hiter hpin, takeMarket_of_publishable hpub hacc hsym]
  exact given_snapshot key _

/-- **A bootstrap puts a subscriber on its feet.** -/
theorem grounded_of_bootstrap (hserved : Served h c) (hpub : AllPublishable h coin) {iter : List BookKey}
    (hiter : Iterates h iter) (hone : c.pinned.get coin = none → OneMarket h coin) (hrx : c'.rx = c.rx)
    (hpinned : c'.pinned = c.pinned)
    (hwire : c'.wire = c.wire ++ (bootstrap h.books iter (.l4Book coin) (c.pinned.get coin)).map .l4Book) :
    Grounded h c' coin := by
  cases hpin : c.pinned.get coin with
  | some key =>
    obtain ⟨acc, hacc, hsym⟩ := hserved.pinned coin key hpin
    rw [hpin] at hwire
    refine Or.inl ⟨key, by rw [hpinned]; exact hpin, ?_⟩
    rw [hwire]
    exact given_pinned_bootstrap hpub hacc hsym iter
  | none =>
    have hone := hone hpin
    rw [hpin] at hwire
    have hgiven : ∀ key acc, h.books.get key = some acc → acc.symbol = coin →
        (feed coin c'.wire).given = some key := by
      intro key acc hacc hsym
      rw [hwire]
      exact given_bootstrap hpub hone hiter hacc hsym
    refine Or.inr (Or.inr ?_)
    rw [Hub.pipeline_congr hrx, hpinned, hpin]
    unfold FirstOk
    cases hfind : (h.pipeline c).find? (Item.concerns coin) with
    | none => exact hgiven
    | some x =>
      cases x with
      | lost => trivial
      | batch q =>
        have hconcerns : Item.concerns coin (.batch q) = true := List.find?_some hfind
        have hcoin : q.batch.symbol = coin := of_decide_eq_true hconcerns
        obtain ⟨acc, hacc, hsym⟩ := hserved.sourced q (List.mem_of_find?_eq_some hfind)
        exact ⟨nofun, Or.inl (hgiven _ acc hacc (hsym.trans hcoin))⟩

/-! ## One client's turn -/

/-- What moves neither the queue nor what was given of the coin, nor its pin, leaves a subscriber its footing. -/
theorem Grounded.keep (hg : Grounded h c coin) (hreboots : c.Reboots coin → c'.Reboots coin) (hrx : c'.rx = c.rx)
    (hfeed : feed coin c'.wire = feed coin c.wire) (hpin : c'.pinned.get coin = c.pinned.get coin) :
    Grounded h c' coin := by
  unfold Grounded
  rw [hfeed, hpin, Hub.pipeline_congr hrx]
  exact hg.imp id (Or.imp hreboots id)

/-- The one market a coin names is the one its subscriber has or is about to read. -/
theorem Grounded.repin (hg : Grounded h c coin) (hserved : Served h c) (hready : ¬ c.Reboots coin)
    (hpub : AllPublishable h coin) {iter : List BookKey} (hiter : Iterates h iter) {key : BookKey}
    (hmarkets : marketsFor h.books iter coin = [key]) (hrx : c'.rx = c.rx)
    (hfeed : feed coin c'.wire = feed coin c.wire) (hpin : c'.pinned.get coin = some key) : Grounded h c' coin := by
  have hnamed : ∀ k acc, h.books.get k = some acc → acc.symbol = coin → k = key := by
    intro k acc hacc hsym
    have hmem := mem_marketsFor hpub hiter hacc hsym
    rw [hmarkets] at hmem
    exact List.mem_singleton.mp hmem
  unfold Grounded
  rw [hfeed, hpin, Hub.pipeline_congr hrx]
  rcases hg with ⟨k, hk, hgiven⟩ | hreboot | hfirst
  · obtain ⟨acc, hacc, hsym⟩ := hserved.pinned coin k hk
    obtain rfl := hnamed k acc hacc hsym
    exact Or.inl ⟨k, rfl, hgiven⟩
  · exact absurd hreboot hready
  · unfold FirstOk at hfirst ⊢
    cases hfind : (h.pipeline c).find? (Item.concerns coin) with
    | none =>
      rw [hfind] at hfirst
      obtain ⟨acc, hacc, hsym⟩ := market_of_mem (hmarkets ▸ List.mem_singleton_self key)
      exact Or.inl ⟨key, rfl, hfirst key acc hacc hsym⟩
    | some x =>
      rw [hfind] at hfirst
      cases x with
      | lost => exact Or.inr (Or.inr trivial)
      | batch q =>
        have hconcerns : Item.concerns coin (.batch q) = true := List.find?_some hfind
        obtain ⟨acc, hacc, hsym⟩ := hserved.sourced q (List.mem_of_find?_eq_some hfind)
        have hmarket := hnamed _ acc hacc (hsym.trans (of_decide_eq_true hconcerns))
        refine Or.inr (Or.inr ⟨fun k hk => ?_, hfirst.2⟩)
        exact (Option.some.inj hk).symm.trans hmarket.symm

theorem feed_subscribed (sub : Sub) : feed coin (wire ++ [.subscribed sub]) =
    if sub = .l4Book coin ∧ (feed coin wire).subscribed = false then ⟨true, none⟩ else feed coin wire := by
  rw [feed_append]
  rfl

theorem feed_unsubscribed {sub : Sub} (hsub : sub ≠ .l4Book coin) :
    feed coin (wire ++ [.unsubscribed sub]) = feed coin wire := by
  rw [feed_append]
  exact if_neg hsub

theorem feed_acknowledged (hsubscribed : (feed coin wire).subscribed = true) (sub : Sub) :
    feed coin (wire ++ [.subscribed sub]) = feed coin wire := by
  rw [feed_subscribed, hsubscribed]
  exact if_neg nofun

theorem not_reboots (hp : c.phase = .ready) : ¬ c.Reboots coin := by
  rintro ⟨left, hleft, -⟩
  rw [hp] at hleft
  cases hleft

theorem asks_of_ready (hp : c.phase = .ready) (hasks : c.Asks coin) : .l4Book coin ∈ c.subs := by
  rcases hasks with hsub | hphase | hphase
  · exact hsub
  · rw [hp] at hphase
    cases hphase
  · rw [hp] at hphase
    cases hphase

/-- The pin of a coin outlives every subscription but its last. -/
theorem pinsWithout_get {sub : Sub} (hmem : Sub.l4Book coin ∈ c.subs) (hsub : sub ≠ .l4Book coin) :
    (c.pinsWithout sub).get coin = c.pinned.get coin := by
  unfold HlClient.pinsWithout
  cases hcoin : bookCoin sub with
  | none => rfl
  | some coin' =>
    simp only
    split
    · rfl
    · rename_i hany
      refine FinMap.get_erase_of_ne _ ?_
      rintro rfl
      refine hany (List.any_eq_true.mpr ⟨.l4Book coin, List.mem_filter.mpr ⟨hmem, ?_⟩, decide_eq_true rfl⟩)
      exact decide_eq_true (Ne.symm hsub)

/-- A subscription is acknowledged, and leaves every other its footing. -/
theorem Served.subscribe (hs : Served h c) (hp : c.phase = .ready) {iter : List BookKey} (hiter : Iterates h iter)
    (hpub : ∀ coin, c.Asks coin → AllPublishable h coin) (sub : Sub) :
    Served h (c.subscribe h.books iter sub) := by
  have hne : c.phase ≠ .closing := hp ▸ nofun
  rcases HlClient.subscribe_cases h.books iter sub with ⟨x, heq, hx⟩ | ⟨hmem, pinned, heq, hpinned⟩
  · rw [heq]
    have hfeed : ∀ coin, c.Asks coin → feed coin (c.wire ++ [x]) = feed coin c.wire := by
      intro coin hasks
      rcases hx with ⟨text, rfl⟩ | ⟨rfl, -⟩
      · rw [feed_append]
        rfl
      · exact feed_acknowledged (hs.asked hne coin hasks) sub
    refine ⟨hs.sourced, hs.pinned, fun coin => (hs.wellFed coin).snoc ?_, fun _ coin hasks => ?_,
      fun _ coin hsub => ?_, hs.left⟩
    · rintro f rfl
      rcases hx with ⟨text, hx⟩ | ⟨hx, -⟩
      · cases hx
      · cases hx
    · show (feed coin (c.wire ++ [x])).subscribed = true
      rw [hfeed coin hasks]
      exact hs.asked hne coin hasks
    · exact (hs.grounded hne coin hsub).keep id rfl (hfeed coin (Or.inl hsub)) rfl
  · rw [heq]
    refine ⟨hs.sourced, fun coin key hkey => ?_, fun coin => (hs.wellFed coin).snoc nofun, fun _ coin hasks => ?_,
      fun _ coin hsub => ?_, nofun⟩
    · have hkey : pinned.get coin = some key := hkey
      rcases hpinned with ⟨rfl, -⟩ | ⟨coin', key', -, hmarkets, rfl⟩
      · exact hs.pinned coin key hkey
      · rw [FinMap.get_insert] at hkey
        split at hkey
        · rename_i hcoin
          cases hkey
          exact hcoin ▸ market_of_mem (hmarkets ▸ List.mem_singleton_self _)
        · exact hs.pinned coin key hkey
    · show (feed coin (c.wire ++ [.subscribed sub])).subscribed = true
      rw [feed_subscribed]
      split
      · rfl
      · rename_i hnew
        rcases hasks with hsub | hphase | hphase
        · exact hs.asked hne coin (Or.inl hsub)
        · cases hphase
          exact Bool.eq_true_of_not_eq_false fun hfalse => hnew ⟨rfl, hfalse⟩
        · cases hphase
    · have hsub : Sub.l4Book coin ∈ c.subs := hsub
      have hfeed := feed_acknowledged (hs.asked hne coin (Or.inl hsub)) sub
      have hg := hs.grounded hne coin hsub
      rcases hpinned with ⟨rfl, -⟩ | ⟨coin', key', -, hmarkets, rfl⟩
      · exact hg.keep (fun hr => absurd hr (not_reboots hp)) rfl hfeed rfl
      · by_cases hcoin : coin = coin'
        · subst hcoin
          exact hg.repin hs (not_reboots hp) (hpub coin (Or.inl hsub)) hiter hmarkets rfl hfeed
            (FinMap.get_insert_self _ _ _)
        · exact hg.keep (fun hr => absurd hr (not_reboots hp)) rfl hfeed (FinMap.get_insert_of_ne _ _ hcoin)

theorem Served.control {w : Wanted} (hs : Served h c) (hp : c.phase = .ready) {iter : List BookKey}
    (hiter : Iterates h iter) (hpub : ∀ coin, c.Asks coin → AllPublishable h coin) (request : Control) :
    Served h (HlClient.control h.books iter w c request).2 := by
  have hne : c.phase ≠ .closing := hp ▸ nofun
  cases request with
  | subscribe sub => exact hs.subscribe hp hiter hpub sub
  | ping =>
    have hfeed : ∀ coin, feed coin (c.wire ++ [.pong]) = feed coin c.wire := fun coin => feed_append _
    refine ⟨hs.sourced, hs.pinned, fun coin => (hs.wellFed coin).snoc nofun, fun _ coin hasks => ?_,
      fun _ coin hsub => (hs.grounded hne coin hsub).keep id rfl (hfeed coin) rfl, hs.left⟩
    show (feed coin (c.wire ++ [.pong])).subscribed = true
    rw [hfeed]
    exact hs.asked hne coin hasks
  | unsubscribe sub =>
    show Served h (HlClient.unsubscribe w c sub).2
    have hpinned : ∀ coin key, (HlClient.unsubscribe w c sub).2.pinned.get coin = some key →
        ∃ acc, h.books.get key = some acc ∧ acc.symbol = coin := by
      intro coin key hkey
      have hkey : (HlClient.control h.books iter w c (.unsubscribe sub)).2.pinned.get coin = some key := hkey
      rcases HlClient.control_pinned hkey with hkey | hmarkets
      · exact hs.pinned coin key hkey
      · exact market_of_mem (hmarkets ▸ List.mem_singleton_self key)
    rw [HlClient.unsubscribe_eq] at hpinned ⊢
    have hleft : ∀ coin, Sub.l4Book coin ∈ (c.subs.filter fun s => s ≠ sub) →
        Sub.l4Book coin ∈ c.subs ∧ sub ≠ .l4Book coin := by
      intro coin hmem
      obtain ⟨hmem, hsub⟩ := List.mem_filter.mp hmem
      exact ⟨hmem, Ne.symm (of_decide_eq_true hsub)⟩
    refine ⟨hs.sourced, hpinned, fun coin => (hs.wellFed coin).snoc nofun, fun _ coin hasks => ?_,
      fun _ coin hsub => ?_, fun left hl => ?_⟩
    · have hmem : Sub.l4Book coin ∈ c.subs.filter fun s => s ≠ sub := by
        refine asks_of_ready ?_ hasks
        exact hp
      obtain ⟨hmem, hsub⟩ := hleft coin hmem
      show (feed coin (c.wire ++ [.unsubscribed sub])).subscribed = true
      rw [feed_unsubscribed hsub]
      exact hs.asked hne coin (Or.inl hmem)
    · obtain ⟨hmem, hsub⟩ := hleft coin hsub
      exact (hs.grounded hne coin hmem).keep id rfl (feed_unsubscribed hsub) (pinsWithout_get hmem hsub)
    · have hl : c.phase = .rebootstrapping left := hl
      rw [hp] at hl
      cases hl

/-- A task that moves on asks for nothing new. -/
theorem advance_asks {books : BookSnapshot} {iter : List BookKey} {w : Wanted}
    (hc' : (HlClient.advance books iter w c).2 = some c') (hp' : c'.phase ≠ .closing) (hasks : c'.Asks coin) :
    c.phase ≠ .closing ∧ c.Asks coin := by
  unfold HlClient.advance at hc'
  cases hp : c.phase with
  | ready =>
    rw [hp] at hc'
    cases hc'
    exact ⟨nofun, hasks⟩
  | subscribing sub =>
    rw [hp] at hc'
    have hkeep : c'.subs = c.subs ∧ c'.phase = .bootstrapping sub := by
      cases hc'
      cases bookCoin sub with
      | none => exact ⟨rfl, rfl⟩
      | some coin => exact ⟨rfl, rfl⟩
    refine ⟨nofun, ?_⟩
    rcases hasks with hsub | hphase | hphase
    · exact Or.inl (hkeep.1 ▸ hsub)
    · exact absurd (hkeep.2.symm.trans hphase) nofun
    · refine Or.inr (Or.inl ?_)
      rw [hp, Phase.bootstrapping.inj (hkeep.2.symm.trans hphase)]
  | bootstrapping sub =>
    rw [hp] at hc'
    cases hc'
    have hmem : Sub.l4Book coin ∈ c.subs ++ [sub] := by
      refine asks_of_ready ?_ hasks
      rfl
    refine ⟨nofun, ?_⟩
    rcases List.mem_append.mp hmem with hmem | hmem
    · exact Or.inl hmem
    · exact Or.inr (Or.inr (List.mem_singleton.mp hmem ▸ hp))
  | rebootstrapping left =>
    rw [hp] at hc'
    have hkeep : c'.subs = c.subs ∧ (c'.phase = .ready ∨ ∃ l, c'.phase = .rebootstrapping l) := by
      cases left with
      | nil =>
        cases hc'
        exact ⟨rfl, Or.inl rfl⟩
      | cons sub left =>
        cases hc'
        exact ⟨rfl, Or.inr ⟨left, rfl⟩⟩
    refine ⟨nofun, Or.inl ?_⟩
    rcases hasks with hsub | hphase | hphase
    · exact hkeep.1 ▸ hsub
    · rcases hkeep.2 with hk | ⟨l, hk⟩
      · exact absurd (hk.symm.trans hphase) nofun
      · exact absurd (hk.symm.trans hphase) nofun
    · rcases hkeep.2 with hk | ⟨l, hk⟩
      · exact absurd (hk.symm.trans hphase) nofun
      · exact absurd (hk.symm.trans hphase) nofun
  | closing =>
    rw [hp] at hc'
    simp only at hc'
    split at hc'
    · cases hc'
    · cases hc'
      exact absurd rfl hp'

/-- A task that moves on leaves its subscribers their footing, and puts the one it bootstraps on its feet. -/
theorem Served.advance {w : Wanted} (hs : Served h c) {iter : List BookKey} (hiter : Iterates h iter)
    (hpub : c.phase ≠ .closing → ∀ coin, c.Asks coin → AllPublishable h coin)
    (hone : ∀ coin, c.bootstrapsNext = some (.l4Book coin) → c.pinned.get coin = none → OneMarket h coin)
    (hc' : (HlClient.advance h.books iter w c).2 = some c') : Served h c' := by
  have hasked : ∀ coin, c'.phase ≠ .closing → c'.Asks coin → (feed coin c.wire).subscribed = true := by
    intro coin hp' hasks
    obtain ⟨hne, hasks⟩ := advance_asks hc' hp' hasks
    exact hs.asked hne coin hasks
  unfold HlClient.bootstrapsNext at hone
  unfold HlClient.advance at hc'
  cases hp : c.phase with
  | ready =>
    rw [hp] at hc'
    cases hc'
    exact hs
  | subscribing sub =>
    have hne : c.phase ≠ .closing := hp ▸ nofun
    have heq : ∃ held, c' = { c with held, phase := .bootstrapping sub } := by
      rw [hp] at hc'
      cases hc'
      cases bookCoin sub with
      | none => exact ⟨_, rfl⟩
      | some coin => exact ⟨_, rfl⟩
    obtain ⟨held, rfl⟩ := heq
    refine ⟨hs.sourced, hs.pinned, hs.wellFed, fun hp' coin hasks => hasked coin hp' hasks, fun _ coin hsub => ?_,
      nofun⟩
    refine (hs.grounded hne coin hsub).keep ?_ rfl rfl rfl
    rintro ⟨left, hl, -⟩
    rw [hp] at hl
    cases hl
  | bootstrapping sub =>
    have hne : c.phase ≠ .closing := hp ▸ nofun
    rw [hp] at hc' hone
    cases hc'
    refine ⟨hs.sourced, hs.pinned, fun coin => wellFed_bootstrap (hs.wellFed coin), fun hp' coin hasks => ?_,
      fun _ coin hsub => ?_, nofun⟩
    · exact subscribed_of_frames.trans (hasked coin hp' hasks)
    · by_cases hcoin : sub = .l4Book coin
      · subst hcoin
        exact grounded_of_bootstrap hs (hpub hne coin (Or.inr (Or.inr hp))) hiter (hone coin rfl) rfl rfl rfl
      · have hmem : Sub.l4Book coin ∈ c.subs :=
          (List.mem_append.mp hsub).resolve_right fun hx => hcoin (List.mem_singleton.mp hx).symm
        refine (hs.grounded hne coin hmem).keep ?_ rfl (feed_other_bootstrap hcoin) rfl
        rintro ⟨left, hl, -⟩
        rw [hp] at hl
        cases hl
  | rebootstrapping left =>
    have hne : c.phase ≠ .closing := hp ▸ nofun
    have hmine := hs.left left hp
    rw [hp] at hc' hone
    cases left with
    | nil =>
      cases hc'
      refine ⟨hs.sourced, hs.pinned, hs.wellFed, fun hp' coin hasks => hasked coin hp' hasks, fun _ coin hsub => ?_,
        nofun⟩
      refine (hs.grounded hne coin hsub).keep ?_ rfl rfl rfl
      rintro ⟨left, hl, hmem⟩
      rw [hp] at hl
      cases hl
      cases hmem
    | cons sub left =>
      cases hc'
      refine ⟨hs.sourced, hs.pinned, fun coin => wellFed_bootstrap (hs.wellFed coin), fun hp' coin hasks => ?_,
        fun _ coin hsub => ?_, fun l hl => ?_⟩
      · exact subscribed_of_frames.trans (hasked coin hp' hasks)
      · by_cases hcoin : sub = .l4Book coin
        · subst hcoin
          exact grounded_of_bootstrap hs (hpub hne coin (Or.inl (hmine _ List.mem_cons_self))) hiter (hone coin rfl)
            rfl rfl rfl
        · refine (hs.grounded hne coin hsub).keep ?_ rfl (feed_other_bootstrap hcoin) rfl
          rintro ⟨l, hl, hmem⟩
          rw [hp] at hl
          cases hl
          exact ⟨left, rfl, (List.mem_cons.mp hmem).resolve_left (Ne.symm hcoin)⟩
      · cases hl
        exact fun x hx => hmine x (List.mem_cons_of_mem sub hx)
  | closing =>
    rw [hp] at hc'
    simp only at hc'
    split at hc'
    · cases hc'
    · cases hc'
      exact ⟨hs.sourced, hs.pinned, hs.wellFed, fun hne => absurd rfl hne, fun hne => absurd rfl hne,
        nofun⟩

/-! ## Reading the queue -/

/-- A frame is of its batch's market, and a snapshot when the batch starts with a clear. -/
theorem renderL4_frame {b : NormalizedBook} {market : MarketOrders} {wants : Wants} {idle : Bool} {f : L4Frame}
    (hf : renderL4 b market wants idle = some f) : f.coin = b.symbol ∧ f.market = marketOf b ∧
      (rebaseline b = true → ∃ bids asks, f.data = .snapshot bids asks) := by
  unfold renderL4 at hf
  split at hf
  · cases hf
  · split at hf
    · split at hf
      · cases hf
        exact ⟨rfl, rfl, fun _ => ⟨_, _, rfl⟩⟩
      · cases hf
    · rename_i hr
      obtain ⟨data, -, rfl⟩ := Option.map_eq_some_iff.mp hf
      exact ⟨rfl, rfl, fun hr' => absurd hr' hr⟩

theorem feed_other_frame {f : L4Frame} (hcoin : f.coin ≠ coin) :
    feed coin (wire ++ [.l4Book f]) = feed coin wire := by
  rw [feed_append]
  obtain ⟨fcoin, market, data⟩ := f
  cases data with
  | snapshot bids asks => exact if_neg hcoin
  | updates diffs => rfl

/-- A frame of the market given last, or a snapshot, leaves its market given. -/
theorem given_frame {f : L4Frame} (hcoin : f.coin = coin)
    (hf : (feed coin wire).given = some f.market ∨ ∃ bids asks, f.data = .snapshot bids asks) :
    (feed coin (wire ++ [.l4Book f])).given = some f.market := by
  rw [feed_append]
  obtain ⟨fcoin, market, data⟩ := f
  obtain rfl : fcoin = coin := hcoin
  cases data with
  | snapshot bids asks =>
    show (if fcoin = fcoin then ({ feed fcoin wire with given := some market } : Feed) else feed fcoin wire).given =
      some market
    rw [if_pos rfl]
  | updates diffs =>
    rcases hf with hgiven | ⟨bids, asks, hdata⟩
    · exact hgiven
    · cases hdata

theorem Served.rebootstrap {rx : Receiver Prepared} (hs : Served h c) (hp : c.phase = .ready)
    (hsourced : Sourced h (h.pipeline { c with rx })) (now : Nat) :
    Served h (({ c with rx } : HlClient).rebootstrap now) := by
  have hne : c.phase ≠ .closing := hp ▸ nofun
  rcases HlClient.rebootstrap_cases (c := { c with rx }) now with ⟨frames, hframes, -, heq⟩ | heq
  · rw [heq]
    refine ⟨hsourced, hs.pinned, fun coin => (hs.wellFed coin).append fun f hf => absurd hf (hframes f),
      fun hopen => absurd rfl hopen, fun hopen => absurd rfl hopen, nofun⟩
  · rw [heq]
    refine ⟨hsourced, hs.pinned, hs.wellFed, fun _ coin hasks => hs.asked hne coin ?_, fun _ coin hsub => ?_,
      fun left hl => ?_⟩
    · rcases hasks with hsub | hphase | hphase
      · exact Or.inl hsub
      · cases hphase
      · cases hphase
    · exact Or.inr (Or.inl ⟨_, rfl, List.mem_filter.mpr ⟨hsub, rfl⟩⟩)
    · cases hl
      exact fun sub hsub => (List.mem_filter.mp hsub).1

/-- A client that skips an item which is nothing to it. -/
theorem Served.skip {rx : Receiver Prepared} (hs : Served h c) (hp : c.phase = .ready)
    (hsourced : Sourced h (h.pipeline { c with rx }))
    (hfirst : ∀ coin, .l4Book coin ∈ c.subs →
      FirstOk h coin (c.pinned.get coin) (feed coin c.wire).given (h.pipeline c) →
        FirstOk h coin (c.pinned.get coin) (feed coin c.wire).given (h.pipeline { c with rx })) :
    Served h { c with rx } where
  sourced := hsourced
  pinned := hs.pinned
  wellFed := hs.wellFed
  asked := hs.asked
  grounded hne coin hsub := (hs.grounded hne coin hsub).imp id
    (Or.imp (fun hr => absurd hr (not_reboots hp)) (hfirst coin hsub))
  left := hs.left

theorem frames_keeps (p : PreparedMessage) : (c.frames p).subs = c.subs ∧ (c.frames p).phase = c.phase := by
  unfold HlClient.frames
  split
  · split
    · split
      · exact ⟨rfl, rfl⟩
      · exact ⟨rfl, rfl⟩
    · exact ⟨rfl, rfl⟩
  · exact ⟨rfl, rfl⟩

section Read

variable {rx : Receiver Prepared} {p : PreparedMessage} {b : NormalizedBook}

/-- A subscriber that reads a batch of its coin's market has it for its pin. -/
theorem pinned_by_frames (hb : venueBatch p.msg = some b) (hkey : p.key = some (marketOf b))
    (hsub : .l4Book b.symbol ∈ c.subs) (hpin : ∀ key, c.pinned.get b.symbol = some key → key = marketOf b) :
    (c.frames p).pinned.get b.symbol = some (marketOf b) := by
  rw [HlClient.frames_pinned hb hkey]
  split
  · rfl
  · rename_i hcond
    cases hpinned : c.pinned.get b.symbol with
    | some key => rw [hpin key hpinned]
    | none => exact absurd ⟨rfl, hpinned, List.any_eq_true.mpr ⟨_, hsub, decide_eq_true rfl⟩⟩ hcond

/-- What a subscriber is about to read is a batch of another market than its pin, of the market it was given, or a
snapshot of its own. -/
theorem Grounded.next (hg : Grounded h c b.symbol) (hp : c.phase = .ready)
    (hread : h.pipeline c = .batch ⟨b, some p.l4⟩ :: h.pipeline { c with rx }) :
    (∃ key, c.pinned.get b.symbol = some key ∧ (feed b.symbol c.wire).given = some key) ∨
      ((∀ key, c.pinned.get b.symbol = some key → key = marketOf b) ∧
        ((feed b.symbol c.wire).given = some (marketOf b) ∨ (rebaseline b = true ∧ p.l4 ≠ none))) := by
  rcases hg with hpin | hreboot | hfirst
  · exact Or.inl hpin
  · exact absurd hreboot (not_reboots hp)
  · rw [hread] at hfirst
    have hfirst := (FirstOk.cons_batch (q := ⟨b, some p.l4⟩) rfl).mp hfirst
    refine Or.inr ⟨hfirst.1, hfirst.2.imp id ?_⟩
    rintro ⟨hr, -, hframe⟩
    exact ⟨hr, fun hnone => hframe (congrArg some hnone)⟩

/-- **A batch read leaves every subscriber its footing**, and a diff is of the market given last. -/
theorem Served.frames (hs : Served h c) (hp : c.phase = .ready) (hnodup : c.subs.Nodup)
    (hfaith : (Prepared.message p).Faithful) (hb : venueBatch p.msg = some b)
    (hread : h.pipeline c = .batch ⟨b, some p.l4⟩ :: h.pipeline { c with rx }) :
    Served h (({ c with rx } : HlClient).frames p) := by
  have hne : c.phase ≠ .closing := hp ▸ nofun
  obtain ⟨hkey, market, wants, idle, hl4⟩ := hfaith b hb
  obtain ⟨hsubs, hphase⟩ := frames_keeps (c := { c with rx }) p
  have hwire := HlClient.frames_wire (c := { c with rx }) hnodup hb hkey
  have hget := HlClient.frames_pinned (c := { c with rx }) hb hkey
  have hpinself := pinned_by_frames (c := { c with rx }) hb hkey
  have hrx : (({ c with rx } : HlClient).frames p).rx = rx := HlClient.rx_frames p
  have hpipe := Hub.pipeline_congr (h := h) (c := { c with rx }) hrx
  generalize ({ c with rx } : HlClient).frames p = c' at hsubs hphase hwire hget hpinself hrx hpipe ⊢
  have hsourced : Sourced h (h.pipeline c') := by
    rw [hpipe]
    refine hs.sourced.sub fun q hq => ?_
    rw [hread]
    exact List.mem_cons_of_mem _ hq
  have hpinned : ∀ coin key, c'.pinned.get coin = some key →
      ∃ acc, h.books.get key = some acc ∧ acc.symbol = coin := by
    intro coin key hk
    rw [hget] at hk
    split at hk
    · rename_i hcond
      cases hk
      rw [hcond.1]
      exact hs.sourced ⟨b, some p.l4⟩ (by rw [hread]; exact List.mem_cons_self)
    · exact hs.pinned coin key hk
  have hother : ∀ coin, coin ≠ b.symbol → .l4Book coin ∈ c.subs →
      feed coin c'.wire = feed coin c.wire →
        Grounded h c' coin := by
    intro coin hcoin hsub hfeed
    have hpin : c'.pinned.get coin = c.pinned.get coin := by
      rw [hget, if_neg fun hcond => hcoin hcond.1]
    unfold Grounded
    rw [hfeed, hpin, hpipe]
    refine (hs.grounded hne coin hsub).imp id (Or.imp (fun hr => absurd hr (not_reboots hp)) fun hfirst => ?_)
    rw [hread] at hfirst
    exact (FirstOk.cons_other (Ne.symm hcoin)).mp hfirst
  have hasks : ∀ coin, c'.Asks coin → .l4Book coin ∈ c.subs := by
    intro coin ha
    have := asks_of_ready (hphase.trans hp) ha
    rwa [hsubs] at this
  have hleft : ∀ left, c'.phase = .rebootstrapping left →
      ∀ sub ∈ left, sub ∈ c'.subs := by
    intro left hl
    rw [hphase] at hl
    exact absurd (hp.symm.trans hl) nofun
  -- the frame goes out to a subscriber whose pin, if any, is the batch's market
  by_cases hcond : .l4Book b.symbol ∈ c.subs ∧
      (c.pinned.get b.symbol).all (fun held => held = marketOf b) = true
  · rw [if_pos hcond] at hwire
    have hpin : ∀ key, c.pinned.get b.symbol = some key → key = marketOf b := by
      intro key hk
      have hall := hcond.2
      rw [hk] at hall
      exact of_decide_eq_true hall
    have hgiven : (feed b.symbol c.wire).given = some (marketOf b) ∨ (rebaseline b = true ∧ p.l4 ≠ none) := by
      rcases (hs.grounded hne b.symbol hcond.1).next hp hread with ⟨key, hk, hg⟩ | ⟨-, hg⟩
      · rw [hpin key hk] at hg
        exact Or.inl hg
      · exact hg
    cases hframe : p.l4 with
    | none =>
      have hwire : c'.wire = c.wire := by
        rw [hwire, hframe]
        exact List.append_nil _
      have hgiven := hgiven.resolve_right fun hx => hx.2 hframe
      refine ⟨hsourced, hpinned, fun coin => hwire ▸ hs.wellFed coin, fun _ coin ha => ?_, fun _ coin hsub => ?_, hleft⟩
      · rw [hwire]
        exact hs.asked hne coin (Or.inl (hasks coin ha))
      · rw [hsubs] at hsub
        by_cases hcoin : coin = b.symbol
        · subst hcoin
          exact Or.inl ⟨marketOf b, hpinself hsub hpin, by rw [hwire]; exact hgiven⟩
        · exact hother coin hcoin hsub (by rw [hwire])
    | some f =>
      have hwire : c'.wire = c.wire ++ [.l4Book f] := by
        rw [hwire, hframe]
        rfl
      obtain ⟨hfcoin, hfmarket, hsnap⟩ := renderL4_frame (hl4.symm.trans hframe)
      have hf : (feed b.symbol c.wire).given = some f.market ∨ ∃ bids asks, f.data = .snapshot bids asks := by
        rw [hfmarket]
        exact hgiven.imp id fun hx => hsnap hx.1
      refine ⟨hsourced, hpinned, fun coin => ?_, fun _ coin ha => ?_, fun _ coin hsub => ?_, hleft⟩
      · rw [hwire]
        refine (hs.wellFed coin).snoc ?_
        rintro f' hf' rfl ⟨diffs, hdiffs⟩
        cases hf'
        rw [hfcoin]
        refine hf.resolve_right ?_
        rintro ⟨bids, asks, hdata⟩
        rw [hdata] at hdiffs
        cases hdiffs
      · have hsame : (feed coin (c.wire ++ [f].map .l4Book)).subscribed = (feed coin c.wire).subscribed :=
          subscribed_of_frames
        rw [hwire]
        exact hsame.trans (hs.asked hne coin (Or.inl (hasks coin ha)))
      · rw [hsubs] at hsub
        by_cases hcoin : coin = b.symbol
        · subst hcoin
          refine Or.inl ⟨marketOf b, hpinself hsub hpin, ?_⟩
          rw [hwire, given_frame hfcoin hf, hfmarket]
        · refine hother coin hcoin hsub ?_
          rw [hwire]
          exact feed_other_frame (hfcoin ▸ Ne.symm hcoin)
  · rw [if_neg hcond, List.append_nil] at hwire
    refine ⟨hsourced, hpinned, fun coin => hwire ▸ hs.wellFed coin, fun _ coin ha => ?_, fun _ coin hsub => ?_, hleft⟩
    · rw [hwire]
      exact hs.asked hne coin (Or.inl (hasks coin ha))
    · rw [hsubs] at hsub
      by_cases hcoin : coin = b.symbol
      · subst hcoin
        -- the subscriber has another market under the coin
        rcases (hs.grounded hne b.symbol hsub).next hp hread with ⟨key, hk, hg⟩ | ⟨hpin, -⟩
        · refine Or.inl ⟨key, ?_, by rw [hwire]; exact hg⟩
          have hsome : c.pinned.get b.symbol ≠ none := hk ▸ nofun
          rw [hget, if_neg fun hx => hsome hx.2.1]
          exact hk
        · refine absurd ⟨hsub, ?_⟩ hcond
          cases hk : c.pinned.get b.symbol with
          | none => rfl
          | some key => exact decide_eq_true (hpin key hk)
      · exact hother coin hcoin hsub (by rw [hwire])

end Read

theorem Served.forward (hs : Served h c) (hp : c.phase = .ready) (hnodup : c.subs.Nodup)
    (hfaith : ∀ p ∈ c.rx.buf, p.Faithful) (now : Nat) : Served h (c.forward now) := by
  unfold HlClient.forward
  rcases Receiver.recv_cases c.rx with ⟨hmissed, heq⟩ | ⟨-, -, heq⟩ | ⟨x, buf, hmissed, hbuf, heq⟩
  · rw [heq]
    have htold := Hub.pipeline_told (h := h) { c with rx := ⟨c.rx.buf, false⟩ } hmissed rfl
    refine hs.rebootstrap hp (hs.sourced.sub fun q hq => ?_) now
    rw [htold]
    exact List.mem_cons_of_mem _ hq
  · rw [heq]
    exact hs
  · rw [heq]
    have hread := Hub.pipeline_read (h := h) { c with rx := ⟨buf, false⟩ } hmissed hbuf rfl
    have hsourced : Sourced h (h.pipeline { c with rx := ⟨buf, false⟩ }) := by
      refine hs.sourced.sub fun q hq => ?_
      rw [hread]
      exact List.mem_append_right _ hq
    cases x with
    | resync =>
      simp only
      split
      · exact hs.rebootstrap hp hsourced now
      · rename_i hany
        refine hs.skip hp hsourced fun coin hsub => ?_
        exact absurd (List.any_eq_true.mpr ⟨_, hsub, rfl⟩) hany
    | message p =>
      simp only
      cases hb : venueBatch p.msg with
      | none =>
        have hitems : Prepared.items (.message p) = [] := itemsOf_none hb _
        rw [hitems, List.nil_append] at hread
        rw [HlClient.frames_of_none hb]
        exact hs.skip hp hsourced fun coin _ hfirst => hread ▸ hfirst
      | some b =>
        have hitems : Prepared.items (.message p) = [.batch ⟨b, some p.l4⟩] := itemsOf_some hb _
        rw [hitems] at hread
        exact hs.frames hp hnodup (hfaith (.message p) (hbuf ▸ List.mem_cons_self)) hb hread

/-! ## Whole runs -/

variable {i : Nat}

theorem Served.congr {h' : Hub} (hs : Served h c) (hbooks : h'.books = h.books)
    (hpipe : h'.pipeline c = h.pipeline c) : Served h' c := by
  refine ⟨?_, ?_, hs.wellFed, hs.asked, fun hne coin hsub => ?_, hs.left⟩
  · unfold Sourced
    rw [hbooks, hpipe]
    exact hs.sourced
  · rw [hbooks]
    exact hs.pinned
  · refine (hs.grounded hne coin hsub).imp id (Or.imp id fun hfirst => ?_)
    rw [hpipe]
    exact hfirst.congr hbooks

theorem AllPublishable.congr {h' : Hub} (hpub : AllPublishable h coin) (hbooks : h'.books = h.books) :
    AllPublishable h' coin := by
  unfold AllPublishable
  rw [hbooks]
  exact hpub

namespace Baselined

theorem init : Baselined .init where
  accounted := .init
  faithful := .init
  ahead := nofun
  watched := by
    rintro coin ⟨i, c, hc, -⟩
    cases hc
  served := nofun

theorem turn (hb : Baselined h) {act : Wanted → HlClient → Wanted × Option HlClient}
    (hacc : Accounted (h.turn i act)) (hfaith : Faithful (h.turn i act))
    (hact : ∀ c c', h.clients.get i = some c → (act h.wanted c).2 = some c' →
      Served h c' ∧ (c'.phase ≠ .closing → ∀ coin, c'.Asks coin → AllPublishable h coin)) :
    Baselined (h.turn i act) := by
  have hbooks : (h.turn i act).books = h.books := Hub.turn_front.1
  refine ⟨hacc, hfaith, ?_, ?_, ?_⟩
  · unfold Sourced
    rw [Hub.turn_pipeline, hbooks]
    exact hb.ahead
  · rintro coin ⟨j, c', hc', hp, hasks⟩
    refine AllPublishable.congr ?_ hbooks
    by_cases hj : j = i
    · subst hj
      obtain ⟨c, hc, hact'⟩ := Hub.turn_get_self hc'
      exact (hact c c' hc hact').2 hp coin hasks
    · rw [Hub.turn_get_ne hj] at hc'
      exact hb.watched coin ⟨j, c', hc', hp, hasks⟩
  · have hself : ∀ c c', h.clients.get i = some c → (act h.wanted c).2 = some c' → Served (h.turn i act) c' :=
      fun c c' hc hc' => (hact c c' hc hc').1.congr hbooks (Hub.turn_pipeline c')
    exact Hub.turn_all hself fun j c _ hc => (hb.served j c hc).congr hbooks (Hub.turn_pipeline c)

theorem turnReady (hb : Baselined h) {act : Wanted → HlClient → Wanted × HlClient}
    (hacc : Accounted (h.turnReady i act)) (hfaith : Faithful (h.turnReady i act))
    (hact : ∀ c, h.clients.get i = some c → c.phase = .ready → Served h (act h.wanted c).2 ∧
      ((act h.wanted c).2.phase ≠ .closing → ∀ coin, (act h.wanted c).2.Asks coin → AllPublishable h coin)) :
    Baselined (h.turnReady i act) := by
  refine hb.turn hacc hfaith fun c c' hc hc' => ?_
  simp only at hc'
  split at hc'
  · rename_i hp
    cases hc'
    exact hact c hc hp
  · cases hc'
    exact ⟨hb.served i c hc, fun hp coin hasks => hb.watched coin ⟨i, c, hc, hp, hasks⟩⟩

/-- What the arbiter's broadcast and the stage do. -/
theorem moved {h' : Hub} (hb : Baselined h) (hacc : Accounted h') (hfaith : Faithful h') (hbooks : h'.books = h.books)
    (hahead : Sourced h (h'.pipeline .fresh))
    (hclients : ∀ i c', h'.clients.get i = some c' → ∃ c, h.clients.get i = some c ∧ c' = { c with rx := c'.rx } ∧
      Moves h (h.pipeline c) (h'.pipeline c')) : Baselined h' := by
  refine ⟨hacc, hfaith, ?_, ?_, ?_⟩
  · unfold Sourced
    rw [hbooks]
    exact hahead
  · rintro coin ⟨i, c', hc', hp, hasks⟩
    obtain ⟨c, hc, heq, -⟩ := hclients i c' hc'
    rw [heq] at hp hasks
    exact (hb.watched coin ⟨i, c, hc, hp, hasks⟩).congr hbooks
  · intro i c' hc'
    obtain ⟨c, hc, heq, hmoves⟩ := hclients i c' hc'
    have hs := hb.served i c hc
    have hphase : c'.phase = c.phase := by rw [heq]
    have hsubs : c'.subs = c.subs := by rw [heq]
    have hwire : c'.wire = c.wire := by rw [heq]
    have hpinned : c'.pinned = c.pinned := by rw [heq]
    refine ⟨?_, ?_, fun coin => hwire ▸ hs.wellFed coin, ?_, ?_, ?_⟩
    · unfold Sourced
      rw [hbooks]
      exact hs.sourced.moves hmoves
    · rw [hbooks, hpinned]
      exact hs.pinned
    · unfold HlClient.Asks
      rw [hphase, hsubs, hwire]
      exact hs.asked
    · intro hp coin hsub
      rw [hphase] at hp
      rw [hsubs] at hsub
      have hclaim : .l4Book coin ∈ c.claims := by
        unfold HlClient.claims
        split
        · exact List.mem_append_left _ hsub
        · exact hsub
      exact (hs.grounded hp coin hsub).moves heq hmoves hbooks (hb.accounted.wanted_pos hc hp hclaim)
    · rw [hphase, hsubs]
      exact hs.left

theorem publish (hb : Baselined h) {m : FeedMessage} (hacc : Accounted (h.publish m)) (hfaith : Faithful (h.publish m))
    (harr : h.arriving = none) (hvenue : Step.OfVenue h (.publish m)) (hcov : Step.Covered h (.publish m)) :
    Baselined (h.publish m) := by
  have hclients : (h.publish m).clients = h.clients := by
    unfold Hub.publish
    rw [harr]
  have hkeep := fun b hm => (hcov b hm).1
  have hext := extends_publish harr hkeep
  refine ⟨hacc, hfaith, ?_, ?_, ?_⟩
  · rw [Hub.publish_pipeline harr]
    exact hb.ahead.publish harr hkeep
  · rintro coin ⟨i, c, hc, hp, hasks⟩
    rw [hclients] at hc
    have hwatched : Watched h coin := ⟨i, c, hc, hp, hasks⟩
    intro key acc hget hsym
    rw [publish_books harr] at hget
    cases hm : m.batch with
    | none =>
      rw [hm] at hget
      exact hb.watched coin hwatched key acc hget hsym
    | some b =>
      rw [hm, Option.elim_some, get_publishBook] at hget
      split at hget
      · rename_i hkey
        cases hget
        have hcoin : b.symbol = coin := (symbol_apply _ b).symm.trans hsym
        subst hcoin
        rw [hkey]
        exact (hcov b hm).2 hwatched
      · exact hb.watched coin hwatched key acc hget hsym
  · intro i c hc
    rw [hclients] at hc
    have hs := hb.served i c hc
    refine ⟨?_, fun coin key hk => ?_, hs.wellFed, hs.asked, fun hp coin hsub => ?_, hs.left⟩
    · rw [Hub.publish_pipeline harr]
      exact hs.sourced.publish harr hkeep
    · obtain ⟨acc, hget, hsym⟩ := hs.pinned coin key hk
      obtain ⟨acc', hget', hsym'⟩ := hext key acc hget
      exact ⟨acc', hget', hsym'.trans hsym⟩
    · refine (hs.grounded hp coin hsub).publish harr (hs.pinned coin) hvenue hkeep fun b hm hcoin => ?_
      exact (hcov b hm).2 (hcoin ▸ ⟨i, c, hc, hp, Or.inl hsub⟩)

theorem connect (hb : Baselined h) (hacc : Accounted h.connect) (hfaith : Faithful h.connect) :
    Baselined h.connect := by
  rcases Hub.connect_cases h with heq | heq
  · rw [heq]
    exact hb
  · rw [heq] at hacc hfaith ⊢
    refine ⟨hacc, hfaith, hb.ahead, ?_, ?_⟩
    · rintro coin ⟨i, c, hc, hp, hasks⟩
      rw [FinMap.get_insert] at hc
      split at hc
      · cases hc
        cases asks_of_ready rfl hasks
      · exact hb.watched coin ⟨i, c, hc, hp, hasks⟩
    · intro i c hc
      rw [FinMap.get_insert] at hc
      split at hc
      · cases hc
        refine ⟨hb.ahead, fun _ _ hk => (by cases hk), fun _ => wellFed_nil, fun _ coin hasks => ?_, fun _ _ hsub => ?_,
          nofun⟩
        · cases asks_of_ready rfl hasks
        · cases hsub
      · exact (hb.served i c hc).congr rfl rfl

theorem step (hb : Baselined h) {capacity : Nat} {s : Step} (hvenue : s.OfVenue h) (hcov : s.Covered h) :
    Baselined (h.step capacity s) := by
  have hacc := hb.accounted.step capacity s
  have hfaith := hb.faithful.step capacity s
  cases s with
  | publish m =>
    cases harr : h.arriving with
    | none => exact hb.publish hacc hfaith harr hvenue hcov
    | some m' =>
      have hsame : h.step capacity (.publish m) = h := by
        show h.publish m = h
        unfold Hub.publish
        rw [harr]
      rw [hsame]
      exact hb
  | append =>
    have hkeep : (h.append capacity).books = h.books ∧ (h.append capacity).clients = h.clients := by
      unfold Hub.append
      split
      · exact ⟨rfl, rfl⟩
      · exact ⟨rfl, rfl⟩
    refine hb.moved hacc hfaith hkeep.1 (hb.ahead.moves (Hub.append_moves capacity .fresh)) fun i c' hc' => ?_
    have hc' : (h.append capacity).clients.get i = some c' := hc'
    rw [hkeep.2] at hc'
    exact ⟨c', hc', rfl, Hub.append_moves capacity c'⟩
  | stage iter =>
    refine hb.moved hacc hfaith (prepare_books iter) ?_ fun i c' hc' => Hub.prepare_client iter hc'
    show Sourced h ((h.prepare iter).pipeline .fresh)
    rcases Hub.prepare_moves (h := h) iter with ⟨-, hmoves⟩ | ⟨p, -, hwait, hupstream, -⟩
    · exact hb.ahead.moves (hmoves .fresh)
    · refine hb.ahead.sub fun q hq => ?_
      unfold Hub.pipeline at hq ⊢
      rw [hwait, hupstream] at hq
      exact List.mem_append_right _ (List.mem_append_right _ (List.mem_append_right _ hq))
  | connect => exact hb.connect hacc hfaith
  | control i request iter =>
    have hturn : h.step capacity (.control i request iter) =
        h.turnReady i fun w c => c.control h.books iter w request := rfl
    rw [hturn] at hacc hfaith ⊢
    refine hb.turnReady hacc hfaith fun c hc hp => ?_
    have hpub : ∀ coin, c.Asks coin → AllPublishable h coin :=
      fun coin hasks => hb.watched coin ⟨i, c, hc, hp ▸ nofun, hasks⟩
    refine ⟨(hb.served i c hc).control hp hvenue hpub request, fun _ coin hasks => ?_⟩
    obtain ⟨hsubs, hphase⟩ := HlClient.control_subs (w := h.wanted) hp h.books iter request
    rcases hasks with hsub | hphase' | hphase'
    · exact hpub coin (Or.inl (hsubs _ hsub))
    · rcases hphase with hphase | ⟨sub, hreq, -, hphase⟩
      · exact absurd (hphase.symm.trans hphase') nofun
      · obtain rfl : sub = .l4Book coin := Phase.subscribing.inj (hphase.symm.trans hphase')
        subst hreq
        exact hcov
    · rcases hphase with hphase | ⟨sub, -, -, hphase⟩
      · exact absurd (hphase.symm.trans hphase') nofun
      · exact absurd (hphase.symm.trans hphase') nofun
  | advance i iter =>
    have hturn : h.step capacity (.advance i iter) = h.turn i fun w c => c.advance h.books iter w := rfl
    rw [hturn] at hacc hfaith ⊢
    refine hb.turn hacc hfaith fun c c' hc hc' => ?_
    have hpub : c.phase ≠ .closing → ∀ coin, c.Asks coin → AllPublishable h coin :=
      fun hp coin hasks => hb.watched coin ⟨i, c, hc, hp, hasks⟩
    refine ⟨(hb.served i c hc).advance hvenue hpub (hcov c hc) hc', fun hp coin hasks => ?_⟩
    obtain ⟨hp', hasks'⟩ := advance_asks hc' hp hasks
    exact hpub hp' coin hasks'
  | forward i now =>
    have hturn : h.step capacity (.forward i now) = h.turnReady i fun w c => (w, c.forward now) := rfl
    rw [hturn] at hacc hfaith ⊢
    refine hb.turnReady hacc hfaith fun c hc hp => ?_
    have hnodup : c.subs.Nodup := HlClient.claims_of_ready hp ▸ (hb.accounted.shape i c hc (hp ▸ nofun)).nodup
    refine ⟨(hb.served i c hc).forward hp hnodup (hb.faithful.queued i c hc) now, fun _ coin hasks => ?_⟩
    obtain ⟨-, hsubs, hphase⟩ := HlClient.forward_keeps hp now
    refine hb.watched coin ⟨i, c, hc, hp ▸ nofun, Or.inl ?_⟩
    rcases hasks with hsub | hphase' | hphase'
    · exact hsubs ▸ hsub
    · rcases hphase with hphase | hphase | hphase
      · exact absurd (hphase.symm.trans hphase') nofun
      · exact absurd (hphase.symm.trans hphase') nofun
      · exact absurd (hphase.symm.trans hphase') nofun
    · rcases hphase with hphase | hphase | hphase
      · exact absurd (hphase.symm.trans hphase') nofun
      · exact absurd (hphase.symm.trans hphase') nofun
      · exact absurd (hphase.symm.trans hphase') nofun
  | hangUp i =>
    have hturn : h.step capacity (.hangUp i) = h.turn i fun w c => (w, some { c with phase := .closing }) := rfl
    rw [hturn] at hacc hfaith ⊢
    refine hb.turn hacc hfaith fun c c' hc hc' => ?_
    cases hc'
    have hs := hb.served i c hc
    exact ⟨⟨hs.sourced, hs.pinned, hs.wellFed, fun hp => absurd rfl hp, fun hp => absurd rfl hp, nofun⟩,
      fun hp => absurd rfl hp⟩

end Baselined

/-- **Every diff follows the snapshot of its market.** -/
theorem updates_follow_their_snapshot {capacity : Nat} {steps : List Step}
    (hrun : (machine capacity).Along (fun h s => s.OfVenue h ∧ s.Covered h) .init steps) {i : Nat} {c : HlClient}
    (hc : ((machine capacity).exec .init steps).clients.get i = some c) (coin : String) : WellFed coin c.wire := by
  have hb : Baselined ((machine capacity).exec .init steps) :=
    Machine.along_rule (fun _ _ hok hb => hb.step hok.1 hok.2) steps _ hrun .init
  exact (hb.served i c hc).wellFed coin

/-! ## A client that subscribes behind a bare clear -/

/-- The first order of a market, as a diff. -/
def btcFirstOrder : NormalizedBook :=
  btcBatch [⟨.update, .bid, ⟨0x3FF0000000000000⟩, ⟨0x3FF0000000000000⟩, 1⟩]

/-- A market opens with a bare clear; a client subscribes, and the market's first order reaches it. -/
def btcClearedFirst : List Step :=
  relayBtc (btcBatch [BookAccumulator.clearBoth]) ++ .connect :: subscribeBtc [btcMarket] ++ relayBtc btcFirstOrder ++
    [.forward 0 0]

theorem btcBatch_ofVenue {h : Hub} {changes : List BookChange}
    (hfirst : (h.books.get btcMarket).isNone = true → rebaseline (btcBatch changes) = true) :
    (Step.publish (.book (btcBatch changes))).OfVenue h := by
  intro b hb
  cases hb
  exact ⟨rfl, rfl, fun hget => hfirst (Option.isNone_iff_eq_none.mpr hget)⟩

/-- **A client is given diffs of a book it was never given.**  A market that has only been cleared is not order-level
yet, so the client is bootstrapped with nothing; the first order arrives as a diff. -/
theorem diffs_before_any_snapshot :
    (machine 16).Along (fun h s => s.OfVenue h) .init btcClearedFirst ∧
      ∃ c, ((machine 16).exec .init btcClearedFirst).clients.get 0 = some c ∧ ¬ WellFed "BTC" c.wire := by
  have hone : ∀ h : Hub, h.books.keys = {btcMarket} → Iterates h [btcMarket] := fun h hkeys =>
    iterates_of_keys (by decide) (by rw [hkeys]; rfl)
  refine ⟨⟨?_, trivial, trivial, trivial, trivial, trivial, trivial, hone _ (by decide +kernel),
    hone _ (by decide +kernel), hone _ (by decide +kernel), ?_, trivial, trivial, trivial, trivial, trivial, trivial,
    trivial⟩, ?_⟩
  · exact btcBatch_ofVenue fun _ => by decide
  · exact btcBatch_ofVenue (by decide +kernel)
  · refine ⟨_, rfl, fun hw => ?_⟩
    have hwire : (((machine 16).exec .init btcClearedFirst).clients.get 0).map HlClient.wire =
        some ([.subscribed (.l4Book "BTC")] ++ .l4Book ⟨"BTC", btcMarket,
          .updates [⟨1, ⟨0x3FF0000000000000⟩, .new ⟨0x3FF0000000000000⟩⟩]⟩ :: []) := by decide +kernel
    have hgiven := hw [.subscribed (.l4Book "BTC")] _ [] (Option.some.inj hwire) rfl ⟨_, rfl⟩
    exact absurd hgiven (by decide)

/-- A client reads the first book of its coin, and then the removal of its order. -/
def btcReadOn : List Step := btcOpened ++ .forward 0 0 :: relayBtc btcRemoval ++ [.forward 0 0]

/-- A client that reads a snapshot, and then a diff of its market. -/
theorem updates_follow_first_book :
    ∃ c, ((machine 16).exec .init btcReadOn).clients.get 0 = some c ∧ c.wire.length = 3 ∧ WellFed "BTC" c.wire := by
  have hnone : ∀ h : Hub, h.books.keys = ∅ → Iterates h [] := fun h hkeys => iterates_of_keys (by decide) hkeys
  have hempty : ∀ h : Hub, h.books.keys = ∅ → ∀ key acc, h.books.get key ≠ some acc := by
    intro h hkeys key acc hacc
    have hmem := FinMap.mem_keys_iff.mpr ⟨acc, hacc⟩
    rw [hkeys] at hmem
    cases hmem
  -- a batch of the market is covered by what it leaves in the book map
  have hbatch : ∀ (h : Hub) (changes : List BookChange),
      ((h.books.get btcMarket).all fun acc => acc.symbol = "BTC") = true →
      publishable btcMarket (((h.books.get btcMarket).getD (.new "BTC")).apply (btcBatch changes)) "BTC" = true →
      (Step.publish (.book (btcBatch changes))).Covered h := by
    intro h changes hsym hpub b hb
    cases hb
    refine ⟨fun acc hacc => ?_, fun _ => hpub⟩
    rw [show h.books.get btcMarket = some acc from hacc] at hsym
    exact of_decide_eq_true hsym
  have hrun : (machine 16).Along (fun h s => s.OfVenue h ∧ s.Covered h) .init btcReadOn := by
    refine Machine.Along.and ?_ ?_
    · exact ⟨trivial, hnone _ (by decide +kernel), hnone _ (by decide +kernel), hnone _ (by decide +kernel),
        btcBatch_ofVenue (fun _ => by decide), trivial, trivial, trivial, trivial, trivial, trivial,
        btcBatch_ofVenue (by decide +kernel), trivial, trivial, trivial, trivial, trivial, trivial, trivial⟩
    · exact ⟨trivial, fun key acc hacc => absurd hacc (hempty _ (by decide +kernel) key acc),
        fun _ _ _ _ _ key acc _ _ hacc => absurd hacc (hempty _ (by decide +kernel) key acc),
        fun _ _ _ _ _ key acc _ _ hacc => absurd hacc (hempty _ (by decide +kernel) key acc),
        hbatch _ _ (by decide +kernel) (by decide +kernel), trivial, trivial, trivial, trivial, trivial, trivial,
        hbatch _ _ (by decide +kernel) (by decide +kernel), trivial, trivial, trivial, trivial, trivial, trivial,
        trivial⟩
  exact ⟨_, rfl, by decide +kernel, updates_follow_their_snapshot (i := 0) hrun rfl "BTC"⟩

end Hl

end EdgeConnect
