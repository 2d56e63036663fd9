import EdgeConnect.Ingest.MbpSteps
import EdgeConnect.Ingest.PriceBookShape
import EdgeConnect.Lib.Mirror

/-!
# What a consumer of the processor accumulates (`MbpProcessor` in `src/ingest/processor.rs`)

A consumer that folds in every batch of a book rests the levels of the book, once it was given a clear of both sides.

* `Accumulated` — the levels of a consumer without caps; `consumer` — those of a book's consumer after what was sent;
* `Copies` — a consumer rests the levels of a book; `Faithful.delta` — a delta and what it is published as;
* `Mirrored` — every served book has a faithful consumer, counting what the datagram in progress has to publish;
  `Mirrored.move` — every move keeps it;
* `EndDefined` — the end of a snapshot group comes while the instrument's definition is known;
* `served_book_is_mirrored`.
-/

set_option autoImplicit false

namespace EdgeConnect.Mbp

open Ingest

/-! ## The consumer -/

/-- What a `BookAccumulator` without caps rests, by price; `cleared` says that it has folded in a clear of both sides. -/
structure Accumulated (P S : Type) where
  bids : P → Option S
  asks : P → Option S
  cleared : Bool

section Consumers

variable {P S : Type} [DecidableEq P]

namespace Accumulated

def empty : Accumulated P S := ⟨fun _ => none, fun _ => none, false⟩

/-- One change of a price-level book. -/
def apply (a : Accumulated P S) (c : Change P S) : Accumulated P S :=
  match c.action, c.side with
  | .clear, .both => ⟨fun _ => none, fun _ => none, true⟩
  | .clear, .bid => { a with bids := fun _ => none }
  | .clear, .ask => { a with asks := fun _ => none }
  | .delete, .bid => { a with bids := Function.update a.bids c.price none }
  | .delete, .ask => { a with asks := Function.update a.asks c.price none }
  | .update, .bid => { a with bids := Function.update a.bids c.price (some c.size) }
  | .update, .ask => { a with asks := Function.update a.asks c.price (some c.size) }
  | .delete, .both | .update, .both => a

def feed (a : Accumulated P S) (cs : List (Change P S)) : Accumulated P S := cs.foldl apply a

/-- What a consumer of one book makes of a sending: a new Source ID is a new market, whose book starts empty. -/
def receive (key : PriceBookKey) (a : Accumulated P S) : Sending P S → Accumulated P S
  | .book k _ changes _ => if k = key then a.feed changes else a
  | .revealed k _ => if k = key then empty else a
  | .refused _ | .dropped _ => a

theorem feed_append (a : Accumulated P S) (cs cs' : List (Change P S)) : a.feed (cs ++ cs') = (a.feed cs).feed cs' :=
  List.foldl_append

end Accumulated

/-- The consumer of a book, since the Source ID that the book is revealed under was. -/
def consumer (sent : List (Sending P S)) (key : PriceBookKey) : Accumulated P S :=
  sent.foldl (Accumulated.receive key) .empty

theorem consumer_append (sent : List (Sending P S)) (s : Sending P S) (key : PriceBookKey) :
    consumer (sent ++ [s]) key = (consumer sent key).receive key s := by
  unfold consumer
  rw [List.foldl_append]
  rfl

/-! ## A faithful consumer -/

variable (rd : Render P S) (e : Int × Int)

/-- The price of a level, and the size of one, as they are published. -/
def priceAt (priceRaw : Int) : P := rd.price priceRaw e.1

def sizeAt (l : LevelState) : S := rd.scaledQty l.qtyRaw e.2

/-- A consumer rests the levels of a book. -/
structure Copies (s : Sides) (a : Accumulated P S) : Prop where
  bids : Mirrors (priceAt rd e) (sizeAt rd e) s.bids a.bids
  asks : Mirrors (priceAt rd e) (sizeAt rd e) s.asks a.asks

/-- A consumer that was given a clear of both sides rests the levels of a book. -/
def Faithful (s : Sides) (a : Accumulated P S) : Prop := a.cleared = true → Copies rd e s a

variable {rd e} {a : Accumulated P S} {s : Sides} {b : PriceBook}

theorem feed_deletes (rd : Render P S) (e : Int × Int) (mk : Int → Change P S) (side : BookSide)
    (hmk : ∀ p, mk p = ⟨.delete, side, priceAt rd e p, rd.zeroSize, 0⟩) : ∀ (l : List Int) (a : Accumulated P S),
      a.feed (l.map mk) =
        { a with
          bids := if side = .bid then l.foldl (fun f p => Function.update f (priceAt rd e p) none) a.bids else a.bids
          asks := if side = .ask then l.foldl (fun f p => Function.update f (priceAt rd e p) none) a.asks else a.asks }
  | [], a => by
    cases side <;> rfl
  | p :: l, a => by
    show (a.apply (mk p)).feed (l.map mk) = _
    rw [feed_deletes rd e mk side hmk l, hmk]
    cases side <;> rfl

/-- The level changes of a re-baseline, one side after the other. -/
theorem feed_updates (rd : Render P S) (e : Int × Int) (mk : Int × LevelState → Change P S) (side : BookSide)
    (hmk : ∀ x, mk x = ⟨.update, side, priceAt rd e x.1, sizeAt rd e x.2, 0⟩) :
    ∀ (l : List (Int × LevelState)) (a : Accumulated P S), a.feed (l.map mk) =
      { a with
        bids := if side = .bid then
            l.foldl (fun f x => Function.update f (priceAt rd e x.1) (some (sizeAt rd e x.2))) a.bids
          else a.bids
        asks := if side = .ask then
            l.foldl (fun f x => Function.update f (priceAt rd e x.1) (some (sizeAt rd e x.2))) a.asks
          else a.asks }
  | [], a => by
    cases side <;> rfl
  | x :: l, a => by
    show (a.apply (mk x)).feed (l.map mk) = _
    rw [feed_updates rd e mk side hmk l, hmk]
    cases side <;> rfl

/-- **A re-baseline gives a consumer the whole book.** -/
theorem copies_rebaseline (hprice : Function.Injective (priceAt rd e : Int → P)) (b : PriceBook)
    (a : Accumulated P S) : Copies rd e b.sides (a.feed (Run.rebaselineChanges rd b e.1 e.2)) := by
  have hfeed : a.feed (Run.rebaselineChanges rd b e.1 e.2) =
      { a with
        cleared := true
        bids := b.bids.toList.reverse.foldl
          (fun f x => Function.update f (priceAt rd e x.1) (some (sizeAt rd e x.2))) fun _ => none
        asks := b.asks.toList.foldl
          (fun f x => Function.update f (priceAt rd e x.1) (some (sizeAt rd e x.2))) fun _ => none } := by
    show ((a.apply rd.clearBoth).feed (List.map _ b.bids.toList.reverse ++ List.map _ b.asks.toList)) = _
    rw [Accumulated.feed_append]
    have hbids := feed_updates rd e (fun x => ⟨.update, .bid, rd.price x.1 e.1, rd.scaledQty x.2.qtyRaw e.2, 0⟩) .bid
      (fun _ => rfl) b.bids.toList.reverse (a.apply rd.clearBoth)
    have hasks := feed_updates rd e (fun x => ⟨.update, .ask, rd.price x.1 e.1, rd.scaledQty x.2.qtyRaw e.2, 0⟩) .ask
      (fun _ => rfl) b.asks.toList
    exact (congrArg (Accumulated.feed · _) hbids).trans (hasks _)
  rw [hfeed]
  exact ⟨mirrors_writes hprice fun k v => by rw [List.mem_reverse]; exact FinMap.mem_toList,
    mirrors_writes hprice fun k v => FinMap.mem_toList⟩

/-! ## A delta and what it is published as -/

/-- The prices that a clear of one side drops. -/
def dropped (levels : Levels) (side scope : UInt8) (fromPrice : Int) : List Int :=
  (levels.toList.filter fun x => !survivesClear side scope fromPrice x.1).map Prod.fst

theorem mirrors_clear (hprice : Function.Injective (priceAt rd e : Int → P)) {levels : Levels} {f : P → Option S}
    (h : Mirrors (priceAt rd e) (sizeAt rd e) levels f) (side scope : UInt8) (fromPrice : Int) :
    Mirrors (priceAt rd e) (sizeAt rd e) (levels.filter fun p _ => survivesClear side scope fromPrice p)
      ((dropped levels side scope fromPrice).foldl (fun f p => Function.update f (priceAt rd e p) none) f) := by
  have hmem : ∀ p, p ∈ dropped levels side scope fromPrice ↔
      (∃ l, levels.get p = some l) ∧ survivesClear side scope fromPrice p = false := by
    intro p
    unfold dropped
    rw [List.mem_map]
    constructor
    · rintro ⟨⟨p', l⟩, hx, rfl⟩
      rw [List.mem_filter, FinMap.mem_toList] at hx
      exact ⟨⟨l, hx.1⟩, by simpa using hx.2⟩
    · rintro ⟨⟨l, hl⟩, hgone⟩
      exact ⟨(p, l), List.mem_filter.mpr ⟨FinMap.mem_toList.mpr hl, by simpa using hgone⟩, rfl⟩
  exact h.filter hprice (fun p hp => ⟨fun hgone => (hmem p).mpr ⟨hp, hgone⟩, fun hp' => ((hmem p).mp hp').2⟩)
    fun p hp => ((hmem p).mp hp).1

/-- A clear of a whole side leaves none of its levels. -/
theorem filter_entire (levels : Levels) (side : UInt8) (fromPrice : Int) :
    (levels.filter fun p _ => survivesClear side SCOPE_ENTIRE_SIDE fromPrice p) = ∅ := by
  ext1 p
  rw [FinMap.get_filter]
  unfold survivesClear
  cases levels.get p <;> rfl

/-- The levels that an applied clear reports as dropped. -/
theorem apply_clear_removed (b : PriceBook) (op : DeltaOp) {clearSide scope : UInt8} {fromPrice : Int}
    (hop : op.delta = .clear clearSide scope fromPrice) :
    (b.apply op []).2.1 =
      if clearSide = CLEAR_SIDE_BOTH ∧ scope ≠ SCOPE_ENTIRE_SIDE then []
      else
        (if clearSide = CLEAR_SIDE_BID ∨ clearSide = CLEAR_SIDE_BOTH then
          (dropped b.bids SIDE_BID scope fromPrice).map fun p => (SIDE_BID, p) else []) ++
        if clearSide = CLEAR_SIDE_ASK ∨ clearSide = CLEAR_SIDE_BOTH then
          (dropped b.asks SIDE_ASK scope fromPrice).map fun p => (SIDE_ASK, p) else [] := by
  unfold PriceBook.apply
  rw [hop]
  simp only
  split
  · rfl
  · unfold clearSideLevels dropped
    split <;> split <;> simp [PriceBook.advance, Function.comp_def]

/-- **A clear, and what it is published as.** -/
theorem copies_clear (hprice : Function.Injective (priceAt rd e : Int → P)) {clearSide scope : UInt8} {fromPrice : Int}
    {op : DeltaOp} (hop : op.delta = .clear clearSide scope fromPrice) (d : InstrumentDefinition)
    (hd : (d.priceExponent, d.qtyExponent) = e) (h : Faithful rd e b.sides a) :
    Faithful rd e (b.sides.on op.delta) (a.feed (View.published rd d op.delta (b.apply op []).2.1)) := by
  subst hd
  rw [apply_clear_removed b op hop, hop]
  have hfeed : a.feed [] = a := rfl
  by_cases hboth : clearSide = CLEAR_SIDE_BOTH
  · subst hboth
    by_cases hscope : scope = SCOPE_ENTIRE_SIDE
    · subst hscope
      -- both sides go, whatever they were
      intro _
      refine ⟨?_, ?_⟩
      · show Mirrors _ _ (b.bids.filter fun p _ => survivesClear SIDE_BID SCOPE_ENTIRE_SIDE fromPrice p) fun _ => none
        rw [filter_entire]
        exact mirrors_empty _ _
      · show Mirrors _ _ (b.asks.filter fun p _ => survivesClear SIDE_ASK SCOPE_ENTIRE_SIDE fromPrice p) fun _ => none
        rw [filter_entire]
        exact mirrors_empty _ _
    · -- one price cannot bound both sides
      rw [if_pos ⟨rfl, hscope⟩]
      unfold View.published Sides.on
      simp only
      rw [if_neg hscope, if_pos ⟨trivial, hscope⟩]
      exact h
  · rw [if_neg fun hc => hboth hc.1]
    unfold Sides.on
    simp only [hboth, false_and, or_false, if_false]
    by_cases hscope : scope = SCOPE_ENTIRE_SIDE
    · subst hscope
      unfold View.published
      simp only [if_true, filter_entire]
      unfold Frame.clearBookSide
      by_cases hbid : clearSide = CLEAR_SIDE_BID
      · rw [if_pos hbid, if_pos hbid, if_neg (show ¬ clearSide = CLEAR_SIDE_ASK by rw [hbid]; decide)]
        exact fun hc => ⟨mirrors_empty _ _, (h hc).asks⟩
      · rw [if_neg hbid, if_neg hbid]
        by_cases hask : clearSide = CLEAR_SIDE_ASK
        · rw [if_pos hask, if_pos hask]
          exact fun hc => ⟨(h hc).bids, mirrors_empty _ _⟩
        · rw [if_neg hask, if_neg hask, if_neg hboth]
          exact h
    · unfold View.published
      simp only [if_neg hscope]
      by_cases hbid : clearSide = CLEAR_SIDE_BID
      · rw [if_pos hbid, if_pos hbid, if_neg (show ¬ clearSide = CLEAR_SIDE_ASK by rw [hbid]; decide),
          if_neg (show ¬ clearSide = CLEAR_SIDE_ASK by rw [hbid]; decide), List.append_nil, List.map_map]
        have hdel := feed_deletes rd (d.priceExponent, d.qtyExponent)
          (fun p => ⟨.delete, .bid, rd.price p d.priceExponent, rd.zeroSize, 0⟩) .bid (fun _ => rfl)
          (dropped b.bids SIDE_BID scope fromPrice) a
        intro hc
        have hc' : a.cleared = true := (congrArg Accumulated.cleared hdel).symm.trans hc
        refine Eq.mpr (congrArg (Copies rd _ _) hdel) ⟨?_, (h hc').asks⟩
        exact mirrors_clear hprice (h hc').bids SIDE_BID scope fromPrice
      · rw [if_neg hbid, if_neg hbid]
        by_cases hask : clearSide = CLEAR_SIDE_ASK
        · rw [if_pos hask, if_pos hask, List.nil_append, List.map_map]
          have hdel := feed_deletes rd (d.priceExponent, d.qtyExponent)
            (fun p => ⟨.delete, .ask, rd.price p d.priceExponent, rd.zeroSize, 0⟩) .ask (fun _ => rfl)
            (dropped b.asks SIDE_ASK scope fromPrice) a
          intro hc
          have hc' : a.cleared = true := (congrArg Accumulated.cleared hdel).symm.trans hc
          refine Eq.mpr (congrArg (Copies rd _ _) hdel) ⟨(h hc').bids, ?_⟩
          exact mirrors_clear hprice (h hc').asks SIDE_ASK scope fromPrice
        · rw [if_neg hask, if_neg hask]
          exact h

/-- **A level's quantity, and what it is published as.** -/
theorem copies_level (hprice : Function.Injective (priceAt rd e : Int → P)) {side action flags : UInt8} {price : Int}
    {qty : Nat} {count : Option Nat} (removed : List (UInt8 × Int)) (d : InstrumentDefinition)
    (hd : (d.priceExponent, d.qtyExponent) = e) (h : Faithful rd e s a) :
    Faithful rd e (s.on (.level side price qty count flags action))
      (a.feed (View.published rd d (.level side price qty count flags action) removed)) := by
  subst hd
  have hset : ∀ {levels : Levels} {f : P → Option S}, Mirrors (priceAt rd (d.priceExponent, d.qtyExponent))
      (sizeAt rd (d.priceExponent, d.qtyExponent)) levels f →
      Mirrors (priceAt rd (d.priceExponent, d.qtyExponent)) (sizeAt rd (d.priceExponent, d.qtyExponent))
        (setLevel levels price qty count flags)
        (Function.update f (rd.price price d.priceExponent)
          (if qty = 0 then none else some (rd.scaledQty qty d.qtyExponent))) := by
    intro levels f hm
    unfold setLevel
    split
    · exact hm.erase hprice price
    · exact hm.insert hprice price ⟨qty, count, flags⟩
  unfold View.published Sides.on Frame.bookSide
  simp only
  by_cases hside : side = SIDE_ASK
  · rw [if_pos hside, if_pos hside]
    by_cases hqty : qty = 0
    · rw [if_pos hqty, if_pos hqty]
      intro hc
      have hask := hset (h hc).asks
      rw [if_pos hqty] at hask
      exact ⟨(h hc).bids, hask⟩
    · rw [if_neg hqty, if_neg hqty]
      intro hc
      have hask := hset (h hc).asks
      rw [if_neg hqty] at hask
      exact ⟨(h hc).bids, hask⟩
  · rw [if_neg hside, if_neg hside]
    by_cases hqty : qty = 0
    · rw [if_pos hqty, if_pos hqty]
      intro hc
      have hbid := hset (h hc).bids
      rw [if_pos hqty] at hbid
      exact ⟨hbid, (h hc).asks⟩
    · rw [if_neg hqty, if_neg hqty]
      intro hc
      have hbid := hset (h hc).bids
      rw [if_neg hqty] at hbid
      exact ⟨hbid, (h hc).asks⟩

/-- **A delta that is applied, and what it is published as.** -/
theorem Faithful.applied (hprice : Function.Injective (priceAt rd e : Int → P)) (h : Faithful rd e b.sides a)
    {op : DeltaOp} {x : Option Divergence} (hap : (b.onDelta op).2.2 = .applied x) (d : InstrumentDefinition)
    (hd : (d.priceExponent, d.qtyExponent) = e) :
    Faithful rd e (b.onDelta op).1.sides (a.feed (View.published rd d op.delta (b.onDelta op).2.1)) := by
  have happly : b.onDelta op = b.apply op [] := by
    unfold PriceBook.onDelta at hap ⊢
    split at hap
    · simp only at hap
      split at hap <;> cases hap
    · rename_i hready
      rw [if_neg hready]
      split at hap
      · cases hap
      · rename_i hdup
        rw [if_neg hdup]
        split at hap
        · cases hap
        · rename_i hgap
          rw [if_neg hgap]
  rw [happly] at hap ⊢
  have hsides : (b.apply op []).1.sides = b.sides.on op.delta := by
    rcases apply_cases b op [] with hover | ⟨r, x', happlied⟩
    · rw [hover] at hap
      cases hap
    · rw [happlied]
      rfl
  rw [hsides]
  cases hop : op.delta with
  | level side price qty count flags action => exact copies_level hprice _ d hd h
  | clear clearSide scope fromPrice =>
    rw [← hop]
    exact copies_clear hprice hop d hd h

/-! ## The invariant -/

/-- What the datagram in progress has to publish for a book. -/
def toPublish (chan : ChannelKey) (v : View P S) (key : PriceBookKey) : List (Change P S) :=
  if key.chan = chan then (v.accum.get key.instrumentId).getD [] else []

/-- A `Ready` book has a faithful consumer, once what is to be published is folded in; and so would have a consumer that
started from there. -/
structure Served (rd : Render P S) (e : Int × Int) (chan : ChannelKey) (v : View P S) (key : PriceBookKey)
    (b : PriceBook) : Prop where
  fresh : Faithful rd e b.sides (Accumulated.empty.feed (toPublish chan v key))
  served : (v.revealed.get key).isSome = true → Faithful rd e b.sides ((consumer v.sent key).feed (toPublish chan v key))

/-- The messages of a call are those of an ordered feed: market data off the reference data port, constant exponents, and
no empty snapshot level. -/
structure Regular (exps : IpAddr → Nat → Int × Int) (cx : Ctx P S) (on : Message → Prop) : Prop where
  market : ∀ m, on m → m.isMarket = true → cx.role.handlesRefdata = false
  exponents : ∀ d, on (.instrumentDefinition d) → (d.priceExponent, d.qtyExponent) = exps cx.publisher d.instrumentId
  full : ∀ l, on (.snapshotLevel l) → l.qtyRaw ≠ 0

/-- A group that is installed on a revealed book ends while the instrument's definition is known. -/
def EndDefined (publisher : IpAddr) (channel : Nat) (v : View P S) (e : SnapshotEnd) : Prop :=
  ∀ b, v.books.get ⟨publisher, channel, e.instrumentId⟩ = some b → (b.onSnapshotEnd e.anchorSeq e.snapshotId).2 = true →
    (v.revealed.get ⟨publisher, channel, e.instrumentId⟩).isSome = true →
    (v.defs publisher e.instrumentId).isSome = true

structure Mirrored (rd : Render P S) (exps : IpAddr → Nat → Int × Int) (cx : Ctx P S) (channel : Nat)
    (v : View P S) : Prop where
  exponents : ∀ p i d, v.defs p i = some d → (d.priceExponent, d.qtyExponent) = exps p i
  full : ∀ key b, v.books.get key = some b → AllFull b
  defined : ∀ id, (v.accum.get id).getD [] ≠ [] → (v.defs cx.publisher id).isSome = true
  quiet : cx.role.handlesRefdata = true → v.accum = ∅
  books : ∀ key b, v.books.get key = some b → b.status = .ready →
    Served rd (exps key.publisher key.instrumentId) ⟨cx.publisher, channel⟩ v key b

variable {exps : IpAddr → Nat → Int × Int} {cx : Ctx P S} {channel : Nat} {v v' : View P S} {key k : PriceBookKey}
  {chan : ChannelKey}

theorem Served.congr {b' : PriceBook} (h : Served rd e chan v key b) (hsides : b'.sides = b.sides)
    (hpublish : toPublish chan v' key = toPublish chan v key)
    (hrevealed : (v'.revealed.get key).isSome = true → (v.revealed.get key).isSome = true)
    (hsent : consumer v'.sent key = consumer v.sent key) : Served rd e chan v' key b' := by
  constructor
  · rw [hsides, hpublish]
    exact h.fresh
  · intro hr
    rw [hsides, hpublish, hsent]
    exact h.served (hrevealed hr)

theorem getD_erase {A : Type} (m : FinMap Nat (List A)) (id i : Nat) :
    ((m.erase id).get i).getD [] = if i = id then [] else (m.get i).getD [] := by
  rw [FinMap.get_erase]
  split <;> rfl

/-- A move that makes no book ready, and changes none of what a ready one has sent or has to publish. -/
theorem Mirrored.of_books (h : Mirrored rd exps cx channel v)
    (hready : ∀ key b', v'.books.get key = some b' → b'.status = .ready →
      (∃ b, v.books.get key = some b ∧ b.status = .ready ∧ b'.sides = b.sides) ∧
        toPublish ⟨cx.publisher, channel⟩ v' key = toPublish ⟨cx.publisher, channel⟩ v key)
    (hfull : ∀ key b', v'.books.get key = some b' → AllFull b')
    (hrevealed : ∀ key, (v'.revealed.get key).isSome = true → (v.revealed.get key).isSome = true)
    (hdefs : v'.defs = v.defs) (haccum : v'.accum = v.accum ∨ ∃ id, v'.accum = v.accum.erase id)
    (hsent : ∀ key, consumer v'.sent key = consumer v.sent key) : Mirrored rd exps cx channel v' where
  exponents := by
    rw [hdefs]
    exact h.exponents
  full := hfull
  defined := by
    intro id hid
    rw [hdefs]
    refine h.defined id ?_
    rcases haccum with haccum | ⟨id', haccum⟩
    · rw [haccum] at hid
      exact hid
    · rw [haccum, getD_erase] at hid
      split at hid
      · exact absurd rfl hid
      · exact hid
  quiet := by
    intro hrole
    rcases haccum with haccum | ⟨id', haccum⟩
    · exact haccum.trans (h.quiet hrole)
    · rw [haccum, h.quiet hrole]
      exact FinMap.erase_empty id'
  books := by
    intro key b' hb' hst
    obtain ⟨⟨b, hb, hbst, hsides⟩, hpublish⟩ := hready key b' hb' hst
    exact (h.books key b hb hbst).congr hsides hpublish (hrevealed key) (hsent key)

/-! ## The moves -/

/-- A delta that is not applied leaves a book as it is, or unready. -/
theorem onDelta_unapplied {op : DeltaOp} (h : ∀ x, (b.onDelta op).2.2 ≠ .applied x)
    (hready : (b.onDelta op).1.status = .ready) : b.status = .ready ∧ (b.onDelta op).1.sides = b.sides := by
  unfold PriceBook.onDelta at h hready ⊢
  split at h
  · rename_i hst
    rw [if_pos hst] at hready
    change (b.buffer op).1.status = .ready at hready
    unfold PriceBook.buffer at hready
    split at hready
    · exact absurd hready hst
    · cases hready
  · rename_i hst
    rw [if_neg hst] at hready ⊢
    split at h
    · rename_i hdup
      rw [if_pos hdup]
      exact ⟨not_not.mp hst, rfl⟩
    · rename_i hdup
      rw [if_neg hdup] at hready ⊢
      split at h
      · rename_i hgap
        rw [if_pos hgap] at hready
        cases hready
      · rename_i hgap
        rw [if_neg hgap] at hready
        rcases apply_cases b op [] with hover | ⟨r, x, happlied⟩
        · rw [hover] at hready
          cases hready
        · rw [happlied] at h
          exact absurd rfl (h x)

theorem onDelta_applied {op : DeltaOp} {x : Option Divergence} (h : (b.onDelta op).2.2 = .applied x) :
    b.status = .ready := by
  unfold PriceBook.onDelta at h
  split at h
  · simp only at h
    split at h <;> cases h
  · rename_i hst
    exact not_not.mp hst

omit [DecidableEq P] in
theorem toPublish_self (v : View P S) (p : IpAddr) (c id : Nat) :
    toPublish ⟨p, c⟩ v ⟨p, c, id⟩ = (v.accum.get id).getD [] := if_pos rfl

omit [DecidableEq P] in
theorem toPublish_insert (v : View P S) (key k : PriceBookKey) (cs : List (Change P S)) (hk : k ≠ key)
    (hchan : key.chan = chan) :
    toPublish chan { v with accum := v.accum.insert key.instrumentId cs } k = toPublish chan v k := by
  unfold toPublish
  split
  · rename_i hkc
    have hid : k.instrumentId ≠ key.instrumentId := by
      intro hid
      obtain ⟨p, c, i⟩ := k
      obtain ⟨p', c', i'⟩ := key
      subst hchan
      simp only [PriceBookKey.chan, ChannelKey.mk.injEq] at hkc hid
      exact hk (by rw [hkc.1, hkc.2, hid])
    exact congrArg (Option.getD · []) (FinMap.get_insert_of_ne _ _ hid)
  · rfl

/-- **A delta of a book.** -/
theorem Mirrored.delta (hprice : ∀ p i, Function.Injective (priceAt rd (exps p i) : Int → P))
    (h : Mirrored rd exps cx channel v) (hrole : cx.role.handlesRefdata = false) (id : Nat) (op : DeltaOp) (b : PriceBook)
    (d : InstrumentDefinition) (hb : v.books.get ⟨cx.publisher, channel, id⟩ = some b)
    (hd : v.defs cx.publisher id = some d) :
    Mirrored rd exps cx channel (v.delta rd ⟨cx.publisher, channel, id⟩ op b d) := by
  by_cases happlied : ∃ x, (b.onDelta op).2.2 = .applied x
  · obtain ⟨x, hx⟩ := happlied
    have hview : v.delta rd ⟨cx.publisher, channel, id⟩ op b d =
        { v.setBook ⟨cx.publisher, channel, id⟩ (b.onDelta op).1 with
          accum := v.accum.insert id ((v.accum.get id).getD [] ++
            View.published rd d op.delta (b.onDelta op).2.1) } := by
      unfold View.delta
      rw [hx]
    rw [hview]
    refine ⟨h.exponents, ?_, ?_, fun hr => absurd hr (by rw [hrole]; exact Bool.false_ne_true), ?_⟩
    · intro k b' hb'
      change (v.books.insert _ _).get k = some b' at hb'
      rw [FinMap.get_insert] at hb'
      split at hb'
      · cases hb'
        exact (h.full _ _ hb).onDelta op
      · exact h.full k b' hb'
    · intro i hi
      change ((v.accum.insert id _).get i).getD [] ≠ [] at hi
      by_cases hid : i = id
      · subst hid
        exact Option.isSome_iff_exists.mpr ⟨d, hd⟩
      · rw [FinMap.get_insert_of_ne _ _ hid] at hi
        exact h.defined i hi
    · intro k b' hb' hst
      change (v.books.insert _ _).get k = some b' at hb'
      by_cases hk : k = ⟨cx.publisher, channel, id⟩
      · subst hk
        rw [FinMap.get_insert_self] at hb'
        cases hb'
        have hserved := h.books _ b hb (onDelta_applied hx)
        have hpub : toPublish ⟨cx.publisher, channel⟩ { v.setBook ⟨cx.publisher, channel, id⟩ (b.onDelta op).1 with
            accum := v.accum.insert id ((v.accum.get id).getD [] ++
              View.published rd d op.delta (b.onDelta op).2.1) } ⟨cx.publisher, channel, id⟩ =
            toPublish ⟨cx.publisher, channel⟩ v ⟨cx.publisher, channel, id⟩ ++
              View.published rd d op.delta (b.onDelta op).2.1 := by
          rw [toPublish_self, toPublish_self]
          show ((v.accum.insert id _).get id).getD [] = _
          rw [FinMap.get_insert_self]
          rfl
        refine ⟨?_, fun hr => ?_⟩
        · rw [hpub, Accumulated.feed_append]
          exact hserved.fresh.applied (hprice _ _) hx d (h.exponents _ _ _ hd)
        · rw [hpub, Accumulated.feed_append]
          exact (hserved.served hr).applied (hprice _ _) hx d (h.exponents _ _ _ hd)
      · rw [FinMap.get_insert_of_ne _ _ hk] at hb'
        exact (h.books k b' hb' hst).congr rfl (toPublish_insert _ _ k _ hk rfl) (fun hr => hr) rfl
  · have hnot : ∀ x, (b.onDelta op).2.2 ≠ .applied x := fun x hx => happlied ⟨x, hx⟩
    have hview : v.delta rd ⟨cx.publisher, channel, id⟩ op b d =
        v.setBook ⟨cx.publisher, channel, id⟩ (b.onDelta op).1 := by
      unfold View.delta
      split
      · rename_i x hx
        exact absurd hx (hnot x)
      · rfl
    rw [hview]
    refine h.of_books (fun k b' hb' hst => ⟨?_, rfl⟩) (fun k b' hb' => ?_) (fun _ hr => hr) rfl (.inl rfl) fun _ => rfl
    · change (v.books.insert _ _).get k = some b' at hb'
      rw [FinMap.get_insert] at hb'
      split at hb'
      · rename_i hk
        subst hk
        cases hb'
        exact ⟨b, hb, onDelta_unapplied hnot hst⟩
      · exact ⟨b', hb', hst, rfl⟩
    · change (v.books.insert _ _).get k = some b' at hb'
      rw [FinMap.get_insert] at hb'
      split at hb'
      · cases hb'
        exact (h.full _ _ hb).onDelta op
      · exact h.full k b' hb'

/-- **A new Source ID**: its consumer starts with what the datagram has to publish. -/
theorem Mirrored.reveal (h : Mirrored rd exps cx channel v) (key : PriceBookKey) (sourceId : Nat) (now : Bool) :
    Mirrored rd exps cx channel (v.reveal key sourceId now) where
  exponents := h.exponents
  full := h.full
  defined := h.defined
  quiet := h.quiet
  books := by
    intro k b hb hst
    have hserved := h.books k b hb hst
    have hsent : consumer (v.reveal key sourceId now).sent k =
        if key = k then .empty else consumer v.sent k := consumer_append _ _ _
    by_cases hk : key = k
    · rw [if_pos hk] at hsent
      refine ⟨hserved.fresh, fun _ => ?_⟩
      rw [hsent]
      exact hserved.fresh
    · rw [if_neg hk] at hsent
      refine hserved.congr rfl rfl (fun hr => ?_) hsent
      change ((v.revealed.insert key sourceId).get k).isSome = true at hr
      rw [FinMap.get_insert_of_ne _ _ (Ne.symm hk)] at hr
      exact hr

/-- A book that is replaced by one that is not ready, or that is what it was. -/
theorem Mirrored.setBook (h : Mirrored rd exps cx channel v) (key : PriceBookKey) {b' : PriceBook}
    (hready : b'.status = .ready → ∃ b, v.books.get key = some b ∧ b.status = .ready ∧ b'.sides = b.sides)
    (hfull : AllFull b') : Mirrored rd exps cx channel (v.setBook key b') := by
  refine h.of_books (fun k b₁ hb₁ hst => ⟨?_, rfl⟩) (fun k b₁ hb₁ => ?_) (fun _ hr => hr) rfl (.inl rfl) fun _ => rfl
  · change (v.books.insert key b').get k = some b₁ at hb₁
    rw [FinMap.get_insert] at hb₁
    split at hb₁
    · rename_i hk
      subst hk
      cases hb₁
      exact hready hst
    · exact ⟨b₁, hb₁, hst, rfl⟩
  · change (v.books.insert key b').get k = some b₁ at hb₁
    rw [FinMap.get_insert] at hb₁
    split at hb₁
    · cases hb₁
      exact hfull
    · exact h.full k b₁ hb₁

/-- A move that leaves the books and what is to be published, and sends no batch. -/
theorem Mirrored.of_same (h : Mirrored rd exps cx channel v) (hbooks : v'.books = v.books)
    (hrevealed : ∀ key, (v'.revealed.get key).isSome = true → (v.revealed.get key).isSome = true)
    (hdefs : v'.defs = v.defs) (haccum : v'.accum = v.accum)
    (hsent : ∀ key, consumer v'.sent key = consumer v.sent key) : Mirrored rd exps cx channel v' := by
  refine h.of_books (fun k b hb hst => ⟨⟨b, ?_, hst, rfl⟩, ?_⟩) (fun k b hb => h.full k b ?_) hrevealed hdefs
    (.inl haccum) hsent
  · rw [← hbooks]
    exact hb
  · unfold toPublish
    rw [haccum]
  · rw [← hbooks]
    exact hb

/-- What a book that is not ready has to publish is dropped. -/
theorem Mirrored.eraseAccum (h : Mirrored rd exps cx channel v) (id : Nat)
    (hnot : ∀ b, v.books.get ⟨cx.publisher, channel, id⟩ = some b → b.status ≠ .ready) :
    Mirrored rd exps cx channel { v with accum := v.accum.erase id } := by
  refine h.of_books (fun k b hb hst => ⟨⟨b, hb, hst, rfl⟩, ?_⟩) h.full (fun _ hr => hr) rfl (.inr ⟨id, rfl⟩) fun _ => rfl
  unfold toPublish
  split
  · rename_i hchan
    have hid : k.instrumentId ≠ id := by
      rintro rfl
      obtain ⟨p, c, i⟩ := k
      simp only [PriceBookKey.chan, ChannelKey.mk.injEq] at hchan
      obtain ⟨rfl, rfl⟩ := hchan
      exact hnot b hb hst
    exact (getD_erase _ _ _).trans (if_neg hid)
  · rfl

omit [DecidableEq P] in
/-- A batch goes out for a book that is `Ready`, revealed and defined, and for no other. -/
theorem send_spec (v : View P S) (key : PriceBookKey) (changes : List (Change P S)) (last : Bool) :
    (∃ sourceId, v.send key changes last = (v.emit (.book key sourceId changes last), true)) ∨
      v.send key changes last = (v, false) ∧ ∀ b, v.books.get key = some b → b.status = .ready →
        (v.revealed.get key).isSome = true → (v.defs key.publisher key.instrumentId).isSome = false := by
  unfold View.send
  cases hr : v.revealed.get key with
  | none => exact .inr ⟨rfl, fun _ _ _ h => by cases h⟩
  | some sourceId =>
    cases hb : v.books.get key with
    | none => exact .inr ⟨rfl, fun _ h => by cases h⟩
    | some b =>
      cases hd : v.defs key.publisher key.instrumentId with
      | none => exact .inr ⟨rfl, fun _ _ _ _ => rfl⟩
      | some d =>
        simp only
        split
        · exact .inl ⟨sourceId, rfl⟩
        · rename_i hst
          refine .inr ⟨rfl, fun b' hb' hst' => ?_⟩
          cases hb'
          exact absurd hst' hst

omit [DecidableEq P] in
/-- The whole book goes out for a book that is `Ready`, revealed and defined, and for no other. -/
theorem rebaseline_spec (rd : Render P S) (v : View P S) (key : PriceBookKey) :
    (∃ sourceId b d, v.books.get key = some b ∧ v.defs key.publisher key.instrumentId = some d ∧
        v.rebaseline rd key = (v.emit (.book key sourceId
          (Run.rebaselineChanges rd b d.priceExponent d.qtyExponent) true), true)) ∨
      v.rebaseline rd key = (v, false) ∧ ∀ b, v.books.get key = some b → b.status = .ready →
        (v.revealed.get key).isSome = true → (v.defs key.publisher key.instrumentId).isSome = false := by
  unfold View.rebaseline
  cases hb : v.books.get key with
  | none => exact .inr ⟨rfl, fun _ h => by cases h⟩
  | some b =>
    cases hd : v.defs key.publisher key.instrumentId with
    | none => exact .inr ⟨rfl, fun _ _ _ _ => rfl⟩
    | some d =>
      rcases send_spec v key (Run.rebaselineChanges rd b d.priceExponent d.qtyExponent) true with
        ⟨sourceId, hsend⟩ | ⟨hsend, hnot⟩
      · exact .inl ⟨sourceId, b, d, rfl, rfl, hsend⟩
      · refine .inr ⟨hsend, fun b' hb' hst hr => ?_⟩
        have hdefs := hnot b' (hb.trans hb') hst hr
        rw [hd] at hdefs
        exact hdefs

omit [DecidableEq P] in
theorem toPublish_erase (v : View P S) (p : IpAddr) (c id : Nat) (hk : k ≠ ⟨p, c, id⟩)
    (haccum : v'.accum = v.accum.erase id) : toPublish ⟨p, c⟩ v' k = toPublish ⟨p, c⟩ v k := by
  unfold toPublish
  split
  · rename_i hchan
    have hid : k.instrumentId ≠ id := by
      rintro rfl
      obtain ⟨p', c', i⟩ := k
      simp only [PriceBookKey.chan, ChannelKey.mk.injEq] at hchan
      obtain ⟨rfl, rfl⟩ := hchan
      exact hk rfl
    rw [haccum]
    exact (getD_erase _ _ _).trans (if_neg hid)
  · rfl

/-- **What a book has to publish is settled**: its consumer is faithful without it. -/
theorem Mirrored.settle (h : Mirrored rd exps cx channel v) (id : Nat)
    (hbooks : ∀ k, k ≠ ⟨cx.publisher, channel, id⟩ → v'.books.get k = v.books.get k)
    (hfull : ∀ b, v'.books.get ⟨cx.publisher, channel, id⟩ = some b → AllFull b)
    (hrevealed : v'.revealed = v.revealed) (hdefs : v'.defs = v.defs) (haccum : v'.accum = v.accum.erase id)
    (hother : ∀ k, k ≠ ⟨cx.publisher, channel, id⟩ → consumer v'.sent k = consumer v.sent k)
    (hself : ∀ b, v'.books.get ⟨cx.publisher, channel, id⟩ = some b → b.status = .ready →
      (v.revealed.get ⟨cx.publisher, channel, id⟩).isSome = true → Faithful rd (exps cx.publisher id) b.sides
        (consumer v'.sent ⟨cx.publisher, channel, id⟩)) : Mirrored rd exps cx channel v' where
  exponents := by
    rw [hdefs]
    exact h.exponents
  full := by
    intro k b hb
    by_cases hk : k = ⟨cx.publisher, channel, id⟩
    · subst hk
      exact hfull b hb
    · exact h.full k b ((hbooks k hk).symm.trans hb)
  defined := by
    intro i hi
    rw [hdefs]
    rw [haccum, getD_erase] at hi
    split at hi
    · exact absurd rfl hi
    · exact h.defined i hi
  quiet := by
    intro hrole
    rw [haccum, h.quiet hrole]
    exact FinMap.erase_empty id
  books := by
    intro k b hb hst
    by_cases hk : k = ⟨cx.publisher, channel, id⟩
    · subst hk
      have hpub : toPublish ⟨cx.publisher, channel⟩ v' ⟨cx.publisher, channel, id⟩ = [] := by
        rw [toPublish_self, haccum]
        exact (getD_erase _ _ _).trans (if_pos rfl)
      refine ⟨?_, fun hr => ?_⟩
      · rw [hpub]
        nofun
      · rw [hpub]
        rw [hrevealed] at hr
        exact hself b hb hst hr
    · refine (h.books k b ((hbooks k hk).symm.trans hb) hst).congr rfl (toPublish_erase v _ _ _ hk haccum) ?_
        (hother k hk)
      rw [hrevealed]
      exact fun hr => hr

/-- **A batch of a book**, the whole book or what it has to publish. -/
theorem Mirrored.batch (hprice : ∀ p i, Function.Injective (priceAt rd (exps p i) : Int → P))
    (h : Mirrored rd exps cx channel v) (id : Nat) (whole : Prop) [Decidable whole] (last : Bool) :
    Mirrored rd exps cx channel
      ((v.take id).batch rd ⟨cx.publisher, channel, id⟩ whole ((v.accum.get id).getD []) last).1 := by
  have hsame : ∀ b, v.books.get ⟨cx.publisher, channel, id⟩ = some b → b.status = .ready →
      (v.revealed.get ⟨cx.publisher, channel, id⟩).isSome = true → Faithful rd (exps cx.publisher id) b.sides
        ((consumer v.sent ⟨cx.publisher, channel, id⟩).feed ((v.accum.get id).getD [])) := by
    intro b hb hst hr
    have hserved := (h.books _ b hb hst).served hr
    rw [toPublish_self] at hserved
    exact hserved
  -- a batch is refused to a book with something to publish only where there is nothing to mirror
  have hrefused : (∀ b, v.books.get ⟨cx.publisher, channel, id⟩ = some b → b.status = .ready →
      (v.revealed.get ⟨cx.publisher, channel, id⟩).isSome = true → (v.defs cx.publisher id).isSome = false) →
      Mirrored rd exps cx channel (v.take id) := by
    intro hnot
    refine h.settle id (fun _ _ => rfl) (fun b hb => h.full _ b hb) rfl rfl rfl (fun _ _ => rfl) fun b hb hst hr => ?_
    have hnone : (v.accum.get id).getD [] = [] := by
      by_contra hne
      exact Bool.false_ne_true ((hnot b hb hst hr).symm.trans (h.defined id hne))
    have hserved := hsame b hb hst hr
    rw [hnone] at hserved
    exact hserved
  have hsent : ∀ (sourceId : Nat) (changes : List (Change P S)) (last : Bool),
      (∀ b, v.books.get ⟨cx.publisher, channel, id⟩ = some b → b.status = .ready →
        (v.revealed.get ⟨cx.publisher, channel, id⟩).isSome = true → Faithful rd (exps cx.publisher id) b.sides
          ((consumer v.sent ⟨cx.publisher, channel, id⟩).feed changes)) →
      Mirrored rd exps cx channel
        ((v.take id).emit (.book ⟨cx.publisher, channel, id⟩ sourceId changes last)) := by
    intro sourceId changes last hfaithful
    refine h.settle id (fun _ _ => rfl) (fun b hb => h.full _ b hb) rfl rfl rfl (fun k hk => ?_) fun b hb hst hr => ?_
    · exact (consumer_append _ _ _).trans (if_neg (Ne.symm hk))
    · have hafter : consumer (v.sent ++ [.book ⟨cx.publisher, channel, id⟩ sourceId changes last])
          ⟨cx.publisher, channel, id⟩ = (consumer v.sent ⟨cx.publisher, channel, id⟩).feed changes :=
        (consumer_append _ _ _).trans (if_pos rfl)
      show Faithful rd _ _ (consumer (v.sent ++ [_]) _)
      rw [hafter]
      exact hfaithful b hb hst hr
  unfold View.batch
  split
  · rcases rebaseline_spec rd (v.take id) ⟨cx.publisher, channel, id⟩ with ⟨sourceId, b, d, hb, hd, hsend⟩ | ⟨hsend, hnot⟩
    · rw [hsend]
      refine hsent sourceId _ true fun b' hb' _ _ => fun _ => ?_
      have hbb : b' = b := Option.some.inj (hb'.symm.trans hb)
      have he := h.exponents _ _ d hd
      rw [hbb, ← he]
      exact copies_rebaseline (he ▸ hprice _ _) b _
    · rw [hsend]
      exact hrefused hnot
  · rcases send_spec (v.take id) ⟨cx.publisher, channel, id⟩ ((v.accum.get id).getD []) last with
      ⟨sourceId, hsend⟩ | ⟨hsend, hnot⟩
    · rw [hsend]
      exact hsent sourceId _ last hsame
    · rw [hsend]
      exact hrefused hnot

/-- A begin leaves a ready book as it is, or unready. -/
theorem onSnapshotBegin_ready {id anchor total last depth now : Nat}
    (hready : (b.onSnapshotBegin id anchor total last depth now).1.status = .ready) :
    b.status = .ready ∧ (b.onSnapshotBegin id anchor total last depth now).1.sides = b.sides := by
  have hbegun := onSnapshotBegin_begun b id anchor total last depth now
  generalize b.onSnapshotBegin id anchor total last depth now = r at hbegun hready ⊢
  cases hbegun with
  | refused | bounded | repeats => exact ⟨hready, rfl⟩
  | agrees | strikes => exact ⟨hready, rfl⟩
  | resyncs => cases hready
  | opens => cases hready

/-- **A group that ends.** -/
theorem Mirrored.snapshotEnd (hprice : ∀ p i, Function.Injective (priceAt rd (exps p i) : Int → P))
    (h : Mirrored rd exps cx channel v) (e : SnapshotEnd) (b : PriceBook)
    (hb : v.books.get ⟨cx.publisher, channel, e.instrumentId⟩ = some b) (hok : EndDefined cx.publisher channel v e) :
    Mirrored rd exps cx channel (v.snapshotEnd rd ⟨cx.publisher, channel, e.instrumentId⟩ e b) := by
  have hfull := (h.full _ b hb).onSnapshotEnd e.anchorSeq e.snapshotId
  unfold View.snapshotEnd
  simp only
  by_cases hinstalls : (b.onSnapshotEnd e.anchorSeq e.snapshotId).2 = true
  · rw [if_pos hinstalls]
    generalize hv₁ : ({ ((v.unroute _).setBook _ _) with accum := _, revealedNow := _ } : View P S) = v₁
    have hbooks : v₁.books = v.books.insert ⟨cx.publisher, channel, e.instrumentId⟩
        (b.onSnapshotEnd e.anchorSeq e.snapshotId).1 := by
      rw [← hv₁]
      rfl
    have hself : v₁.books.get ⟨cx.publisher, channel, e.instrumentId⟩ =
        some (b.onSnapshotEnd e.anchorSeq e.snapshotId).1 := by
      rw [hbooks]
      exact FinMap.get_insert_self _ _ _
    have hothers : ∀ k, k ≠ ⟨cx.publisher, channel, e.instrumentId⟩ → v₁.books.get k = v.books.get k := by
      intro k hk
      rw [hbooks]
      exact FinMap.get_insert_of_ne _ _ hk
    have hfull₁ : ∀ b', v₁.books.get ⟨cx.publisher, channel, e.instrumentId⟩ = some b' → AllFull b' := by
      intro b' hb'
      rw [hself] at hb'
      cases hb'
      exact hfull
    have hrest : v₁.revealed = v.revealed ∧ v₁.defs = v.defs ∧ v₁.accum = v.accum.erase e.instrumentId ∧
        v₁.sent = v.sent := by
      rw [← hv₁]
      exact ⟨rfl, rfl, rfl, rfl⟩
    obtain ⟨hrevealed, hdefs, haccum, hsent⟩ := hrest
    rcases rebaseline_spec rd v₁ ⟨cx.publisher, channel, e.instrumentId⟩ with
      ⟨sourceId, b', d, hb', hd, hsend⟩ | ⟨hsend, hnot⟩
    · -- the install is published whole
      rw [hsend]
      have he := h.exponents _ _ d (hdefs ▸ hd)
      refine h.settle e.instrumentId hothers hfull₁ hrevealed hdefs haccum (fun k hk => ?_) fun b'' hb'' _ _ _ => ?_
      · show consumer (v₁.sent ++ [_]) k = _
        rw [hsent]
        exact (consumer_append _ _ _).trans (if_neg (Ne.symm hk))
      · have hbb : b'' = b' := Option.some.inj (hb''.symm.trans hb')
        show Copies rd _ _ (consumer (v₁.sent ++ [_]) _)
        rw [consumer_append]
        show Copies rd _ _ (if _ then _ else _)
        rw [if_pos rfl, hbb, ← he]
        exact copies_rebaseline (he ▸ hprice _ _) b' _
    · -- a group that cannot be published is installed on no revealed book
      rw [hsend]
      refine h.settle e.instrumentId hothers hfull₁ hrevealed hdefs haccum (fun k _ => congrArg (consumer · k) hsent) ?_
      intro b' hb' hst hr
      have hnone := hnot b' hb' hst (hrevealed.symm ▸ hr)
      rw [hdefs] at hnone
      exact absurd (hok b hb hinstalls hr) (by rw [hnone]; exact Bool.false_ne_true)
  · rw [if_neg hinstalls]
    have hroute : Mirrored rd exps cx channel (v.unroute ⟨cx.publisher, channel⟩) :=
      h.of_same rfl (fun _ hr => hr) rfl rfl fun _ => rfl
    refine hroute.setBook _ (fun hready => ⟨b, hb, ?_⟩) hfull
    unfold PriceBook.onSnapshotEnd at hready hinstalls ⊢
    split at hready
    · exact ⟨hready, rfl⟩
    · rename_i g hopen
      split at hready
      · cases hready
      · rename_i hmatch
        simp only [hopen] at hinstalls
        rw [if_neg hmatch] at hinstalls
        exact absurd rfl hinstalls

/-- An instrument with nothing to publish is passed by. -/
theorem Mirrored.idle (h : Mirrored rd exps cx channel v) (id : Nat) (hnone : (v.accum.get id).getD [] = []) :
    Mirrored rd exps cx channel (v.take id) := by
  refine h.settle id (fun _ _ => rfl) (fun b hb => h.full _ b hb) rfl rfl rfl (fun _ _ => rfl) fun b hb hst hr => ?_
  have hserved := (h.books _ b hb hst).served hr
  rw [toPublish_self, hnone] at hserved
  exact hserved

theorem onSnapshotLevel_same (b : PriceBook) (id : Nat) (side : UInt8) (price : Int) (qty : Nat) (count : Option Nat)
    (flags : UInt8) : (b.onSnapshotLevel id side price qty count flags).status = b.status ∧
      (b.onSnapshotLevel id side price qty count flags).sides = b.sides := by
  unfold PriceBook.onSnapshotLevel
  split
  · exact ⟨rfl, rfl⟩
  · split
    · exact ⟨rfl, rfl⟩
    · exact ⟨rfl, rfl⟩

/-- **Every move keeps the consumers faithful.** -/
theorem Mirrored.move {on : Message → Prop} {ok : View P S → SnapshotEnd → Prop}
    (hprice : ∀ p i, Function.Injective (priceAt rd (exps p i) : Int → P)) (hregular : Regular exps cx on)
    (hends : ∀ v e, on (.snapshotEnd e) → ok v e → EndDefined cx.publisher channel v e)
    (h : Mirrored rd exps cx channel v) (hm : Move rd cx channel on ok v v') : Mirrored rd exps cx channel v' := by
  cases hm with
  | forget key =>
    refine h.of_books (fun k b hb hst => ⟨⟨b, ?_, hst, rfl⟩, rfl⟩) (fun k b hb => h.full k b ?_) (fun k hr => ?_) rfl
      (.inl rfl) fun _ => rfl
    · change (v.books.erase key).get k = some b at hb
      rw [FinMap.get_erase] at hb
      split at hb
      · cases hb
      · exact hb
    · change (v.books.erase key).get k = some b at hb
      rw [FinMap.get_erase] at hb
      split at hb
      · cases hb
      · exact hb
    · change ((v.revealed.erase key).get k).isSome = true at hr
      rw [FinMap.get_erase] at hr
      split at hr
      · cases hr
      · exact hr
  | purge publisher _ =>
    refine h.of_same rfl (fun k hr => ?_) rfl rfl fun _ => rfl
    change ((v.revealed.filter _).get k).isSome = true at hr
    rw [FinMap.get_filter] at hr
    cases hk : v.revealed.get k with
    | none =>
      rw [hk] at hr
      cases hr
    | some id => rfl
  | fresh id _ _ => exact h.setBook _ nofun ⟨full_empty, full_empty, nofun⟩
  | delta m hon hmarket id op b d hb hd => exact h.delta hprice (hregular.market m hon hmarket) id op b d hb hd
  | reveal m _ _ id sourceId _ _ => exact h.reveal _ sourceId true
  | revealDefined d _ _ sourceId _ _ _ => exact h.reveal _ sourceId false
  | undefine defs hdefs hwhen =>
    have haccum : v.accum = ∅ := hwhen.elim And.left h.quiet
    refine ⟨fun p i d hd => h.exponents p i d (hdefs p i d hd), h.full, fun i hi => ?_, h.quiet,
      fun k b hb hst => (h.books k b hb hst).congr rfl rfl (fun hr => hr) rfl⟩
    change (v.accum.get i).getD [] ≠ [] at hi
    rw [haccum] at hi
    exact absurd rfl hi
  | define d hon hrole defs hdefs =>
    refine ⟨fun p i d' hd' => ?_, h.full, fun i hi => ?_, h.quiet,
      fun k b hb hst => (h.books k b hb hst).congr rfl rfl (fun hr => hr) rfl⟩
    · rcases hdefs p i d' hd' with hd' | ⟨rfl, rfl, rfl⟩
      · exact h.exponents p i d' hd'
      · exact hregular.exponents _ hon
    · change (v.accum.get i).getD [] ≠ [] at hi
      rw [h.quiet hrole] at hi
      exact absurd rfl hi
  | snapshotBegin s _ b hb =>
    have hset := h.setBook ⟨cx.publisher, channel, s.instrumentId⟩
      (fun hready => ⟨b, hb, onSnapshotBegin_ready hready⟩)
      ((h.full _ b hb).onSnapshotBegin s.snapshotId s.anchorSeq s.totalLevels s.lastInstrumentSeq s.depthBound
        cx.recvTsNs)
    exact hset.of_same rfl (fun _ hr => hr) rfl rfl fun _ => rfl
  | snapshotLevel l hon g b _ _ _ hb =>
    obtain ⟨hstatus, hsides⟩ := onSnapshotLevel_same b l.snapshotId l.side l.priceRaw l.qtyRaw l.orderCount l.levelFlags
    exact h.setBook _ (fun hready => ⟨b, hb, hstatus ▸ hready, hsides⟩)
      ((h.full _ b hb).onSnapshotLevel _ _ _ _ _ _ fun hempty => hregular.full l hon hempty.1)
  | unroute chan => exact h.of_same rfl (fun _ hr => hr) rfl rfl fun _ => rfl
  | snapshotEnd e hon g b _ _ _ hb hok => exact h.snapshotEnd hprice e b hb (hends v e hon hok)
  | instrumentReset id newAnchorSeq _ b hb =>
    have hnot : (b.onInstrumentReset newAnchorSeq).status ≠ .ready := by
      unfold PriceBook.onInstrumentReset
      simp only
      split <;> nofun
    have hset := (h.setBook ⟨cx.publisher, channel, id⟩ (fun hready => absurd hready hnot)
      ((h.full _ b hb).onInstrumentReset newAnchorSeq)).eraseAccum id fun b' hb' => by
        rw [Option.some.inj (hb'.symm.trans (FinMap.get_insert_self _ _ _))]
        exact hnot
    refine hset.of_same rfl (fun k hr => ?_) rfl rfl fun _ => rfl
    change ((v.revealed.erase _).get k).isSome = true at hr
    rw [FinMap.get_erase] at hr
    split at hr
    · cases hr
    · exact hr
  | endSession id b hb =>
    have hset : Mirrored rd exps cx channel (v.setBook ⟨cx.publisher, channel, id⟩ b.onEndOfSession) :=
      h.setBook _ nofun ⟨full_empty, full_empty, nofun⟩
    exact hset.eraseAccum id fun b' hb' => by
      rw [Option.some.inj (hb'.symm.trans (FinMap.get_insert_self _ _ _))]
      nofun
  | dropBuffer key b hb => exact h.setBook _ nofun ⟨(h.full _ b hb).bids, (h.full _ b hb).asks, (h.full _ b hb).group⟩
  | dropLane chan => exact h.of_same rfl (fun _ hr => hr) rfl rfl fun k => consumer_append _ _ k
  | openLane => exact h.of_same rfl (fun _ hr => hr) rfl rfl fun _ => rfl
  | close id owed hlane =>
    unfold View.close
    simp only
    split
    · rename_i hnone
      exact (h.idle id hnone.1).of_same rfl (fun _ hr => hr) rfl rfl fun _ => rfl
    · have hbatch := h.batch hprice id (id ∈ v.revealedNow ∨ owed = true) true
      split
      · exact hbatch.of_same rfl (fun _ hr => hr) rfl rfl fun _ => rfl
      · exact hbatch.of_same rfl (fun _ hr => hr) rfl rfl fun k => consumer_append _ _ k
  | publish id closes owed hlane =>
    unfold View.publish
    simp only
    split
    · have hbatch := h.batch hprice id (id ∈ v.revealedNow ∨ ((v.accum.get id).getD [] ≠ [] ∧ owed = true)) closes
      split
      · exact hbatch.of_same rfl (fun _ hr => hr) rfl rfl fun _ => rfl
      · exact hbatch
    · rename_i hnone
      exact h.idle id (not_not.mp fun hne => hnone (.inr hne))

/-! ## Runs -/

/-- Between two calls nothing is left to publish, and every consumer is faithful. -/
structure AtRest (rd : Render P S) (exps : IpAddr → Nat → Int × Int) (v : View P S) : Prop where
  accum : v.accum = ∅
  mirrored : ∀ cx channel, Mirrored rd exps cx channel v

theorem Mirrored.atRest (h : Mirrored rd exps cx channel v) (haccum : v.accum = ∅) : AtRest rd exps v where
  accum := haccum
  mirrored cx' channel' := by
    have hnone : ∀ chan key, toPublish chan v key = [] := by
      intro chan key
      unfold toPublish
      rw [haccum]
      split <;> rfl
    refine ⟨h.exponents, h.full, fun id hid => ?_, fun _ => haccum, fun key b hb hst => ?_⟩
    · rw [haccum] at hid
      exact absurd rfl hid
    · have hserved := h.books key b hb hst
      refine ⟨?_, fun hr => ?_⟩
      · rw [hnone]
        nofun
      · have := hserved.served hr
        rw [hnone] at this ⊢
        exact this

omit [DecidableEq P] in
/-- A move on no message adds nothing to publish. -/
theorem accum_of_never {ok : View P S → SnapshotEnd → Prop} (hm : Move rd cx channel (fun _ => False) ok v v')
    (h : v.accum = ∅) : v'.accum = ∅ := by
  have herase : ∀ id, (v.take id).accum = ∅ := by
    intro id
    show v.accum.erase id = ∅
    rw [h]
    exact FinMap.erase_empty id
  have hbatch : ∀ (id : Nat) (whole : Prop) [Decidable whole] (last : Bool),
      ((v.take id).batch rd ⟨cx.publisher, channel, id⟩ whole ((v.accum.get id).getD []) last).1.accum = ∅ := by
    intro id whole _ last
    rcases View.batch_cases rd (v.take id) ⟨cx.publisher, channel, id⟩ whole ((v.accum.get id).getD []) last
      with hb | ⟨src, sent, hb⟩
    · rw [hb]
      exact herase id
    · rw [hb]
      exact herase id
  cases hm with
  | delta m hon | reveal m hon | revealDefined d hon | define d hon | snapshotBegin s hon | snapshotLevel l hon
  | snapshotEnd e hon | instrumentReset id newAnchorSeq hon => exact hon.elim
  | endSession id b _ => exact herase id
  | close id owed _ =>
    unfold View.close
    simp only
    split
    · exact herase id
    · split
      · exact hbatch id _ true
      · exact hbatch id _ true
  | publish id closes owed _ =>
    unfold View.publish
    simp only
    split
    · split
      · exact hbatch id _ closes
      · exact hbatch id _ closes
    · exact herase id
  | _ => exact h

/-- A call of an ordered feed, every group of which that is installed on a revealed book ends while its instrument is
defined. -/
def Input.Ordered (rd : Render P S) (exps : IpAddr → Nat → Int × Int) (p : MbpProcessor) : Input P S → Prop
  | .datagram cx d => Regular exps cx (fun m => m ∈ d.messages) ∧
      EndsOk (EndDefined cx.publisher d.header.channelId) rd cx d.header (begin rd cx d.header p).2 []
        (begin rd cx d.header p).1 d.messages
  | .tick _ _ => True

omit [DecidableEq P] in
/-- Whether a group ends in time does not depend on what was sent. -/
theorem endsOk_past {h : Header} {fresh : Bool} {publisher : IpAddr} (past : List (Sending P S)) :
    ∀ (ms : List Message) (f : Frame P S), EndsOk (EndDefined publisher channel) rd cx h fresh [] f ms →
      EndsOk (EndDefined publisher channel) rd cx h fresh past f ms
  | [], _, _ => trivial
  | _ :: ms, _, hok => ⟨hok.1, endsOk_past past ms _ hok.2⟩

/-- **A call keeps the consumers faithful.** -/
theorem AtRest.call (hprice : ∀ p i, Function.Injective (priceAt rd (exps p i) : Int → P)) {past : List (Sending P S)}
    {p : MbpProcessor} (h : AtRest rd exps (p.view past)) (i : Input P S) (hok : i.Ordered rd exps p) :
    AtRest rd exps ((stepWith rd p i).1.view (past ++ (stepWith rd p i).2.filterMap Out.sent)) := by
  cases i with
  | datagram cx d =>
    have hrun : Mirrored rd exps cx d.header.channelId _ :=
      Steps.rule (fun _ _ hm hv => hv.move hprice hok.1 (fun _ _ _ hends => hends) hm)
        (onDatagram_steps past p d (endsOk_past past d.messages _ hok.2)) (h.mirrored cx d.header.channelId)
    exact hrun.atRest rfl
  | tick cx order =>
    refine onTick_rule (fun _ _ => True) (fun publisher channel v v' hm hv => ?_) past order p h
    have hmoved : Mirrored rd exps (cx.ofTick publisher) channel v' :=
      (hv.mirrored (cx.ofTick publisher) channel).move hprice ⟨fun _ hm => hm.elim, fun _ hm => hm.elim,
        fun _ hm => hm.elim⟩ (fun _ _ hon => hon.elim) hm
    exact hmoved.atRest (accum_of_never hm hv.accum)

theorem AtRest.run (hprice : ∀ p i, Function.Injective (priceAt rd (exps p i) : Int → P)) (is : List (Input P S))
    (hok : (processor rd).Along (Input.Ordered rd exps) .new is) :
    AtRest rd exps ((after rd is).view (sentBy rd is)) := by
  induction is using List.reverseRecOn with
  | nil =>
    have hnew : Mirrored rd exps (⟨"", 0, 0, .mktdata, 0, none, 0, false, [], fun _ _ => false⟩ : Ctx P S) 0
        ((MbpProcessor.new).view []) :=
      ⟨(fun _ _ _ hd => by cases hd), (fun _ _ hb => by cases hb), (fun _ hid => absurd rfl hid), (fun _ => rfl),
        (fun _ _ hb => by cases hb)⟩
    exact hnew.atRest rfl
  | append_singleton is i ih =>
    rw [Machine.along_append] at hok
    rw [after_append, sentBy_append]
    exact (ih hok.1).call hprice i hok.2.1

/-- The levels of a side that rest something. -/
def quoted (levels : Levels) : Levels := levels.filter fun _ l => decide (l.qtyRaw ≠ 0)

theorem quoted_of_full {levels : Levels} (h : Full levels) : quoted levels = levels := by
  ext1 price
  unfold quoted
  rw [FinMap.get_filter]
  cases hl : levels.get price with
  | none => rfl
  | some l => exact if_pos (decide_eq_true (h price l hl))

/-- **A served book is mirrored.**  In every run of an ordered feed, every group of which that is installed on a revealed
book ends while its instrument is defined, a consumer of a `Ready` and revealed book that has folded in a clear of both
sides rests exactly the levels of the book that rest something. -/
theorem served_book_is_mirrored (rd : Render P S) (exps : IpAddr → Nat → Int × Int)
    (hprice : ∀ p i, Function.Injective (priceAt rd (exps p i) : Int → P)) (is : List (Input P S))
    (hok : (processor rd).Along (Input.Ordered rd exps) .new is) (key : PriceBookKey) (b : PriceBook)
    (hb : (after rd is).books.get key = some b) (hready : b.status = .ready)
    (hrevealed : ((after rd is).revealed.get key).isSome = true)
    (hcleared : (consumer (sentBy rd is) key).cleared = true) :
    Copies rd (exps key.publisher key.instrumentId) ⟨quoted b.bids, quoted b.asks⟩ (consumer (sentBy rd is) key) := by
  have hrest := AtRest.run hprice is hok
  have hmirrored := hrest.mirrored ⟨"", 0, 0, .mktdata, 0, none, 0, false, [], fun _ _ => false⟩ 0
  have hsent : ((after rd is).view (sentBy rd is)).sent = sentBy rd is := List.append_nil _
  have hserved := (hmirrored.books key b hb hready).served hrevealed
  have hnone : toPublish ⟨0, 0⟩ ((after rd is).view (sentBy rd is)) key = [] := by
    unfold toPublish
    split <;> rfl
  rw [hsent] at hserved
  rw [quoted_of_full (hmirrored.full key b hb).bids, quoted_of_full (hmirrored.full key b hb).asks]
  have hcopies := hserved
  rw [show toPublish (⟨0, 0⟩ : ChannelKey) _ key = [] from hnone] at hcopies
  exact hcopies hcleared

end Consumers

/-! ## The forgotten re-baseline -/

/-- Level updates, clears and trades arrive with the market-data role, reference data with the refdata role, and the
exponents of an instrument never change. -/
def Input.Segregated {P S : Type} (exps : IpAddr → Nat → Int × Int) : Input P S → Prop
  | .datagram cx d => ∀ m ∈ d.messages,
      (m.isMarket = true → cx.role = .mktdata) ∧
      (∀ valid manifestSeq count, m = .manifestSummary valid manifestSeq count → cx.role = .refdata) ∧
      ∀ i, m = .instrumentDefinition i →
        cx.role = .refdata ∧ (i.priceExponent, i.qtyExponent) = exps cx.publisher i.instrumentId
  | .tick _ _ => True

def rawRender : Render Int Int := ⟨fun p _ => p, fun q _ => q, 0, 0, fun _ => ""⟩

def portInput (role : PortRole) (sequence : Nat) (messages : List Message) : Input Int Int :=
  .datagram ⟨"c", 0, 1, role, 1, none, 0, false, [], fun _ _ => false⟩ ⟨⟨0, sequence, 0⟩, messages⟩

def firstManifest : List Message := [.manifestSummary true 1 1, .instrumentDefinition ⟨7, none, "S", 0, 0, 1, 1⟩]

def firstGroup : List Message := [.snapshotBegin ⟨7, 1, 0, 1, 0, 0⟩, .snapshotEnd ⟨7, 1, 1⟩]

def firstBid : List Message := [.levelUpdate ⟨7, 1, SIDE_BID, ACTION_NEW, 1, 5, 1, 0, none, 0⟩]

/-- An empty group makes the book `Ready`, and a first bid reveals it. -/
def revealedInputs : List (Input Int Int) :=
  [portInput .refdata 1 firstManifest, portInput .snapshot 2 firstGroup, portInput .mktdata 3 firstBid]

/-- A second empty group, in whose course a new manifest forgets the definition. -/
def forgottenInputs : List (Input Int Int) :=
  revealedInputs ++
    [portInput .snapshot 4 [.snapshotBegin ⟨7, 9, 0, 2, 5, 0⟩], portInput .refdata 5 [.manifestSummary true 2 1],
      portInput .snapshot 6 [.snapshotEnd ⟨7, 9, 2⟩]]

theorem forgottenInputs_segregated : ∀ i ∈ forgottenInputs, i.Segregated fun _ _ => (0, 0) := by
  simp [forgottenInputs, revealedInputs, portInput, firstManifest, firstGroup, firstBid, Input.Segregated,
    Message.isMarket]

theorem revealedInputs_ordered :
    (processor rawRender).Along (Input.Ordered rawRender fun _ _ => (0, 0)) .new revealedInputs := by
  refine ⟨⟨⟨?_, ?_, ?_⟩, nofun, nofun, trivial⟩, ⟨⟨?_, ?_, ?_⟩, nofun, fun e he => ?_, trivial⟩,
    ⟨⟨?_, ?_, ?_⟩, nofun, trivial⟩, trivial⟩
  case refine_7 =>
    cases he
    intro b _ _ _
    decide +kernel
  all_goals simp [firstManifest, firstGroup, firstBid, Message.isMarket, PortRole.handlesRefdata]

theorem served_book_is_mirrored_revealedInputs : ∃ b, (after rawRender revealedInputs).books.get ⟨1, 0, 7⟩ = some b ∧
    Copies rawRender (0, 0) ⟨quoted b.bids, quoted b.asks⟩ (consumer (sentBy rawRender revealedInputs) ⟨1, 0, 7⟩) := by
  have hread : ((after rawRender revealedInputs).books.get ⟨1, 0, 7⟩).map PriceBook.status = some .ready := by
    decide +kernel
  obtain ⟨b, hb, hready⟩ := Option.map_eq_some_iff.mp hread
  exact ⟨b, hb, served_book_is_mirrored rawRender (fun _ _ => (0, 0)) (fun _ _ _ _ hp => hp) revealedInputs
    revealedInputs_ordered ⟨1, 0, 7⟩ b hb hready (by decide +kernel) (by decide +kernel)⟩

/-- The group installs an empty book, and its consumer keeps the bid. -/
theorem served_book_is_mirrored_forgottenInputs :
    ¬ ∀ (rd : Render Int Int) (exps : IpAddr → Nat → Int × Int),
      (∀ e, Function.Injective fun p => rd.price p e) → (∀ e, Function.Injective fun q => rd.size q e) →
      ∀ is : List (Input Int Int), (∀ i ∈ is, i.Segregated exps) → ∀ (key : PriceBookKey) (b : PriceBook),
        (after rd is).books.get key = some b → b.status = .ready → ((after rd is).revealed.get key).isSome = true →
        (consumer (sentBy rd is) key).cleared = true →
        Copies rd (exps key.publisher key.instrumentId) ⟨quoted b.bids, quoted b.asks⟩
          (consumer (sentBy rd is) key) := by
  intro h
  have hread : ((after rawRender forgottenInputs).books.get ⟨1, 0, 7⟩).map (fun b => (b.status, b.bids.get 5)) =
      some (.ready, none) := by decide +kernel
  obtain ⟨b, hb, hbook⟩ := Option.map_eq_some_iff.mp hread
  obtain ⟨hready, hempty⟩ := Prod.mk.inj hbook
  have hcopies := h rawRender (fun _ _ => (0, 0)) (fun _ _ _ hp => hp) (fun _ _ _ hq => hq) forgottenInputs
    forgottenInputs_segregated ⟨1, 0, 7⟩ b hb hready (by decide +kernel) (by decide +kernel)
  have hrests : (consumer (sentBy rawRender forgottenInputs) ⟨1, 0, 7⟩).bids 5 = some 1 := by decide +kernel
  obtain ⟨price, l, hget, hname, -⟩ := (hcopies.bids 5 1).mp hrests
  have hprice : price = 5 := hname
  rw [hprice, show quoted b.bids = b.bids.filter fun _ l => decide (l.qtyRaw ≠ 0) from rfl, FinMap.get_filter, hempty]
    at hget
  cases hget

end EdgeConnect.Mbp
