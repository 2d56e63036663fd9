import EdgeConnect.Sinks.HlOrders

/-!
# The history of a market

One coin carried by one market: what of its batches a pipeline holds, what they made of the book map, and what the
stage remembers of them.

* `live` — the batches behind the last loss of a pipeline; `Carrying` — they are the last ones published;
* `CarriedBy` — a batch is of the market when it names the coin;
* `Ledger` — the accumulator's orders are what the market's batches wrote;
* `Memory` — the stage takes the market for one without orders only while none was named.
-/

set_option autoImplicit false

namespace EdgeConnect

namespace Hl

open Ws (BookSnapshot FeedMessage marketOf publishBook)

open LastWrite (write play)

/-! ## Behind the last loss -/

instance : DecidablePred fun x : Item => x = .lost := fun x =>
  match x with
  | .lost => .isTrue rfl
  | .batch _ => .isFalse nofun

/-- The batches behind the last loss. -/
def live : List Item → List Passing
  | [] => []
  | .lost :: P => live P
  | .batch q :: P => if P.any fun x => x = .lost then live P else q :: live P

theorem any_lost {P : List Item} : (P.any fun x => x = .lost) = true ↔ .lost ∈ P := by
  rw [List.any_eq_true]
  constructor
  · rintro ⟨x, hx, he⟩
    rwa [of_decide_eq_true he] at hx
  · exact fun h => ⟨.lost, h, by simp⟩

theorem live_append_of_lost {F R : List Item} (h : .lost ∈ R) : live (F ++ R) = live R := by
  induction F with
  | nil => rfl
  | cons x F ih =>
    cases x with
    | lost => exact ih
    | batch q =>
      show (if (F ++ R).any fun x => x = .lost then live (F ++ R) else q :: live (F ++ R)) = _
      rw [if_pos (any_lost.mpr (List.mem_append_right F h)), ih]

theorem live_append_of_kept {F R : List Item} (h : .lost ∉ R) : live (F ++ R) = live F ++ live R := by
  induction F with
  | nil => rfl
  | cons x F ih =>
    cases x with
    | lost => exact ih
    | batch q =>
      show (if (F ++ R).any fun x => x = .lost then live (F ++ R) else q :: live (F ++ R)) =
        (if F.any fun x => x = .lost then live F else q :: live F) ++ live R
      by_cases hF : .lost ∈ F
      · rw [if_pos (any_lost.mpr (List.mem_append_left R hF)), if_pos (any_lost.mpr hF), ih]
      · have hFR : Item.lost ∉ F ++ R := fun hx => (List.mem_append.mp hx).elim hF h
        rw [if_neg (fun hx => hFR (any_lost.mp hx)), if_neg (fun hx => hF (any_lost.mp hx)), ih]
        rfl

theorem live_suffix (F R : List Item) : live R <:+ live (F ++ R) := by
  by_cases h : .lost ∈ R
  · rw [live_append_of_lost h]
  · rw [live_append_of_kept h]
    exact List.suffix_append _ _

theorem mem_of_mem_live {q : Passing} : ∀ {P : List Item}, q ∈ live P → .batch q ∈ P
  | .lost :: P, h => List.mem_cons_of_mem _ (mem_of_mem_live (P := P) h)
  | .batch q' :: P, h => by
    unfold live at h
    split at h
    · exact List.mem_cons_of_mem _ (mem_of_mem_live h)
    · rcases List.mem_cons.mp h with rfl | h
      · exact List.mem_cons_self
      · exact List.mem_cons_of_mem _ (mem_of_mem_live h)

/-- A batch the stage has rendered, or is still to render. -/
def Passing.kept (q : Passing) : Bool :=
  match q.frame with
  | some none => false
  | _ => true

/-- What a batch on its way writes. -/
def Passing.effect (q : Passing) : Nat → Option (Option (F64 × F64)) := Hl.effect q.batch.changes

/-- The batches of a market behind the last loss. -/
def liveOf (k : BookKey) (P : List Item) : List Passing := (live P).filter fun q => marketOf q.batch = k

theorem liveOf_suffix (k : BookKey) (F R : List Item) : liveOf k R <:+ liveOf k (F ++ R) :=
  (live_suffix F R).filter _

theorem liveOf_append_of_lost {k : BookKey} {F R : List Item} (h : .lost ∈ R) :
    liveOf k (F ++ R) = liveOf k R := by
  unfold liveOf
  rw [live_append_of_lost h]

theorem liveOf_append_of_kept {k : BookKey} {F R : List Item} (h : .lost ∉ R) :
    liveOf k (F ++ R) = liveOf k F ++ liveOf k R := by
  unfold liveOf
  rw [live_append_of_kept h, List.filter_append]

theorem liveOf_batch {k : BookKey} {q : Passing} {P : List Item} (h : .lost ∉ P) :
    liveOf k (.batch q :: P) = if marketOf q.batch = k then q :: liveOf k P else liveOf k P := by
  unfold liveOf
  show List.filter _ (if P.any fun x => x = .lost then live P else q :: live P) = _
  rw [if_neg (fun hx => h (any_lost.mp hx)), List.filter_cons]
  by_cases hk : marketOf q.batch = k
  · rw [if_pos (decide_eq_true hk), if_pos hk]
  · rw [if_neg (by simpa using hk), if_neg hk]

/-! ## What a pipeline carries -/

section Market

variable {coin : String} {k : BookKey} {H : List NormalizedBook} {P P' : List Item} {h : Hub}

/-- The batches of a coin are those of its market, each of them published, and those behind the last loss are
the last ones published. -/
structure Carrying (coin : String) (k : BookKey) (H : List NormalizedBook) (P : List Item) : Prop where
  market : ∀ q, .batch q ∈ P → (marketOf q.batch = k ↔ q.batch.symbol = coin)
  history : ∀ q, .batch q ∈ P → marketOf q.batch = k → q.batch ∈ H
  recent : (liveOf k P).map Passing.batch <:+ H

theorem Carrying.nil : Carrying coin k H [] := ⟨nofun, nofun, List.nil_suffix⟩

theorem Carrying.drop {F : List Item} (hc : Carrying coin k H (F ++ P)) : Carrying coin k H P where
  market q hq := hc.market q (List.mem_append_right F hq)
  history q hq := hc.history q (List.mem_append_right F hq)
  recent := ((liveOf_suffix k F P).map _).trans hc.recent

/-- Exchanging a batch for itself, rendered, changes nothing of what is carried. -/
theorem Carrying.settle {F R : List Item} {q q' : Passing} (hq : q'.batch = q.batch)
    (hc : Carrying coin k H (F ++ .batch q :: R)) : Carrying coin k H (F ++ .batch q' :: R) := by
  have hmem : ∀ x, Item.batch x ∈ F ++ .batch q' :: R →
      x = q' ∨ Item.batch x ∈ F ++ .batch q :: R := by
    intro x hx
    rcases List.mem_append.mp hx with hx | hx
    · exact Or.inr (List.mem_append_left _ hx)
    · rcases List.mem_cons.mp hx with hx | hx
      · exact Or.inl (Item.batch.inj hx)
      · exact Or.inr (List.mem_append_right _ (List.mem_cons_of_mem _ hx))
  have hin : Item.batch q ∈ F ++ .batch q :: R := List.mem_append_right F List.mem_cons_self
  refine ⟨fun x hx => ?_, fun x hx => ?_, ?_⟩
  · rcases hmem x hx with rfl | hx
    · rw [hq]
      exact hc.market q hin
    · exact hc.market x hx
  · rcases hmem x hx with rfl | hx
    · rw [hq]
      exact hc.history q hin
    · exact hc.history x hx
  · have hrecent := hc.recent
    by_cases hlost : .lost ∈ R
    · rw [liveOf_append_of_lost (List.mem_cons_of_mem _ hlost)] at hrecent ⊢
      rw [show Item.batch q' :: R = [.batch q'] ++ R from rfl, liveOf_append_of_lost hlost]
      rwa [show Item.batch q :: R = [.batch q] ++ R from rfl, liveOf_append_of_lost hlost] at hrecent
    · have hlost' : ∀ x : Passing, Item.lost ∉ Item.batch x :: R := by
        intro x hx
        rcases List.mem_cons.mp hx with hx | hx
        · cases hx
        · exact hlost hx
      rw [liveOf_append_of_kept (hlost' q), liveOf_batch hlost] at hrecent
      rw [liveOf_append_of_kept (hlost' q'), liveOf_batch hlost, hq]
      split
      · rename_i hk
        rw [if_pos hk] at hrecent
        simpa [hq] using hrecent
      · rename_i hk
        rwa [if_neg hk] at hrecent

theorem Carrying.moves (hc : Carrying coin k H P) (hm : Moves h P P') : Carrying coin k H P' := by
  cases hm with
  | same => exact hc
  | lose F X R =>
    have hR : ∀ x, x ∈ F ++ .lost :: R → x = .lost ∨ x ∈ F ++ (X ++ R) := by
      intro x hx
      rcases List.mem_append.mp hx with hx | hx
      · exact Or.inr (List.mem_append_left _ hx)
      · rcases List.mem_cons.mp hx with hx | hx
        · exact Or.inl hx
        · exact Or.inr (List.mem_append_right _ (List.mem_append_right _ hx))
    refine ⟨fun q hq => ?_, fun q hq => ?_, ?_⟩
    · exact hc.market q ((hR _ hq).resolve_left nofun)
    · exact hc.history q ((hR _ hq).resolve_left nofun)
    · rw [liveOf_append_of_lost List.mem_cons_self]
      exact (hc.drop.drop : Carrying coin k H R).recent
  | skip F b R =>
    refine Carrying.settle ?_ hc
    rfl
  | render F m b wants =>
    refine Carrying.settle ?_ hc
    rfl

theorem lost_notMem_itemsOf {m : FeedMessage} {frame : Option (Option L4Frame)} :
    Item.lost ∉ itemsOf m frame := by
  unfold itemsOf
  simp

/-- A message published joins what is carried; a batch of the market joins its history. -/
theorem Carrying.publish {m : FeedMessage} (hc : Carrying coin k H P)
    (hm : ∀ b, venueBatch m = some b → (marketOf b = k ↔ b.symbol = coin)) :
    Carrying coin k (H ++ (venueBatch m).toList.filter fun b => marketOf b = k) (P ++ itemsOf m none) := by
  have hitems : ∀ q, Item.batch q ∈ itemsOf m none → venueBatch m = some q.batch := by
    intro q hq
    unfold itemsOf at hq
    obtain ⟨b, hb, he⟩ := List.mem_map.mp hq
    rw [← Item.batch.inj he]
    exact Option.mem_toList.mp hb
  refine ⟨fun q hq => ?_, fun q hq hk => ?_, ?_⟩
  · rcases List.mem_append.mp hq with hq | hq
    · exact hc.market q hq
    · exact hm q.batch (hitems q hq)
  · rcases List.mem_append.mp hq with hq | hq
    · exact List.mem_append_left _ (hc.history q hq hk)
    · refine List.mem_append_right _ (List.mem_filter.mpr ⟨?_, decide_eq_true hk⟩)
      exact Option.mem_toList.mpr (hitems q hq)
  · rw [liveOf_append_of_kept lost_notMem_itemsOf, List.map_append]
    have hnew : (liveOf k (itemsOf m none)).map Passing.batch =
        (venueBatch m).toList.filter fun b => marketOf b = k := by
      cases hb : venueBatch m with
      | none =>
        rw [itemsOf_none hb]
        rfl
      | some b =>
        rw [itemsOf_some hb, liveOf_batch List.not_mem_nil]
        by_cases hk : marketOf b = k
        · simp [hk, liveOf, live]
        · simp [hk, liveOf, live]
    rw [hnew]
    exact (List.suffix_append_inj_of_length_eq rfl).mpr ⟨hc.recent, rfl⟩

/-! ## One coin, one market -/

/-- A map is iterated whole, each key once. -/
def Iterates (h : Hub) (iter : List BookKey) : Prop :=
  iter.Nodup ∧ ∀ key, h.books.contains key = true → key ∈ iter

/-- A batch of the market closes its event, its sizes are finite, and its orders fit the accumulator. -/
structure Fits (h : Hub) (k : BookKey) (b : NormalizedBook) : Prop where
  last : b.last = true
  sizes : ∀ c ∈ b.changes, c.size.isFinite = true
  room : (((h.books.get k).getD (.new b.symbol)).buffer b).settled.orders.size ≤ MAX_ACCUMULATED_ORDERS

/-- One coin carried by one market: a batch is of the market when it is the venue's and names the coin. -/
structure CarriedBy (coin : String) (k : BookKey) (h : Hub) (m : FeedMessage) : Prop where
  book : ∀ b, m.batch = some b → m = .book b
  market : ∀ b, m.batch = some b → (marketOf b = k ↔ b.sourceId = SOURCE_ID ∧ b.symbol = coin)
  fits : ∀ b, m.batch = some b → marketOf b = k → Fits h k b

/-! ## The book map -/

/-- The orders of a market in the book map. -/
def quotes (h : Hub) (k : BookKey) : Nat → Option (F64 × F64) :=
  (h.books.get k).elim (fun _ => none) fun acc => (restingQuotes acc.toResting).get

/-- What a batch writes. -/
def batchEffect (b : NormalizedBook) : Nat → Option (Option (F64 × F64)) := effect b.changes

/-- The book map after the batches `H` of the market. -/
structure Ledger (coin : String) (k : BookKey) (H : List NormalizedBook) (h : Hub) : Prop where
  entry : ∀ acc, h.books.get k = some acc → acc.pending = [] ∧ acc.symbol = coin ∧
    (acc.orderLevel = false → ∀ b ∈ H, b.changes.any namesOrder = false)
  empty : h.books.get k = none → H = []
  quotes : quotes h k = play batchEffect (fun _ => none) H
  regular : ∀ b ∈ H, Regular b
  alone : ∀ key acc, h.books.get key = some acc → key.source.id = SOURCE_ID → acc.symbol = coin → key = k

/-- What one regular batch makes of an accumulator. -/
theorem apply_regular {acc : BookAccumulator} {b : NormalizedBook} (hb : Regular b) (hlast : b.last = true)
    (hpending : acc.pending = []) (hroom : (acc.buffer b).settled.orders.size ≤ MAX_ACCUMULATED_ORDERS) :
    (acc.apply b).pending = [] ∧ (acc.apply b).symbol = b.symbol ∧
      (acc.apply b).orderLevel = (acc.orderLevel || b.changes.any namesOrder) ∧
      (acc.apply b).baselined = (acc.baselined || clearedSides b.changes = (true, true)) ∧
      (restingQuotes (acc.apply b).toResting).get = write batchEffect b (restingQuotes acc.toResting).get := by
  have hbuf : (acc.buffer b).pending = b.changes := by
    show acc.pending ++ b.changes.filter BookChange.isFinite = b.changes
    rw [hpending, List.nil_append, List.filter_eq_self.mpr hb.finite]
  have hsettled : (acc.buffer b).settled = acc.toResting.foldChanges b.changes := by
    unfold BookAccumulator.settled
    rw [hbuf]
    rfl
  have happly : acc.apply b = (acc.buffer b).close b.batchId.isSome := by
    unfold BookAccumulator.apply
    simp only
    rw [if_pos hlast]
  have hover : decide ((acc.buffer b).settled.orders.size > MAX_ACCUMULATED_ORDERS) = false :=
    decide_eq_false (Nat.not_lt.mpr hroom)
  rw [happly]
  unfold BookAccumulator.close
  refine ⟨rfl, rfl, ?_, ?_, ?_⟩
  · show (acc.orderLevel || (acc.buffer b).pending.any _) = _
    rw [hbuf]
    rfl
  · simp only [hover, hbuf, Bool.not_false, Bool.and_true]
    rfl
  · simp only [hover, Bool.false_eq_true, if_false]
    show (restingQuotes (acc.buffer b).settled).get = _
    rw [hsettled, orders_foldChanges _ _ hb.both]
    funext oid
    exact play_changes _

theorem venueBatch_book {m : FeedMessage} {b : NormalizedBook} (hb : venueBatch m = some b) :
    m = .book b ∧ b.sourceId = SOURCE_ID := by
  cases m with
  | book b' =>
    have hb : (if b'.sourceId = SOURCE_ID then some b' else none) = some b := hb
    split at hb
    · rename_i hsource
      cases hb
      exact ⟨rfl, hsource⟩
    · cases hb
  | orderBook b' => cases hb
  | market => cases hb
  | status => cases hb

/-- The batches a message adds to the market's history. -/
def newBatches (k : BookKey) (m : FeedMessage) : List NormalizedBook :=
  (venueBatch m).toList.filter fun b => marketOf b = k

/-- A message leaves the market alone, or is a batch of it. -/
theorem CarriedBy.cases {m : FeedMessage} (hm : CarriedBy coin k h m) :
    (newBatches k m = [] ∧ ∀ b, m.batch = some b → marketOf b ≠ k) ∨
      ∃ b, m = .book b ∧ venueBatch m = some b ∧ marketOf b = k ∧ b.symbol = coin ∧ newBatches k m = [b] := by
  unfold newBatches
  cases hb : m.batch with
  | none =>
    have hv : venueBatch m = none := by
      cases hv : venueBatch m with
      | none => rfl
      | some b =>
        rw [(venueBatch_book hv).1] at hb
        cases hb
    rw [hv]
    exact Or.inl ⟨rfl, nofun⟩
  | some b =>
    obtain rfl := hm.book b hb
    by_cases hk : marketOf b = k
    · obtain ⟨hsource, hsym⟩ := (hm.market b hb).mp hk
      have hv : venueBatch (.book b) = some b := if_pos hsource
      rw [hv]
      refine Or.inr ⟨b, rfl, rfl, hk, hsym, ?_⟩
      rw [Option.toList_some, List.filter_cons, if_pos (decide_eq_true hk), List.filter_nil]
    · left
      refine ⟨?_, fun b' hb' => ?_⟩
      · rw [List.filter_eq_nil_iff]
        intro b' hb'
        obtain ⟨he, -⟩ := venueBatch_book (Option.mem_toList.mp hb')
        cases he
        simpa using hk
      · cases hb'
        exact hk

theorem get_publishBook (books : BookSnapshot) (b : NormalizedBook) (key : BookKey) :
    (publishBook books b).get key =
      if key = marketOf b then some (((books.get (marketOf b)).getD (.new b.symbol)).apply b)
      else books.get key := FinMap.get_insert _ _ _ _

/-- The accumulator a batch of the market is applied to. -/
theorem Ledger.pending (hl : Ledger coin k H h) (symbol : String) :
    ((h.books.get k).getD (.new symbol)).pending = [] := by
  cases hacc : h.books.get k with
  | none => rfl
  | some acc => exact (hl.entry acc hacc).1

theorem Ledger.quotes_getD (hl : Ledger coin k H h) (symbol : String) :
    (restingQuotes ((h.books.get k).getD (.new symbol)).toResting).get = play batchEffect (fun _ => none) H := by
  rw [← hl.quotes]
  unfold Hl.quotes
  cases h.books.get k with
  | none => rfl
  | some acc => rfl

theorem Ledger.publish (hl : Ledger coin k H h) {m : FeedMessage} (hm : CarriedBy coin k h m)
    (hreg : ∀ b, m.batch = some b → marketOf b = k → Regular b) (harr : h.arriving = none) :
    Ledger coin k (H ++ newBatches k m) (h.publish m) := by
  have hbooks : (h.publish m).books = m.batch.elim h.books (publishBook h.books) := by
    unfold Hub.publish
    rw [harr]
  have halone : ∀ key acc, (h.publish m).books.get key = some acc → key.source.id = SOURCE_ID →
      acc.symbol = coin → key = k := by
    intro key acc hacc hsource hsym
    rw [hbooks] at hacc
    cases hb : m.batch with
    | none =>
      rw [hb] at hacc
      exact hl.alone key acc hacc hsource hsym
    | some b =>
      rw [hb, Option.elim_some, get_publishBook] at hacc
      split at hacc
      · rename_i hkey
        cases hacc
        -- a book of the venue that has the coin is written by the venue's batches of the coin
        have hid : b.sourceId = SOURCE_ID := by
          rw [hkey] at hsource
          unfold marketOf SourceKey.of SourceKey.new at hsource
          simp only at hsource
          split at hsource
          · cases hsource
          · exact hsource
        have hbsym : b.symbol = coin := by
          rw [← hsym]
          unfold BookAccumulator.apply
          simp only
          split
          · rfl
          · split
            · rfl
            · rfl
        rw [hkey]
        exact (hm.market b hb).mpr ⟨hid, hbsym⟩
      · exact hl.alone key acc hacc hsource hsym
  rcases hm.cases with ⟨hnew, hother⟩ | ⟨b, rfl, hv, hk, hsym, hnew⟩
  · have hget : (h.publish m).books.get k = h.books.get k := by
      rw [hbooks]
      cases hb : m.batch with
      | none => rfl
      | some b => rw [Option.elim_some, get_publishBook, if_neg (Ne.symm (hother b hb))]
    rw [hnew, List.append_nil]
    refine ⟨?_, ?_, ?_, hl.regular, halone⟩
    · rw [hget]
      exact hl.entry
    · rw [hget]
      exact hl.empty
    · unfold Hl.quotes
      rw [hget]
      exact hl.quotes
  · have hb := hreg b rfl hk
    have hfits := hm.fits b rfl hk
    obtain ⟨hpend, hs, hlevel, -, hq⟩ := apply_regular hb hfits.last (hl.pending b.symbol) hfits.room
    have hget : (h.publish (.book b)).books.get k = some (((h.books.get k).getD (.new b.symbol)).apply b) := by
      rw [hbooks]
      show (publishBook h.books b).get k = _
      rw [get_publishBook, hk, if_pos rfl]
    rw [hnew]
    refine ⟨?_, ?_, ?_, ?_, halone⟩
    · intro acc hacc
      rw [hget] at hacc
      cases hacc
      refine ⟨hpend, hs.trans hsym, fun hfalse => ?_⟩
      rw [hlevel, Bool.or_eq_false_iff] at hfalse
      intro b' hb'
      rcases List.mem_append.mp hb' with hb' | hb'
      · cases hacc : h.books.get k with
        | none =>
          rw [hl.empty hacc] at hb'
          cases hb'
        | some acc =>
          rw [hacc] at hfalse
          exact (hl.entry acc hacc).2.2 hfalse.1 b' hb'
      · rw [List.mem_singleton.mp hb']
        exact hfalse.2
    · intro hnone
      rw [hget] at hnone
      cases hnone
    · rw [LastWrite.play_append, ← hl.quotes_getD b.symbol]
      unfold Hl.quotes
      rw [hget]
      exact hq
    · intro b' hb'
      rcases List.mem_append.mp hb' with hb' | hb'
      · exact hl.regular b' hb'
      · rw [List.mem_singleton.mp hb']
        exact hb

theorem Ledger.of_books {h' : Hub} (hl : Ledger coin k H h) (hbooks : h'.books = h.books) :
    Ledger coin k H h' := by
  refine ⟨?_, ?_, ?_, hl.regular, ?_⟩
  · rw [hbooks]
    exact hl.entry
  · rw [hbooks]
    exact hl.empty
  · unfold Hl.quotes
    rw [hbooks]
    exact hl.quotes
  · rw [hbooks]
    exact hl.alone

/-! ## The stage's flag -/

/-- A market that survives eviction is tracked as before. -/
theorem evictMarkets_get {x : BookKey} {mo : MarketOrders} : ∀ (order : List BookKey)
    (published : FinMap BookKey MarketOrders),
    (evictMarkets published order).1.get x = some mo → published.get x = some mo
  | [], _, hx => hx
  | old :: order, published, hx => by
    unfold evictMarkets at hx
    split at hx
    · have hx := evictMarkets_get order _ hx
      rw [FinMap.get_erase] at hx
      split at hx
      · cases hx
      · exact hx
    · exact hx

theorem trackMarket_get {books : BookSnapshot} {published : FinMap BookKey MarketOrders} {order : List BookKey}
    {key x : BookKey} {mo : MarketOrders} (hne : x ≠ key)
    (hx : (trackMarket books published order key).1.get x = some mo) : published.get x = some mo := by
  unfold trackMarket at hx
  split at hx
  · exact hx
  · simp only at hx
    rw [FinMap.get_insert_of_ne _ _ hne] at hx
    exact evictMarkets_get _ _ hx

/-- The stage's memory of a market is what it tracks, or a fresh one with the accumulator's flag. -/
theorem memory_cases (h : Hub) (k : BookKey) :
    (∃ mo, h.published.get k = some mo ∧ h.memory k = mo) ∨
      (h.published.get k = none ∧ h.memory k = ⟨∅, (h.books.get k).any fun acc => acc.orderLevel⟩) := by
  unfold Hub.memory trackMarket
  cases hp : h.published.get k with
  | some mo =>
    rw [if_pos (FinMap.contains_eq_true.mpr ⟨mo, hp⟩)]
    exact Or.inl ⟨mo, rfl, by simp only [hp, Option.getD_some]⟩
  | none =>
    rw [if_neg (by rw [FinMap.contains_eq_false.mpr hp]; exact Bool.false_ne_true)]
    refine Or.inr ⟨rfl, ?_⟩
    simp only [FinMap.get_insert_self, Option.getD_some]

theorem reseedPublished_flag (books : BookSnapshot) (iter : List BookKey) {key : BookKey} {mo : MarketOrders}
    (hmo : (reseedPublished books iter).1.get key = some mo) : mo.orderLevel = true := by
  have hfold : ∀ (iter : List BookKey) (s : FinMap BookKey MarketOrders × List BookKey),
      (∀ key mo, s.1.get key = some mo → mo.orderLevel = true) →
      ∀ key mo, (iter.foldl (reseedMarket books) s).1.get key = some mo → mo.orderLevel = true := by
    intro iter
    induction iter with
    | nil => exact fun s hs => hs
    | cons x iter ih =>
      intro s hs
      refine ih _ fun key mo hmo => ?_
      unfold reseedMarket at hmo
      split at hmo
      · exact hs key mo hmo
      · split at hmo
        · rw [FinMap.get_insert] at hmo
          split at hmo
          · cases hmo
            rw [orderLevel_apply]
            rfl
          · exact hs key mo hmo
        · exact hs key mo hmo
  exact hfold iter (∅, []) (fun _ _ h => by cases h) key mo hmo

/-- The message the stage has read and not yet prepared. -/
def Stage.message : Stage → Option FeedMessage
  | .took m _ => some m
  | .counted m _ _ => some m
  | _ => none

/-- The batches of the market that the stage has not prepared. -/
def todo (k : BookKey) (h : Hub) : List NormalizedBook :=
  (h.stage.message.toList ++ (h.backbone.buf ++ h.arriving.toList)).flatMap (newBatches k)

/-- As long as the stage has lost nothing, it has prepared every batch but the last ones, and takes the market
for one without orders only if none of them named an order. -/
def Memory (k : BookKey) (H : List NormalizedBook) (h : Hub) : Prop :=
  h.backbone.missed = false → h.stage ≠ .gap → ∃ done, H = done ++ todo k h ∧
    ∀ mo, h.published.get k = some mo → mo.orderLevel = false → ∀ b ∈ done, b.changes.any namesOrder = false

theorem Memory.congr {h' : Hub} (hm : Memory k H h) (hback : h'.backbone = h.backbone)
    (hstage : h'.stage = h.stage) (harr : h'.arriving = h.arriving) (hpub : h'.published = h.published) :
    Memory k H h' := by
  unfold Memory todo
  rw [hback, hstage, harr, hpub]
  exact hm

theorem Memory.publish (hm : Memory k H h) (m : FeedMessage) (harr : h.arriving = none) :
    Memory k (H ++ newBatches k m) (h.publish m) := by
  intro hmissed hgap
  unfold Hub.publish at hmissed hgap ⊢
  rw [harr] at hmissed hgap ⊢
  obtain ⟨done, hdone, hnone⟩ := hm hmissed hgap
  refine ⟨done, ?_, hnone⟩
  rw [hdone]
  unfold todo
  rw [harr]
  simp

theorem Memory.append (hm : Memory k H h) (capacity : Nat) : Memory k H (h.append capacity) := by
  unfold Hub.append
  cases harr : h.arriving with
  | none => exact hm
  | some m =>
    intro hmissed hgap
    rcases Receiver.send_cases capacity h.backbone m with hsend | hsend
    · simp only [hsend] at hmissed hgap ⊢
      obtain ⟨done, hdone, hnone⟩ := hm hmissed hgap
      refine ⟨done, ?_, hnone⟩
      rw [hdone]
      unfold todo
      rw [harr]
      simp
    · simp only [hsend] at hmissed
      cases hmissed

theorem liveOf_itemsOf (k : BookKey) : ∀ ms : List FeedMessage,
    .lost ∉ ms.flatMap (itemsOf · none) ∧
      (liveOf k (ms.flatMap (itemsOf · none))).map Passing.batch = ms.flatMap (newBatches k)
  | [] => ⟨List.not_mem_nil, rfl⟩
  | m :: ms => by
    obtain ⟨hlost, hrest⟩ := liveOf_itemsOf k ms
    refine ⟨?_, ?_⟩
    · rw [List.flatMap_cons, List.mem_append]
      exact fun hx => hx.elim lost_notMem_itemsOf hlost
    · rw [List.flatMap_cons, liveOf_append_of_kept hlost, List.map_append, hrest, List.flatMap_cons]
      congr 1
      unfold newBatches
      cases hb : venueBatch m with
      | none =>
        rw [itemsOf_none hb]
        rfl
      | some b =>
        rw [itemsOf_some hb, liveOf_batch List.not_mem_nil, Option.toList_some, List.filter_cons]
        by_cases hk : marketOf b = k
        · rw [if_pos hk, if_pos (decide_eq_true hk)]
          rfl
        · rw [if_neg hk, if_neg (by simpa using hk)]
          rfl

/-- The stage has not lost the batches behind a loss that it has been told of. -/
theorem Carrying.upstream (hc : Carrying coin k H h.upstream) :
    (h.backbone.buf ++ h.arriving.toList).flatMap (newBatches k) <:+ H := by
  unfold Hub.upstream at hc
  have hrecent := hc.drop.recent
  rw [← List.flatMap_append] at hrecent
  rwa [(liveOf_itemsOf k _).2] at hrecent

theorem newBatches_of_some {m : FeedMessage} {b : NormalizedBook} (hb : venueBatch m = some b) :
    newBatches k m = if marketOf b = k then [b] else [] := by
  unfold newBatches
  rw [hb, Option.toList_some, List.filter_cons]
  by_cases hk : marketOf b = k
  · rw [if_pos hk, if_pos (decide_eq_true hk), List.filter_nil]
  · rw [if_neg hk, if_neg (by simpa using hk), List.filter_nil]

/-- A market that the stage takes for one without orders has had none in what was prepared of it. -/
theorem Memory.no_orders (hl : Ledger coin k H h) {done : List NormalizedBook}
    (hdone : ∀ b ∈ done, b ∈ H)
    (hnone : ∀ mo, h.published.get k = some mo → mo.orderLevel = false →
      ∀ b ∈ done, b.changes.any namesOrder = false)
    (hflag : (h.memory k).orderLevel = false) : ∀ b ∈ done, b.changes.any namesOrder = false := by
  rcases memory_cases h k with ⟨mo, hmo, heq⟩ | ⟨-, heq⟩
  · exact hnone mo hmo (heq ▸ hflag)
  · rw [heq] at hflag
    intro b hb
    cases hacc : h.books.get k with
    | none =>
      have := hl.empty hacc ▸ hdone b hb
      cases this
    | some acc =>
      rw [hacc] at hflag
      exact (hl.entry acc hacc).2.2 (by simpa using hflag) b (hdone b hb)

theorem Memory.prepare (hm : Memory k H h) (hl : Ledger coin k H h) (hc : Carrying coin k H h.upstream)
    (iter : List BookKey) : Memory k H (h.prepare iter) := by
  unfold Hub.prepare
  cases hstage : h.stage with
  | waiting =>
    simp only
    rcases Receiver.recv_cases h.backbone with ⟨-, heq⟩ | ⟨-, -, heq⟩ | ⟨m, buf, hmissed, hbuf, heq⟩
    · rw [heq]
      exact fun _ hgap => absurd rfl hgap
    · rw [heq]
      exact hm
    · rw [heq]
      intro _ _
      obtain ⟨done, hdone, hnone⟩ := hm hmissed (hstage ▸ nofun)
      refine ⟨done, ?_, hnone⟩
      rw [hdone]
      unfold todo
      rw [hstage, hbuf]
      rfl
  | took m idle =>
    intro hmissed _
    obtain ⟨done, hdone, hnone⟩ := hm hmissed (hstage ▸ nofun)
    refine ⟨done, ?_, hnone⟩
    rw [hdone]
    unfold todo
    rw [hstage]
    rfl
  | counted m idle wants =>
    intro hmissed _
    obtain ⟨done, hdone, hnone⟩ := hm hmissed (hstage ▸ nofun)
    have hstage' : (if idle then Stage.waiting
        else .ready (.message (prepareOne m h.books wants h.published h.order idle).1)).message = none := by
      cases idle <;> rfl
    have htodo : todo k h = newBatches k m ++ (h.backbone.buf ++ h.arriving.toList).flatMap (newBatches k) := by
      unfold todo
      rw [hstage]
      rfl
    refine ⟨done ++ newBatches k m, ?_, ?_⟩
    · rw [hdone, htodo, List.append_assoc]
      unfold todo
      simp only [hstage', Option.toList_none, List.nil_append]
    · intro mo hmo hflag
      have hmo : (prepareOne m h.books wants h.published h.order idle).2.1.get k = some mo := hmo
      unfold prepareOne at hmo
      cases hb : venueBatch m with
      | none =>
        rw [hb] at hmo
        have hempty : newBatches k m = [] := by
          unfold newBatches
          rw [hb]
          rfl
        rw [hempty, List.append_nil]
        exact hnone mo hmo hflag
      | some b =>
        rw [hb] at hmo
        rw [newBatches_of_some hb]
        simp only at hmo
        by_cases hk : marketOf b = k
        · rw [hk, FinMap.get_insert_self] at hmo
          have hmo : (h.memory k).apply b = mo := Option.some.inj hmo
          rw [← hmo, orderLevel_apply, Bool.or_eq_false_iff] at hflag
          have hprev := Memory.no_orders hl
            (fun b hb => hdone ▸ List.mem_append_left (todo k h) hb) hnone hflag.1
          rw [if_pos hk]
          intro b' hb'
          rcases List.mem_append.mp hb' with hb' | hb'
          · exact hprev b' hb'
          · rw [List.mem_singleton.mp hb']
            exact hflag.2
        · rw [FinMap.get_insert_of_ne _ _ (Ne.symm hk)] at hmo
          rw [if_neg hk, List.append_nil]
          exact hnone mo (trackMarket_get (Ne.symm hk) hmo) hflag
  | gap =>
    intro _ _
    obtain ⟨done, hdone⟩ := hc.upstream
    refine ⟨done, ?_, ?_⟩
    · rw [← hdone]
      rfl
    · intro mo hmo hflag
      rw [reseedPublished_flag h.books iter hmo] at hflag
      cases hflag
  | ready p =>
    intro hmissed _
    obtain ⟨done, hdone, hnone⟩ := hm hmissed (hstage ▸ nofun)
    refine ⟨done, ?_, hnone⟩
    rw [hdone]
    unfold todo
    rw [hstage]
    rfl

end Market

end Hl

end EdgeConnect
