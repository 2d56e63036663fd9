import EdgeConnect.Ingest.BookMirror
import EdgeConnect.Ingest.BookRewind
import EdgeConnect.Ingest.MboSteps

/-!
# What a processor tells of an order book (`MboProcessor` in `src/ingest/processor.rs`)

A consumer of the order-level `book` of one instrument keeps the orders that its batches state.

* `take`, `consumer` — the orders of a consumer; `Adopted` — the batches of a book since it adopted its market key;
* `visible` — the orders of a book that a consumer can see: those whose size is not zero;
* `InStep` — what holds of a book between the messages of a datagram; `InStep.move` — every move keeps it;
* `emitPass_heard` — what the end of a datagram hands on of a book;
* `emission_mirrors_the_book` — once the whole book went out, the consumer has the orders of the book.
-/

set_option autoImplicit false

namespace EdgeConnect.MboFeed

open Ingest
open Mbo (BookState DeltaOp OrderChange Orders RestingOrder)
open CodecMbo (Message)

/-! ## The consumer -/

/-- The orders a consumer has: side, price and size of each. -/
abbrev Seen (P S : Type) := FinMap Nat (BookSide × P × S)

section Consumer

variable {P S : Type} [DecidableEq S] (rd : Render P S)

/-- One change: a clear empties the book, a delete or a size of zero takes the order out, any other change sets it. -/
def take (seen : Seen P S) (c : Change P S) : Seen P S :=
  match c.action with
  | .clear => ∅
  | .delete => seen.erase c.orderId
  | .update => if c.size = rd.zeroSize then seen.erase c.orderId else seen.insert c.orderId (c.side, c.price, c.size)

/-- The orders that some batches leave, from none. -/
def consumer (heard : List (BookEmit × Batch P S)) : Seen P S :=
  heard.foldl (fun seen b => b.2.changes.foldl (take rd) seen) ∅

/-- The whole book went out, and no bare clear after it. -/
def wholeBook (heard : List (BookEmit × Batch P S)) : Bool :=
  heard.foldl (fun whole b =>
    match b.1 with
    | .rebaseline => true
    | .clear => false
    | .delta => whole) false

/-- How an order is published. -/
def shown (e : Int × Int) (o : RestingOrder) : BookSide × P × S :=
  (if o.isBid then .bid else .ask, rd.price o.priceRaw e.1, rd.size (asI64 o.qtyRaw) e.2)

/-- The orders that `order_set` states, as they are published. -/
def stated (e : Int × Int) (b : BookState) : Seen P S := (Mbo.mirrorOf b.orderSet).mapVals (shown rd e)

/-- The orders of a book that a consumer can see. -/
def visible (e : Int × Int) (orders : Orders) : Seen P S :=
  (orders.filter fun _ o => decide (rd.size (asI64 o.qtyRaw) e.2 ≠ rd.zeroSize)).mapVals (shown rd e)

/-- The consumer's orders after an order change is published. -/
def heed (e : Int × Int) (seen : Seen P S) (c : OrderChange) : Seen P S :=
  if rd.size (asI64 c.qtyRaw) e.2 = rd.zeroSize then seen.erase c.orderId
  else seen.insert c.orderId (shown rd e ⟨c.isBid, c.priceRaw, c.qtyRaw⟩)

variable {rd} {e : Int × Int}

theorem take_scaleChange (hzero : ∀ x, rd.size 0 x = rd.zeroSize) {d : InstrumentDefinition}
    (hd : (d.priceExponent, d.qtyExponent) = e) (seen : Seen P S) (c : OrderChange) :
    take rd seen (Run.scaleChange rd d c) = heed rd e seen c := by
  subst hd
  unfold take heed Run.scaleChange
  by_cases hq : c.qtyRaw = 0
  · simp only [hq, if_true]
    exact (if_pos (hzero d.qtyExponent)).symm
  · simp only [hq, if_false]
    rfl

/-- An order that rests is seen as its change is heeded. -/
theorem visible_insert (orders : Orders) (c : OrderChange) :
    visible rd e (orders.insert c.orderId ⟨c.isBid, c.priceRaw, c.qtyRaw⟩) = heed rd e (visible rd e orders) c := by
  unfold visible heed
  ext1 id
  simp only [FinMap.get_mapVals, FinMap.get_filter, FinMap.get_insert]
  by_cases hid : id = c.orderId
  · subst hid
    by_cases hsize : rd.size (asI64 c.qtyRaw) e.2 = rd.zeroSize
    · simp [hsize]
    · simp [hsize]
  · rw [if_neg hid]
    by_cases hsize : rd.size (asI64 c.qtyRaw) e.2 = rd.zeroSize
    · rw [if_pos hsize, FinMap.get_erase_of_ne _ hid]
      simp
    · rw [if_neg hsize, FinMap.get_insert_of_ne _ _ hid]
      simp

theorem visible_erase (orders : Orders) (id : Nat) :
    visible rd e (orders.erase id) = (visible rd e orders).erase id := by
  unfold visible
  ext1 k
  simp only [FinMap.get_mapVals, FinMap.get_filter, FinMap.get_erase]
  split <;> rfl

theorem heed_of_zero (hzero : ∀ x, rd.size 0 x = rd.zeroSize) (seen : Seen P S) {c : OrderChange} (hq : c.qtyRaw = 0) :
    heed rd e seen c = seen.erase c.orderId := by
  unfold heed
  rw [hq]
  exact if_pos (hzero e.2)

/-- What a consumer that holds what it can see makes of an order change. -/
theorem visible_mirrorOn (hzero : ∀ x, rd.size 0 x = rd.zeroSize) (orders : Orders) (c : OrderChange) :
    visible rd e (Mbo.mirrorOn orders c) = heed rd e (visible rd e orders) c := by
  unfold Mbo.mirrorOn
  split
  · rename_i hq
    rw [visible_erase, heed_of_zero hzero _ hq]
  · exact visible_insert orders c

theorem visible_foldl (hzero : ∀ x, rd.size 0 x = rd.zeroSize) : ∀ (cs : List OrderChange) (orders : Orders),
    visible rd e (cs.foldl Mbo.mirrorOn orders) = cs.foldl (heed rd e) (visible rd e orders)
  | [], _ => rfl
  | c :: cs, orders => by
    rw [List.foldl_cons, List.foldl_cons, visible_foldl hzero cs, visible_mirrorOn hzero]

/-- **One delta**, as long as the book stays synced: also an add of quantity zero, since what it rests is not seen. -/
theorem visible_delta (hzero : ∀ x, rd.size 0 x = rd.zeroSize) {b : BookState} {op : DeltaOp}
    (hs : (b.onDeltaReporting op).1.state = .synced) :
    (b.onDeltaReporting op).2.1.foldl (heed rd e) (visible rd e b.orders) =
      visible rd e (b.onDeltaReporting op).1.orders := by
  by_cases hadds : Mbo.AddsNothing b op
  · obtain ⟨id, isBid, price, hreport, horders, -⟩ := hadds.result
    rw [hreport, horders]
    exact (visible_insert b.orders ⟨id, isBid, price, 0⟩).symm
  · rw [← Mbo.mirror_step hs hadds, visible_foldl hzero]

/-- The orders that a whole book states. -/
theorem visible_orderSet (b : BookState) : b.orderSet.foldl (heed rd e) ∅ = visible rd e b.orders := by
  have hfold : ∀ (set : List OrderChange) (orders : Orders), set.foldl (heed rd e) (visible rd e orders) =
      visible rd e ((set.map fun c => (c.orderId, (⟨c.isBid, c.priceRaw, c.qtyRaw⟩ : RestingOrder))).foldl
        (fun orders o => orders.insert o.1 o.2) orders) := by
    intro set
    induction set with
    | nil => exact fun _ => rfl
    | cons c set ih =>
      intro orders
      rw [List.foldl_cons, List.map_cons, List.foldl_cons, ← ih, visible_insert]
  have hempty : visible rd e ∅ = (∅ : Seen P S) := rfl
  rw [← hempty, hfold]
  exact congrArg (visible rd e) (Mbo.mirrorOf_orderSet b)

/-- Without an order of size zero, a consumer can see the book. -/
theorem visible_eq_stated {b : BookState}
    (h : ∀ c ∈ b.orderSet, rd.size (asI64 c.qtyRaw) e.2 ≠ rd.zeroSize) : visible rd e b.orders = stated rd e b := by
  unfold visible stated
  rw [Mbo.mirrorOf_orderSet]
  ext1 id
  simp only [FinMap.get_mapVals, FinMap.get_filter]
  cases ho : b.orders.get id with
  | none => rfl
  | some o =>
    have hsize := h ⟨id, o.isBid, o.priceRaw, o.qtyRaw⟩ (Mbo.mem_orderSet.mpr ho)
    rw [Option.filter_some, if_pos (decide_eq_true hsize)]

theorem consumer_append (heard : List (BookEmit × Batch P S)) (b : BookEmit × Batch P S) :
    consumer rd (heard ++ [b]) = b.2.changes.foldl (take rd) (consumer rd heard) := by
  unfold consumer
  rw [List.foldl_append]
  rfl

omit [DecidableEq S] in
theorem wholeBook_append (heard : List (BookEmit × Batch P S)) (b : BookEmit × Batch P S) :
    wholeBook (heard ++ [b]) =
      match b.1 with
      | .rebaseline => true
      | .clear => false
      | .delta => wholeBook heard := by
  unfold wholeBook
  rw [List.foldl_append]
  rfl

theorem take_foldl_scaleChange (hzero : ∀ x, rd.size 0 x = rd.zeroSize) {d : InstrumentDefinition}
    (hd : (d.priceExponent, d.qtyExponent) = e) (cs : List OrderChange) (seen : Seen P S) :
    (cs.map (Run.scaleChange rd d)).foldl (take rd) seen = cs.foldl (heed rd e) seen := by
  rw [List.foldl_map]
  exact congrArg (fun f => cs.foldl f seen) (funext fun seen => funext fun c => take_scaleChange hzero hd seen c)

end Consumer

/-! ## A datagram -/

section Datagrams

variable {P S : Type}

/-- The batches of a book. -/
def heardBy (key : OrderBookKey) : Out P S → Option (BookEmit × Batch P S)
  | .book k mode b => if k = key then some (mode, b) else none
  | _ => none

/-- The order changes that a datagram's deltas have made to a book. -/
def View.reports (cx : Ctx) (v : View P S) (key : OrderBookKey) : List OrderChange :=
  if key.publisher = cx.publisher then (v.datagramChanges.filter fun e => e.1 = key.instrumentId).map Prod.snd else []

/-- A datagram owes the consumer of a book the whole book, or a clear. -/
def View.Owes (cx : Ctx) (v : View P S) (key : OrderBookKey) : Prop :=
  key.publisher = cx.publisher ∧ key.instrumentId ∈ v.changed ∧
    (key.instrumentId ∈ v.rebaselined ∨ key.instrumentId ∈ v.cleared)

/-- The messages of a datagram define the instrument of a book with constant exponents, and nothing goes out before its
end. -/
def Within (P S : Type) (e : Int × Int) (key : OrderBookKey) (cx : Ctx) : Rules P S where
  message _ m := ∀ d, m = .instrumentDefinition d → cx.publisher = key.publisher → d.instrumentId = key.instrumentId →
    (d.priceExponent, d.qtyExponent) = e
  publish _ _ := False

variable {rd : Render P S} {e : Int × Int} {key : OrderBookKey} {cx : Ctx} {v v' : View P S}

/-- A book that is written, and comes out of sync or with the orders it had. -/
theorem setBook_calm {k : OrderBookKey} {b x : BookState} (hb : v.books.get k = some b)
    (h : x.state = .synced → b.state = .synced ∧ x.orders = b.orders) :
    ∀ b', (v.books.insert k x).get key = some b' → b'.state = .synced →
      ∃ b, v.books.get key = some b ∧ b.state = .synced ∧ b'.orders = b.orders := by
  intro b' hb' hs
  rw [FinMap.get_insert] at hb'
  split at hb'
  · rename_i hk
    cases hb'
    exact ⟨b, hk ▸ hb, (h hs).1, (h hs).2⟩
  · exact ⟨b', hb', hs, rfl⟩

theorem get_of_erase {k : OrderBookKey} :
    ∀ b', (v.books.erase k).get key = some b' → b'.state = .synced →
      ∃ b, v.books.get key = some b ∧ b.state = .synced ∧ b'.orders = b.orders := by
  intro b' hb' hs
  rw [FinMap.get_erase] at hb'
  split at hb'
  · cases hb'
  · exact ⟨b', hb', hs, rfl⟩

theorem heardBy_emit (out : List (Out P S)) {o : Out P S} (h : heardBy key o = none) :
    (out ++ [o]).filterMap (heardBy key) = out.filterMap (heardBy key) := by
  rw [List.filterMap_append, List.filterMap_cons_none h, List.filterMap_nil, List.append_nil]

theorem heardBy_quiet {o : Out P S} (h : o.quiet = true) : heardBy key o = none := by
  cases o with
  | book => cases h
  | _ => rfl

/-- To name a Source ID changes nothing but the Source IDs. -/
theorem reveal_eq (v : View P S) (k : OrderBookKey) (sourceId : Nat) (d : InstrumentDefinition) (symbol : String) :
    v.reveal rd cx k sourceId d symbol =
      { v with revealed := v.revealed.insert k sourceId, out := (v.reveal rd cx k sourceId d symbol).out } := by
  unfold View.reveal
  cases v.revealed.get k <;> rfl

theorem reveal_heard (v : View P S) (k : OrderBookKey) (sourceId : Nat) (d : InstrumentDefinition) (symbol : String) :
    (v.reveal rd cx k sourceId d symbol).out.filterMap (heardBy key) = v.out.filterMap (heardBy key) := by
  unfold View.reveal View.emit
  simp only
  rw [heardBy_emit _ rfl, heardBy_emit _ rfl]
  split
  · rfl
  · exact heardBy_emit _ rfl

/-- A delta reports nothing, or is applied. -/
theorem applied_of_report {b : BookState} {op : DeltaOp} (h : (b.onDeltaReporting op).2.1 ≠ []) :
    (b.onDeltaReporting op).2.2 = true := by
  have happly : ∀ (b : BookState) (kind : Mbo.DeltaKind), (b.apply kind).2.1 ≠ [] → (b.apply kind).2.2 = true := by
    intro b kind h
    cases kind with
    | add id isBid price qty =>
      unfold BookState.apply at h ⊢
      simp only at h ⊢
      split
      · rename_i hrem
        rw [if_pos hrem] at h
        exact absurd rfl h
      · split <;> rfl
    | cancel id =>
      unfold BookState.apply
      simp only
      split <;> rfl
    | execute id qty full =>
      unfold BookState.apply
      simp only
      split <;> rfl
  unfold BookState.onDeltaReporting at h ⊢
  split at h
  · exact absurd rfl h
  · rcases b.applyOrRecover_cases op with ⟨-, he⟩ | ⟨-, he⟩ | ⟨-, he⟩
    · rw [he] at h
      exact absurd rfl h
    · rw [he] at h
      exact absurd rfl h
    · rw [he] at h ⊢
      exact happly _ _ h

variable [DecidableEq S]

/-- Between the messages of a datagram, of a book whose consumer had `seen` before it: a synced book is owed, or its
consumer does not count, or it is what the consumer will have seen. -/
structure InStep (rd : Render P S) (e : Int × Int) (key : OrderBookKey) (stale : Prop) (seen : Seen P S)
    (cx : Ctx) (v : View P S) : Prop where
  exponents : ∀ d, v.defs key.publisher key.instrumentId = some d → (d.priceExponent, d.qtyExponent) = e
  dirty : v.reports cx key ≠ [] → key.instrumentId ∈ v.changed
  silent : v.out.filterMap (heardBy key) = []
  synced : ∀ b, v.books.get key = some b → b.state = .synced →
    v.Owes cx key ∨ stale ∨ (v.reports cx key).foldl (heed rd e) seen = visible rd e b.orders

variable {stale : Prop} {seen : Seen P S}

/-- A move that syncs no book, and tells of none. -/
theorem InStep.calm (h : InStep rd e key stale seen cx v)
    (hbooks : ∀ b', v'.books.get key = some b' → b'.state = .synced →
      ∃ b, v.books.get key = some b ∧ b.state = .synced ∧ b'.orders = b.orders)
    (hdefs : ∀ d, v'.defs key.publisher key.instrumentId = some d → (d.priceExponent, d.qtyExponent) = e)
    (hreports : v'.datagramChanges = v.datagramChanges) (hchanged : v.changed ⊆ v'.changed)
    (hrebaselined : v.rebaselined ⊆ v'.rebaselined) (hcleared : v.cleared ⊆ v'.cleared)
    (hout : v'.out.filterMap (heardBy key) = v.out.filterMap (heardBy key)) : InStep rd e key stale seen cx v' := by
  have hsame : v'.reports cx key = v.reports cx key := by
    unfold View.reports
    rw [hreports]
  refine ⟨hdefs, fun hne => hchanged (h.dirty (hsame ▸ hne)), hout.trans h.silent, fun b' hb' hs => ?_⟩
  obtain ⟨b, hb, hsb, horders⟩ := hbooks b' hb' hs
  rw [hsame, horders]
  rcases h.synced b hb hsb with ⟨hp, hin, howed⟩ | hfine
  · exact .inl ⟨hp, hchanged hin, howed.imp (fun hr => hrebaselined hr) fun hc => hcleared hc⟩
  · exact .inr hfine

omit [DecidableEq S] in
/-- A delta adds what it reports to the reports of its book. -/
theorem reports_delta (cx : Ctx) (v : View P S) (key : OrderBookKey) (id : Nat) (op : DeltaOp) (b : BookState) :
    (v.delta cx id op b).reports cx key =
      v.reports cx key ++ if key = ⟨cx.publisher, id⟩ then (b.onDeltaReporting op).2.1 else [] := by
  have hown : ∀ (cs : List OrderChange) (i : Nat), ((cs.map fun c => (id, c)).filter fun e => e.1 = i).map Prod.snd =
      if i = id then cs else [] := by
    intro cs i
    rw [List.filter_map, List.map_map]
    split
    · rename_i hi
      have hall : cs.filter ((fun e : Nat × OrderChange => decide (e.1 = i)) ∘ fun c => (id, c)) = cs :=
        List.filter_eq_self.mpr fun c _ => decide_eq_true hi.symm
      rw [hall]
      exact List.map_id cs
    · rename_i hi
      rw [List.filter_eq_nil_iff.mpr fun c _ => by simpa using fun h : id = i => hi h.symm, List.map_nil]
  unfold View.reports
  by_cases hp : key.publisher = cx.publisher
  · rw [if_pos hp, if_pos hp]
    show ((v.datagramChanges ++ (b.onDeltaReporting op).2.1.map fun c => (id, c)).filter _).map Prod.snd = _
    rw [List.filter_append, List.map_append, hown]
    congr 1
    by_cases hi : key.instrumentId = id
    · rw [if_pos hi, if_pos (by rw [← hp, ← hi])]
    · rw [if_neg hi, if_neg fun hk => hi (congrArg OrderBookKey.instrumentId hk)]
  · rw [if_neg hp, if_neg hp, if_neg fun hk => hp (congrArg OrderBookKey.publisher hk)]
    rfl

theorem InStep.delta (hzero : ∀ x, rd.size 0 x = rd.zeroSize) (h : InStep rd e key stale seen cx v) {id : Nat}
    {op : DeltaOp} {b : BookState} (hb : v.books.get ⟨cx.publisher, id⟩ = some b) :
    InStep rd e key stale seen cx (v.delta cx id op b) := by
  have hchanged : v.changed ⊆ (v.delta cx id op b).changed := by
    show v.changed ⊆ if (b.onDeltaReporting op).2.2 then insert id v.changed else v.changed
    split
    · exact Finset.subset_insert _ _
    · exact fun _ hi => hi
  by_cases hkey : key = ⟨cx.publisher, id⟩
  · -- the delta is one on the book
    subst hkey
    have hreports := reports_delta cx v ⟨cx.publisher, id⟩ id op b
    rw [if_pos rfl] at hreports
    have hdirty : (v.delta cx id op b).reports cx ⟨cx.publisher, id⟩ ≠ [] → id ∈ (v.delta cx id op b).changed := by
      intro hne
      rw [hreports] at hne
      by_cases hold : v.reports cx ⟨cx.publisher, id⟩ = []
      · rw [hold, List.nil_append] at hne
        show id ∈ if (b.onDeltaReporting op).2.2 then insert id v.changed else v.changed
        rw [if_pos (applied_of_report hne)]
        exact Finset.mem_insert_self _ _
      · exact hchanged (h.dirty hold)
    refine ⟨h.exponents, hdirty, h.silent, fun b' hb' hs => ?_⟩
    have hb' : (v.books.insert ⟨cx.publisher, id⟩ (b.onDeltaReporting op).1).get ⟨cx.publisher, id⟩ = some b' := hb'
    rw [FinMap.get_insert_self] at hb'
    cases hb'
    rcases h.synced b hb (Mbo.synced_before hs) with ⟨hp, hin, howed⟩ | hstale | hseen
    · exact .inl ⟨hp, hchanged hin, howed⟩
    · exact .inr (.inl hstale)
    · refine .inr (.inr ?_)
      rw [hreports, List.foldl_append, hseen, visible_delta hzero hs]
  · -- it is one on another book
    have hsame := reports_delta cx v key id op b
    rw [if_neg hkey, List.append_nil] at hsame
    refine ⟨h.exponents, fun hne => hchanged (h.dirty (hsame ▸ hne)), h.silent, fun b' hb' hs => ?_⟩
    have hb' : (v.books.insert ⟨cx.publisher, id⟩ (b.onDeltaReporting op).1).get key = some b' := hb'
    rw [FinMap.get_insert_of_ne _ _ hkey] at hb'
    rw [hsame]
    exact (h.synced b' hb' hs).imp_left fun ⟨hp, hin, howed⟩ => ⟨hp, hchanged hin, howed⟩

/-- The end of a group: what it installs is owed. -/
theorem InStep.snapshotEnd (h : InStep rd e key stale seen cx v) (s : CodecMbo.SnapshotEnd) {b : BookState}
    (hb : v.books.get ⟨cx.publisher, s.instrumentId⟩ = some b) :
    InStep rd e key stale seen cx (v.snapshotEnd cx s b) := by
  rcases b.onSnapshotEnd_cases s.anchorSeq s.snapshotId with ⟨-, heq⟩ | ⟨g, -, heq⟩ | ⟨g, -, -, heq⟩
  · have hview : v.snapshotEnd cx s b = v.setBook ⟨cx.publisher, s.instrumentId⟩ b := by
      unfold View.snapshotEnd
      rw [heq]
      rfl
    rw [hview]
    exact h.calm (setBook_calm hb fun hs => ⟨hs, rfl⟩) h.exponents rfl subset_rfl subset_rfl subset_rfl rfl
  · have hview : v.snapshotEnd cx s b =
        v.setBook ⟨cx.publisher, s.instrumentId⟩ { b with building := none, state := .recovering } := by
      unfold View.snapshotEnd
      rw [heq]
      rfl
    rw [hview]
    exact h.calm (setBook_calm hb nofun) h.exponents rfl subset_rfl subset_rfl subset_rfl rfl
  · have hinstalled : (b.onSnapshotEnd s.anchorSeq s.snapshotId).2 = true := by rw [heq]
    have hchanged : (v.snapshotEnd cx s b).changed = insert s.instrumentId v.changed := if_pos hinstalled
    have hrebaselined : (v.snapshotEnd cx s b).rebaselined = insert s.instrumentId v.rebaselined := if_pos hinstalled
    have hreports : (v.snapshotEnd cx s b).reports cx key = v.reports cx key := rfl
    refine ⟨h.exponents, fun hne => ?_, h.silent, fun b' hb' hs => ?_⟩
    · rw [hchanged]
      exact Finset.mem_insert_of_mem (h.dirty (hreports ▸ hne))
    · have hb' : (v.books.insert ⟨cx.publisher, s.instrumentId⟩ (b.onSnapshotEnd s.anchorSeq s.snapshotId).1).get key =
        some b' := hb'
      unfold View.Owes
      rw [hchanged, hrebaselined, hreports]
      by_cases hkey : key = ⟨cx.publisher, s.instrumentId⟩
      · subst hkey
        exact .inl ⟨rfl, Finset.mem_insert_self _ _, .inl (Finset.mem_insert_self _ _)⟩
      · rw [FinMap.get_insert_of_ne _ _ hkey] at hb'
        exact (h.synced b' hb' hs).imp_left fun ⟨hp, hin, howed⟩ =>
          ⟨hp, Finset.mem_insert_of_mem hin, howed.imp_left Finset.mem_insert_of_mem⟩

/-- **Every move of a datagram keeps a book in step with its consumer.** -/
theorem InStep.move (hzero : ∀ x, rd.size 0 x = rd.zeroSize) (hm : Move rd cx (Within P S e key cx) v v')
    (h : InStep rd e key stale seen cx v) : InStep rd e key stale seen cx v' := by
  have hsame : ∀ b', v.books.get key = some b' → b'.state = .synced →
      ∃ b, v.books.get key = some b ∧ b.state = .synced ∧ b'.orders = b.orders := fun b' hb' hs => ⟨b', hb', hs, rfl⟩
  cases hm with
  | tell o hq => exact h.calm hsame h.exponents rfl subset_rfl subset_rfl subset_rfl (heardBy_emit _ (heardBy_quiet hq))
  | forgetPath k market hmarket | report k synced market hnew hmarket hsynced =>
    exact h.calm hsame h.exponents rfl subset_rfl subset_rfl subset_rfl (heardBy_emit _ rfl)
  | touch ids => exact h.calm hsame h.exponents rfl subset_rfl subset_rfl subset_rfl rfl
  | unreveal k hk => exact h.calm hsame h.exponents rfl subset_rfl subset_rfl subset_rfl rfl
  | unstamp k => exact h.calm hsame h.exponents rfl subset_rfl subset_rfl subset_rfl rfl
  | purgeNames p hp => exact h.calm hsame h.exponents rfl subset_rfl subset_rfl subset_rfl rfl
  | label d hd channel => exact h.calm hsame h.exponents rfl subset_rfl subset_rfl subset_rfl rfl
  | fresh id hd hb =>
    refine h.calm (fun b' hb' hs => ?_) h.exponents rfl subset_rfl subset_rfl subset_rfl rfl
    have hb' : (v.books.insert ⟨cx.publisher, id⟩ .new).get key = some b' := hb'
    rw [FinMap.get_insert] at hb'
    split at hb'
    · cases hb'
      cases hs
    · exact hsame b' hb' hs
  | drop k => exact h.calm get_of_erase h.exponents rfl subset_rfl subset_rfl subset_rfl rfl
  | purgeBooks p hp =>
    refine h.calm (fun b' hb' hs => ?_) h.exponents rfl subset_rfl subset_rfl subset_rfl rfl
    have hb' : (v.books.filter fun k _ => !decide (k.publisher = p)).get key = some b' := hb'
    rw [FinMap.get_filter, Option.filter_eq_some_iff] at hb'
    exact hsame b' hb'.1 hs
  | undefine defs hdefs =>
    exact h.calm hsame (fun d hd => h.exponents d (hdefs _ _ d hd)) rfl subset_rfl subset_rfl subset_rfl rfl
  | define v₀ d hd defs hdefs =>
    refine h.calm hsame (fun d' hd' => ?_) rfl subset_rfl subset_rfl subset_rfl rfl
    rcases hdefs _ _ d' hd' with hold | ⟨hp, hi, rfl⟩
    · exact h.exponents d' hold
    · exact hd d' rfl hp.symm hi.symm
  | revealDefined v₀ d d' hd hbooks hrevealed sourceId hsource hdef hnew symbol =>
    rw [reveal_eq]
    exact h.calm hsame h.exponents rfl subset_rfl subset_rfl subset_rfl (reveal_heard v _ _ _ _)
  | reveal v₀ m hd id sourceId d hdef hnew symbol due =>
    rw [reveal_eq]
    have hout : (v.reveal rd cx ⟨cx.publisher, id⟩ sourceId d symbol).out.filterMap (heardBy key) =
      v.out.filterMap (heardBy key) := reveal_heard v _ _ _ _
    cases due with
    | none =>
      exact h.calm hsame h.exponents rfl (Finset.subset_insert _ _) subset_rfl (Finset.subset_insert _ _) hout
    | some nowNs =>
      exact h.calm hsame h.exponents rfl (Finset.subset_insert _ _) (Finset.subset_insert _ _) subset_rfl hout
  | delta v₀ m hd id op b hb => exact h.delta hzero hb
  | snapshotBegin v₀ s hd b hb =>
    refine h.calm (setBook_calm hb fun hs => ?_) h.exponents rfl subset_rfl subset_rfl subset_rfl rfl
    rcases Mbo.onSnapshotBegin_cases b s.snapshotId s.anchorSeq s.totalOrders s.lastInstrumentSeq with
      heq | ⟨-, g, -, -, heq⟩
    · rw [heq] at hs ⊢
      exact ⟨hs, rfl⟩
    · rw [heq] at hs ⊢
      exact ⟨hs, rfl⟩
  | snapshotOrder s hd =>
    refine h.calm (fun b' hb' hs => ?_) h.exponents rfl subset_rfl subset_rfl subset_rfl rfl
    have hb' : (v.books.mapEntries fun k b =>
        if k.publisher = cx.publisher then
          b.onSnapshotOrder s.snapshotId s.orderId (decide (s.side = SIDE_BID)) s.priceRaw s.qtyRaw
        else b).get key = some b' := hb'
    rw [FinMap.get_mapEntries, Option.map_eq_some_iff] at hb'
    obtain ⟨b, hb, hentry⟩ := hb'
    split at hentry
    · rcases Mbo.onSnapshotOrder_cases b s.snapshotId s.orderId (decide (s.side = SIDE_BID)) s.priceRaw s.qtyRaw with
        heq | ⟨g, g', -, -, -, heq⟩
      · exact ⟨b, hb, by rw [← hentry, heq] at hs; exact hs, by rw [← hentry, heq]⟩
      · exact ⟨b, hb, by rw [← hentry, heq] at hs; exact hs, by rw [← hentry, heq]⟩
    · exact ⟨b, hb, hentry ▸ hs, hentry ▸ rfl⟩
  | snapshotEnd v₀ s hd b hb => exact h.snapshotEnd s hb
  | endSession =>
    refine h.calm (fun b' hb' hs => ?_) h.exponents rfl subset_rfl subset_rfl subset_rfl rfl
    have hb' : (v.books.mapVals BookState.onEndOfSession).get key = some b' := hb'
    rw [FinMap.get_mapVals, Option.map_eq_some_iff] at hb'
    obtain ⟨b, -, rfl⟩ := hb'
    cases hs
  | resetBook id newAnchorSeq b hb =>
    exact h.calm (setBook_calm hb nofun) h.exponents rfl subset_rfl subset_rfl subset_rfl rfl
  | publish v₀ id hin hfin => exact hfin.elim
  | pass v₀ id hin hfin => exact hfin.elim

end Datagrams

/-! ## The end of a datagram -/

section Ends

variable {P S : Type} {rd : Render P S} {cx : Ctx} {key : OrderBookKey} {f : Frame P S} {r r' : Run P S}

/-- The books of a processor, and what is known of their instruments, stay. -/
structure Unmoved (p p' : MboProcessor) : Prop where
  books : p'.books = p.books
  revealed : p'.revealed = p.revealed
  channels : p'.pendingChannel = p.pendingChannel
  state : p'.state = p.state

theorem Unmoved.refl (p : MboProcessor) : Unmoved p p := ⟨rfl, rfl, rfl, rfl⟩

theorem Unmoved.trans {p p' p'' : MboProcessor} (h : Unmoved p p') (h' : Unmoved p' p'') : Unmoved p p'' :=
  ⟨h'.books.trans h.books, h'.revealed.trans h.revealed, h'.channels.trans h.channels, h'.state.trans h.state⟩

theorem Unmoved.published (h : Unmoved r.proc r'.proc) (id : Nat) :
    (r'.view [] f).published rd cx id = (r.view [] f).published rd cx id := by
  unfold View.published Run.view Frame.view
  simp only
  rw [h.books, h.revealed, h.state]
  rfl

/-- What is told of a book, where it is asked for: nothing if nothing is published of it, else one batch. -/
inductive Tells (rd : Render P S) (cx : Ctx) (f : Frame P S) (key : OrderBookKey) (asked : Prop) (r r' : Run P S) :
    Prop where
  | nothing (hout : r'.out.filterMap (heardBy key) = r.out.filterMap (heardBy key))
      (hnone : asked → (r.view [] f).published rd cx key.instrumentId = [])
  | batch (hasked : asked) (b : Batch P S)
      (hout : r'.out.filterMap (heardBy key) = r.out.filterMap (heardBy key) ++ [(f.modeOf key.instrumentId, b)])
      (hchanges : b.changes = (r.view [] f).published rd cx key.instrumentId)
      (hne : (r.view [] f).published rd cx key.instrumentId ≠ [])

theorem emitDepth_unmoved (rd : Render P S) (cx : Ctx) (key : OrderBookKey) (r : Run P S) (id : Nat) :
    Unmoved r.proc (r.emitDepth rd cx id).proc ∧
      (r.emitDepth rd cx id).out.filterMap (heardBy key) = r.out.filterMap (heardBy key) := by
  unfold Run.emitDepth
  simp only
  split
  · split
    · split
      · exact ⟨.refl _, rfl⟩
      · exact ⟨⟨rfl, rfl, rfl, rfl⟩, heardBy_emit _ rfl⟩
    · exact ⟨.refl _, rfl⟩
  · exact ⟨.refl _, rfl⟩

/-- One instrument has its turn. -/
theorem emitOne_tells (rd : Render P S) (cx : Ctx) (key : OrderBookKey) (f : Frame P S) (r : Run P S) (id : Nat) :
    Unmoved r.proc (f.emitOne rd cx r id).proc ∧
      Tells rd cx f key (key = ⟨cx.publisher, id⟩) r (f.emitOne rd cx r id) := by
  unfold Frame.emitOne
  obtain ⟨hdepth, hheard⟩ := emitDepth_unmoved rd cx key r id
  generalize r.emitDepth rd cx id = r₁ at hdepth hheard ⊢
  rcases emitBook_cases rd cx [] f r₁ id with ⟨hnothing, heq⟩ | ⟨batch, -, hchanges, hne, heq⟩
  · rw [heq]
    refine ⟨hdepth, .nothing hheard fun hkey => ?_⟩
    subst hkey
    rw [← hdepth.published]
    exact hnothing
  · rw [heq]
    refine ⟨hdepth, ?_⟩
    rw [hdepth.published] at hchanges hne
    by_cases hkey : key = ⟨cx.publisher, id⟩
    · subst hkey
      refine .batch rfl batch ?_ hchanges hne
      show (r₁.out ++ [_]).filterMap _ = _
      rw [List.filterMap_append, hheard]
      exact congrArg _ (List.filterMap_cons_some (if_pos rfl))
    · have hother : heardBy key (.book ⟨cx.publisher, id⟩ ((r₁.view [] f).mode id) batch) = none :=
        if_neg fun h => hkey h.symm
      exact .nothing ((heardBy_emit _ hother).trans hheard) fun h => absurd h hkey

/-- The instruments have their turn, one after the other. -/
theorem emit_foldl_tells (rd : Render P S) (cx : Ctx) (key : OrderBookKey) (f : Frame P S) :
    ∀ (ids : List Nat) (r : Run P S), ids.Nodup → Unmoved r.proc (ids.foldl (f.emitOne rd cx) r).proc ∧
      Tells rd cx f key (key.publisher = cx.publisher ∧ key.instrumentId ∈ ids) r (ids.foldl (f.emitOne rd cx) r)
  | [], r, _ => ⟨.refl _, .nothing rfl fun h => absurd h.2 List.not_mem_nil⟩
  | id :: ids, r, hnodup => by
    obtain ⟨hout, hrest⟩ := List.nodup_cons.mp hnodup
    obtain ⟨hunmoved, hone⟩ := emitOne_tells rd cx key f r id
    obtain ⟨hunmoved', hmany⟩ := emit_foldl_tells rd cx key f ids (f.emitOne rd cx r id) hrest
    have hkey : key.publisher = cx.publisher → key.instrumentId = id → key = ⟨cx.publisher, id⟩ := by
      intro hp hi
      rw [← hp, ← hi]
    refine ⟨hunmoved.trans hunmoved', ?_⟩
    rw [List.foldl_cons]
    cases hmany with
    | nothing hsilent hnone =>
      rw [hunmoved.published] at hnone
      cases hone with
      | nothing hsilent' hnone' =>
        refine .nothing (hsilent.trans hsilent') fun ⟨hp, hin⟩ => ?_
        rcases List.mem_cons.mp hin with hi | hin
        · exact hnone' (hkey hp hi)
        · exact hnone ⟨hp, hin⟩
      | batch hasked b hheard hchanges hne =>
        subst hasked
        exact .batch ⟨rfl, List.mem_cons_self⟩ b (hsilent.trans hheard) hchanges hne
    | batch hasked b hheard hchanges hne =>
      rw [hunmoved.published] at hchanges hne
      refine .batch ⟨hasked.1, List.mem_cons_of_mem _ hasked.2⟩ b ?_ hchanges hne
      cases hone with
      | nothing hsilent' hnone' => rw [hheard, hsilent']
      | batch hasked' =>
        subst hasked'
        exact absurd hasked.2 hout

theorem reports_unmoved (rd : Render P S) (cx : Ctx) (key : OrderBookKey) (ids : List Nat) (r : Run P S) :
    Unmoved r.proc (ids.foldl (fun r id => r.reportSynced rd cx id) r).proc ∧
      (ids.foldl (fun r id => r.reportSynced rd cx id) r).out.filterMap (heardBy key) =
        r.out.filterMap (heardBy key) := by
  induction ids generalizing r with
  | nil => exact ⟨.refl _, rfl⟩
  | cons id ids ih =>
    obtain ⟨hrest, hout⟩ := ih (r.reportSynced rd cx id)
    have hone : Unmoved r.proc (r.reportSynced rd cx id).proc ∧
        (r.reportSynced rd cx id).out.filterMap (heardBy key) = r.out.filterMap (heardBy key) := by
      unfold Run.reportSynced Run.setSynced
      simp only
      split
      · exact ⟨.refl _, rfl⟩
      · split
        · exact ⟨.refl _, rfl⟩
        · exact ⟨⟨rfl, rfl, rfl, rfl⟩, heardBy_emit _ rfl⟩
    exact ⟨hone.1.trans hrest, hout.trans hone.2⟩

/-- **The end of a datagram** moves no book, and tells of those that changed. -/
theorem emitPass_tells (rd : Render P S) (cx : Ctx) (key : OrderBookKey) (f : Frame P S) :
    Unmoved f.proc (f.emitPass rd cx).proc ∧
      Tells rd cx f key (key.publisher = cx.publisher ∧ key.instrumentId ∈ f.changed) f.toRun (f.emitPass rd cx) := by
  unfold Frame.emitPass
  simp only
  obtain ⟨hreports, hsilent⟩ := reports_unmoved rd cx key (f.touched.sort (· ≤ ·)) f.toRun
  generalize (f.touched.sort (· ≤ ·)).foldl (fun r id => r.reportSynced rd cx id) f.toRun = r at hreports hsilent ⊢
  obtain ⟨hemit, htells⟩ := emit_foldl_tells rd cx key f (f.changed.sort (· ≤ ·)) r
    (Finset.sort_nodup _ _)
  refine ⟨hreports.trans hemit, ?_⟩
  simp only [Finset.mem_sort] at htells
  cases htells with
  | nothing hout hnone =>
    rw [hreports.published] at hnone
    exact .nothing (hout.trans hsilent) hnone
  | batch hasked b hout hchanges hne =>
    rw [hreports.published] at hchanges hne
    exact .batch hasked b (by rw [hout, hsilent]) hchanges hne

/-- A datagram whose messages are received. -/
def received (rd : Render P S) (cx : Ctx) (p : MboProcessor) (d : Datagram) : Frame P S :=
  d.messages.foldl (Frame.onMessage rd cx d.header) (begin rd cx d.header p)

theorem onDatagram_eq (rd : Render P S) (cx : Ctx) (p : MboProcessor) (d : Datagram) :
    onDatagram rd cx p d = (received rd cx p d).emitPass rd cx := rfl

theorem received_steps {R : Rules P S} (p : MboProcessor) (d : Datagram) (hm : ∀ v, ∀ m ∈ d.messages, R.message v m) :
    Steps rd cx R (p.view []) ((received rd cx p d).view []) := by
  have hmessages : ∀ (ms : List Message) (f : Frame P S), (∀ v, ∀ m ∈ ms, R.message v m) →
      Steps rd cx R (f.view []) ((ms.foldl (Frame.onMessage rd cx d.header) f).view []) := by
    intro ms
    induction ms with
    | nil => exact fun _ _ => .refl
    | cons m ms ih =>
      intro f hm
      exact (onMessage_steps d.header f m (hm _ m List.mem_cons_self)).trans
        (ih _ fun v m' hin => hm v m' (List.mem_cons_of_mem _ hin))
  exact (begin_steps d.header p).trans (hmessages d.messages _ hm)

end Ends

/-! ## Runs -/

/-- The market key of a book, and the batches of the book since it adopted it. -/
structure Adopted (P S : Type) where
  market : Option BookKey
  heard : List (BookEmit × Batch P S)

section Runs

variable {P S : Type}

/-- One datagram: the batches of before count as long as it leaves the market key as it was. -/
def Adopted.after (rd : Render P S) (key : OrderBookKey) (s : MboProcessor × Adopted P S) (i : Input) :
    MboProcessor × Adopted P S :=
  let (p, out) := stepWith rd s.1 i
  let market := Run.marketKey rd i.cx p key
  let heard := out.filterMap (heardBy key)
  (p, ⟨market, if market = s.2.market then s.2.heard ++ heard else heard⟩)

def adopted (rd : Render P S) (is : List Input) (key : OrderBookKey) : Adopted P S :=
  (is.foldl (Adopted.after rd key) (.new, ⟨none, []⟩)).2

/-- The definitions of a book's instrument have one pair of exponents, and a datagram that changes the book leaves it
defined. -/
structure ConstantDefinitions (rd : Render P S) (key : OrderBookKey) (e : Int × Int) (is : List Input) : Prop where
  exponents : ∀ i ∈ is, i.cx.publisher = key.publisher → ∀ d, Message.instrumentDefinition d ∈ i.datagram.messages →
    d.instrumentId = key.instrumentId → (d.priceExponent, d.qtyExponent) = e
  known : ∀ u i v, is = u ++ i :: v → i.cx.publisher = key.publisher →
    key.instrumentId ∈ (received rd i.cx (after rd u) i.datagram).changed →
    ((after rd (u ++ [i])).state.definition key.publisher key.instrumentId).isSome = true

variable [DecidableEq S]

/-- After a datagram, a synced book has no market, or its whole book is not what went out last, or the consumer of its
batches can see it. -/
structure InStepAfter (rd : Render P S) (e : Int × Int) (key : OrderBookKey) (p : MboProcessor) (a : Adopted P S) :
    Prop where
  exponents : ∀ d, p.state.definition key.publisher key.instrumentId = some d → (d.priceExponent, d.qtyExponent) = e
  market : a.market.isSome = (p.revealed.get key).isSome
  synced : ∀ b, p.books.get key = some b → b.state = .synced →
    a.market = none ∨ wholeBook a.heard = false ∨ consumer rd a.heard = visible rd e b.orders

variable {rd : Render P S} {e : Int × Int} {key : OrderBookKey} {p : MboProcessor} {a : Adopted P S}

omit [DecidableEq S] in
/-- What is published of a synced book that has a market and a definition. -/
theorem published_synced {cx : Ctx} {v : View P S} {b : BookState} {d : InstrumentDefinition} {id sourceId : Nat}
    (hr : v.revealed.get ⟨cx.publisher, id⟩ = some sourceId) (hb : v.books.get ⟨cx.publisher, id⟩ = some b)
    (hs : b.state = .synced) (hd : v.defs cx.publisher id = some d) :
    v.published rd cx id = Run.bookChanges rd (v.mode id) d b id v.datagramChanges := by
  unfold View.published
  rw [hr, hb, hd]
  exact if_pos (decide_eq_true hs)

omit [DecidableEq S] in
/-- Nothing is published of a synced book, though it changed: it has no market, or nothing is owed of it and its deltas
reported nothing. -/
theorem published_nothing {cx : Ctx} {v : View P S} {b : BookState} (hp : key.publisher = cx.publisher)
    (hb : v.books.get key = some b) (hs : b.state = .synced)
    (hd : (v.defs key.publisher key.instrumentId).isSome = true)
    (hnone : v.published rd cx key.instrumentId = []) :
    v.revealed.get key = none ∨ (v.mode key.instrumentId = .delta ∧ v.reports cx key = []) := by
  have hkey : key = ⟨cx.publisher, key.instrumentId⟩ := by rw [← hp]
  cases hr : v.revealed.get key with
  | none => exact .inl rfl
  | some sourceId =>
    obtain ⟨d, hd⟩ := Option.isSome_iff_exists.mp hd
    rw [published_synced (hkey ▸ hr) (hkey ▸ hb) hs (hp ▸ hd)] at hnone
    refine .inr ?_
    cases hmode : v.mode key.instrumentId with
    | rebaseline =>
      rw [hmode] at hnone
      cases hnone
    | clear =>
      rw [hmode] at hnone
      cases hnone
    | delta =>
      rw [hmode] at hnone
      refine ⟨rfl, ?_⟩
      unfold View.reports
      rw [if_pos hp, List.map_eq_nil_iff]
      exact List.map_eq_nil_iff.mp hnone

omit [DecidableEq S] in
theorem mode_of_owes {cx : Ctx} {v : View P S} (h : v.Owes cx key) : v.mode key.instrumentId ≠ .delta := by
  unfold View.mode
  obtain ⟨-, -, howed⟩ := h
  split
  · nofun
  · rename_i hnot
    rw [if_pos (howed.resolve_left hnot)]
    nofun

/-- The batch of a synced book: the whole book, a clear, or what its deltas reported. -/
theorem consumer_published (hzero : ∀ x, rd.size 0 x = rd.zeroSize) {cx : Ctx} {v : View P S} {b : BookState}
    (hp : key.publisher = cx.publisher) (hb : v.books.get key = some b)
    (hexps : ∀ d, v.defs key.publisher key.instrumentId = some d → (d.priceExponent, d.qtyExponent) = e)
    (hne : v.published rd cx key.instrumentId ≠ []) (seen : Seen P S) :
    (v.mode key.instrumentId = .rebaseline →
      (v.published rd cx key.instrumentId).foldl (take rd) seen = visible rd e b.orders) ∧
    (v.mode key.instrumentId = .delta →
      (v.published rd cx key.instrumentId).foldl (take rd) seen = (v.reports cx key).foldl (heed rd e) seen) := by
  have hkey : key = ⟨cx.publisher, key.instrumentId⟩ := by rw [← hp]
  rw [hkey] at hb
  rw [hp] at hexps
  unfold View.published at hne ⊢
  rw [hb] at hne ⊢
  cases hr : v.revealed.get ⟨cx.publisher, key.instrumentId⟩ with
  | none =>
    rw [hr] at hne
    exact absurd rfl hne
  | some sourceId =>
    cases hd : v.defs cx.publisher key.instrumentId with
    | none =>
      rw [hr, hd] at hne
      exact absurd rfl hne
    | some d =>
      rw [hr, hd] at hne
      simp only at hne ⊢
      by_cases hs : b.isSynced = true
      · rw [if_pos hs]
        refine ⟨fun hmode => ?_, fun hmode => ?_⟩
        · rw [hmode]
          show (b.orderSet.map (Run.scaleChange rd d)).foldl (take rd) ∅ = _
          rw [take_foldl_scaleChange hzero (hexps d hd), visible_orderSet]
        · rw [hmode]
          unfold View.reports
          rw [if_pos hp]
          show (((v.datagramChanges.filter _).map fun e => Run.scaleChange rd d e.2)).foldl (take rd) seen = _
          rw [← take_foldl_scaleChange hzero (hexps d hd), List.map_map]
          rfl
      · rw [if_neg hs] at hne
        exact absurd rfl hne

/-- **One datagram.** -/
theorem InStepAfter.step (hzero : ∀ x, rd.size 0 x = rd.zeroSize) (h : InStepAfter rd e key p a) (i : Input)
    (hexps : i.cx.publisher = key.publisher → ∀ d, Message.instrumentDefinition d ∈ i.datagram.messages →
      d.instrumentId = key.instrumentId → (d.priceExponent, d.qtyExponent) = e)
    (hknown : i.cx.publisher = key.publisher → key.instrumentId ∈ (received rd i.cx p i.datagram).changed →
      ((stepWith rd p i).1.state.definition key.publisher key.instrumentId).isSome = true) :
    InStepAfter rd e key (stepWith rd p i).1 (Adopted.after rd key (p, a) i).2 := by
  have hbegin : InStep rd e key (a.market = none ∨ wholeBook a.heard = false) (consumer rd a.heard) i.cx
      (p.view [] : View P S) := by
    have hreports : (p.view [] : View P S).reports i.cx key = [] := by
      unfold View.reports
      split <;> rfl
    refine ⟨h.exponents, fun hne => absurd hreports hne, rfl, fun b hb hs => ?_⟩
    rw [hreports, or_assoc]
    exact .inr (h.synced b hb hs)
  have hsteps : Steps rd i.cx (Within P S e key i.cx) (p.view []) ((received rd i.cx p i.datagram).view []) :=
    received_steps p i.datagram fun v m hin d hd hp hi => hexps hp d (hd ▸ hin) hi
  have hstep := Steps.rule (fun v v' hm hv => InStep.move hzero hm hv) hsteps hbegin
  obtain ⟨hunmoved, htells⟩ := emitPass_tells rd i.cx key (received rd i.cx p i.datagram)
  rw [show (stepWith rd p i).1 = ((received rd i.cx p i.datagram).emitPass rd i.cx).proc from rfl] at hknown ⊢
  have hafter : (Adopted.after rd key (p, a) i).2 =
      ⟨Run.marketKey rd i.cx ((received rd i.cx p i.datagram).emitPass rd i.cx).proc key,
        if Run.marketKey rd i.cx ((received rd i.cx p i.datagram).emitPass rd i.cx).proc key = a.market then
          a.heard ++ ((received rd i.cx p i.datagram).emitPass rd i.cx).out.filterMap (heardBy key)
        else ((received rd i.cx p i.datagram).emitPass rd i.cx).out.filterMap (heardBy key)⟩ := rfl
  rw [hafter]
  generalize received rd i.cx p i.datagram = f at hstep hunmoved htells hknown ⊢
  generalize f.emitPass rd i.cx = r at hunmoved htells hknown ⊢
  have hmarket : Run.marketKey rd i.cx r.proc key = none ↔ f.proc.revealed.get key = none := by
    unfold Run.marketKey
    rw [hunmoved.revealed, Option.map_eq_none_iff]
  have hsilent : f.out.filterMap (heardBy key) = [] := hstep.silent
  refine ⟨?_, ?_, fun b hb hs => ?_⟩
  · rw [hunmoved.state]
    exact hstep.exponents
  · exact Option.isSome_map
  rw [hunmoved.books] at hb
  cases htells with
  | nothing hout hnone =>
    rw [hout, hsilent, List.append_nil]
    by_cases hsame : Run.marketKey rd i.cx r.proc key = a.market
    · rw [if_pos hsame]
      -- a book that the datagram changed has its definition, so that nothing goes out of it for a reason
      have hreason : key.publisher = i.cx.publisher → key.instrumentId ∈ (f.view []).changed →
          Run.marketKey rd i.cx r.proc key = none ∨
            ((f.view []).mode key.instrumentId = .delta ∧ (f.view []).reports i.cx key = []) := by
        intro hp hin
        have hd := hknown hp.symm hin
        rw [hunmoved.state] at hd
        exact (published_nothing hp hb hs hd (hnone ⟨hp, hin⟩)).imp_left hmarket.mpr
      rcases hstep.synced b hb hs with howes | hstale | hseen
      · exact (hreason howes.1 howes.2.1).imp_right fun hnot => absurd hnot.1 (mode_of_owes howes)
      · rw [hsame]
        exact hstale.imp_right .inl
      · by_cases hreports : (f.view []).reports i.cx key = []
        · rw [hreports] at hseen
          exact .inr (.inr hseen)
        · have hp : key.publisher = i.cx.publisher := by
            by_contra hp
            exact hreports (if_neg hp)
          exact (hreason hp (hstep.dirty hreports)).imp_right fun hnot => absurd hnot.2 hreports
    · rw [if_neg hsame]
      exact .inr (.inl rfl)
  | batch hasked batch hout hchanges hne =>
    rw [hout, hsilent, List.nil_append]
    obtain ⟨hrebaseline, hdelta⟩ := consumer_published hzero hasked.1 hb hstep.exponents hne
      (consumer rd (if Run.marketKey rd i.cx r.proc key = a.market then a.heard else []))
    have hbase : (if Run.marketKey rd i.cx r.proc key = a.market then
          a.heard ++ [(f.modeOf key.instrumentId, batch)] else [(f.modeOf key.instrumentId, batch)]) =
        (if Run.marketKey rd i.cx r.proc key = a.market then a.heard else []) ++
          [(f.modeOf key.instrumentId, batch)] := by
      split <;> rfl
    rw [hbase, wholeBook_append, consumer_append]
    simp only
    rw [hchanges]
    cases hmode : f.modeOf key.instrumentId with
    | rebaseline => exact .inr (.inr (hrebaseline hmode))
    | clear => exact .inr (.inl rfl)
    | delta =>
      by_cases hsame : Run.marketKey rd i.cx r.proc key = a.market
      · rw [if_pos hsame] at hdelta ⊢
        rcases hstep.synced b hb hs with howes | hstale | hseen
        · exact absurd hmode (mode_of_owes howes)
        · rw [hsame]
          exact hstale.imp_right .inl
        · exact .inr (.inr ((hdelta hmode).trans hseen))
      · rw [if_neg hsame]
        exact .inr (.inl rfl)

omit [DecidableEq S] in
theorem adopted_proc (rd : Render P S) (key : OrderBookKey) (is : List Input) (s : MboProcessor × Adopted P S) :
    (is.foldl (Adopted.after rd key) s).1 = (processor rd).exec s.1 is := by
  induction is generalizing s with
  | nil => rfl
  | cons i is ih => exact ih _

omit [DecidableEq S] in
theorem ConstantDefinitions.before {is js : List Input} (h : ConstantDefinitions rd key e (is ++ js)) :
    ConstantDefinitions rd key e is := by
  refine ⟨fun i hi => h.exponents i (List.mem_append_left _ hi), fun u i v hsplit => ?_⟩
  exact h.known u i (v ++ js) (by rw [hsplit, List.append_assoc, List.cons_append])

theorem inStepAfter_run (hzero : ∀ x, rd.size 0 x = rd.zeroSize) (is : List Input)
    (hconst : ConstantDefinitions rd key e is) : InStepAfter rd e key (after rd is) (adopted rd is key) := by
  induction is using List.reverseRecOn with
  | nil => exact ⟨nofun, rfl, nofun⟩
  | append_singleton is i ih =>
    have hstep := (ih hconst.before).step hzero i
      (hconst.exponents i (List.mem_append_right _ List.mem_cons_self))
      (by
        have hknown := hconst.known is i [] rfl
        rw [after_append] at hknown
        exact hknown)
    rw [after_append]
    have hadopted : adopted rd (is ++ [i]) key = (Adopted.after rd key (after rd is, adopted rd is key) i).2 := by
      unfold adopted
      rw [List.foldl_append]
      have hproc : (is.foldl (Adopted.after rd key) (.new, ⟨none, []⟩)).1 = after rd is := adopted_proc rd key is _
      rw [← hproc]
      rfl
    rw [hadopted]
    exact hstep

/-- **The emission mirrors the book.**  Under constant definitions: once the whole book went out under the market key of
a synced book, and no bare clear after it, the consumer of its batches has the orders of the book, if none of them is of
size zero. -/
theorem emission_mirrors_the_book (hzero : ∀ x, rd.size 0 x = rd.zeroSize) (is : List Input)
    (hconst : ConstantDefinitions rd key e is) (b : BookState) (hbook : (after rd is).books.get key = some b)
    (hsynced : b.isSynced = true) (hrevealed : ((after rd is).revealed.get key).isSome = true)
    (hwhole : wholeBook (adopted rd is key).heard = true)
    (hsized : ∀ c ∈ b.orderSet, rd.size (asI64 c.qtyRaw) e.2 ≠ rd.zeroSize) :
    consumer rd (adopted rd is key).heard = stated rd e b := by
  have hrun := inStepAfter_run hzero is hconst
  rcases hrun.synced b hbook (of_decide_eq_true hsynced) with hnone | hpart | hseen
  · rw [← hrun.market, hnone] at hrevealed
    cases hrevealed
  · rw [hpart] at hwhole
    cases hwhole
  · rw [hseen, visible_eq_stated hsized]

end Runs

/-! ## A book that moves to another Source ID -/

section Moved

def rawRender : Render ℤ ℤ := ⟨fun x _ => x, fun x _ => x, 0, 0, fun _ => ""⟩

def orderInput (sequence monoNs : Nat) (messages : List Message) : Input where
  cx := ⟨"c", 0, 0, .combined, 1, none, monoNs, false, []⟩
  datagram := ⟨⟨1, 0, sequence, 0, 0, 0, 0⟩, messages⟩

def addOf (sourceId seq orderId : Nat) : Message := .orderAdd ⟨7, sourceId, SIDE_BID, 0, seq, orderId, 0, 20, 3⟩

/-- A book is installed, and named by a delta. -/
def installedInput : Input :=
  orderInput 1 0 [.manifestSummary ⟨0, true, 1, 2, 0⟩, .instrumentDefinition ⟨7, none, "S", 0, 0, 1, 1⟩,
    .snapshotBegin ⟨7, 0, 1, 5, 0, 0⟩, .snapshotOrder ⟨5, 70, SIDE_BID, 0, 0, 10, 1⟩, .snapshotEnd ⟨7, 0, 5⟩,
    addOf 1 1 71]

/-- The next delta names another Source ID, at once. -/
def movedInput : Input := orderInput 2 1 [addOf 2 2 72]

/-- A datagram that touched and changed one instrument. -/
theorem emitPass_one {P S : Type} {rd : Render P S} {cx : Ctx} {f : Frame P S} {id : Nat} (htouched : f.touched = {id})
    (hchanged : f.changed = {id}) :
    f.emitPass rd cx = f.emitOne rd cx (f.toRun.reportSynced rd cx id) id := by
  unfold Frame.emitPass
  rw [htouched, hchanged, Finset.sort_singleton]
  rfl

def emitted (p : MboProcessor) (i : Input) : Run ℤ ℤ :=
  (received rawRender i.cx p i.datagram).emitOne rawRender i.cx
    ((received rawRender i.cx p i.datagram).toRun.reportSynced rawRender i.cx 7) 7

theorem stepWith_emitted {p : MboProcessor} {i : Input}
    (h : (received rawRender i.cx p i.datagram).touched = {7} ∧ (received rawRender i.cx p i.datagram).changed = {7}) :
    stepWith rawRender p i = ((emitted p i).proc, (emitted p i).out) := by
  unfold stepWith
  rw [onDatagram_eq, emitPass_one h.1 h.2]
  rfl

def installedProc : MboProcessor := (emitted .new installedInput).proc

theorem step_installed :
    stepWith rawRender .new installedInput = (installedProc, (emitted .new installedInput).out) :=
  stepWith_emitted (by decide +kernel)

theorem step_moved : stepWith rawRender installedProc movedInput =
    ((emitted installedProc movedInput).proc, (emitted installedProc movedInput).out) :=
  stepWith_emitted (by decide +kernel)

theorem after_installed : after rawRender [installedInput] = installedProc := by
  show (stepWith rawRender .new installedInput).1 = _
  rw [step_installed]

theorem after_moved : after rawRender [installedInput, movedInput] = (emitted installedProc movedInput).proc := by
  show (stepWith rawRender (stepWith rawRender .new installedInput).1 movedInput).1 = _
  rw [step_installed, step_moved]

theorem constant_installed : ConstantDefinitions rawRender ⟨1, 7⟩ (0, 0) [installedInput, movedInput] := by
  constructor
  · intro i hi _ d hd hid
    simp only [List.mem_cons, List.not_mem_nil, or_false] at hi
    rcases hi with rfl | rfl
    · simp only [installedInput, orderInput, addOf, List.mem_cons, reduceCtorEq, Message.instrumentDefinition.injEq,
        List.not_mem_nil, or_false, false_or] at hd
      rw [hd]
    · simp only [movedInput, orderInput, addOf, List.mem_cons, reduceCtorEq, List.not_mem_nil, or_false] at hd
  · intro u i v hsplit _ _
    rcases u with _ | ⟨x, _ | ⟨y, u⟩⟩
    · obtain ⟨rfl, -⟩ := List.cons.inj hsplit
      rw [List.nil_append, after_installed]
      decide +kernel
    · obtain ⟨rfl, hrest⟩ := List.cons.inj hsplit
      obtain ⟨rfl, -⟩ := List.cons.inj hrest
      show ((after rawRender [installedInput, movedInput]).state.definition 1 7).isSome = true
      rw [after_moved]
      decide +kernel
    · obtain ⟨-, hrest⟩ := List.cons.inj hsplit
      obtain ⟨-, hrest⟩ := List.cons.inj hrest
      cases u <;> cases hrest

theorem adopted_installed : adopted rawRender [installedInput] ⟨1, 7⟩ =
    ⟨Run.marketKey rawRender installedInput.cx installedProc ⟨1, 7⟩,
      (emitted .new installedInput).out.filterMap (heardBy ⟨1, 7⟩)⟩ := by
  show (Adopted.after rawRender ⟨1, 7⟩ (.new, ⟨none, []⟩) installedInput).2 = _
  unfold Adopted.after
  rw [step_installed]
  simp only
  split <;> rfl

theorem adopted_moved : adopted rawRender [installedInput, movedInput] ⟨1, 7⟩ =
    ⟨Run.marketKey rawRender movedInput.cx (emitted installedProc movedInput).proc ⟨1, 7⟩,
      (emitted installedProc movedInput).out.filterMap (heardBy ⟨1, 7⟩)⟩ := by
  show (Adopted.after rawRender ⟨1, 7⟩ ((stepWith rawRender .new installedInput).1,
    adopted rawRender [installedInput] ⟨1, 7⟩) movedInput).2 = _
  rw [step_installed, adopted_installed]
  unfold Adopted.after
  simp only
  rw [step_moved]
  simp only
  rw [if_neg (by decide +kernel)]

/-- No order of a book is of size zero. -/
def sized (b : BookState) : Bool := !b.orders.any fun _ o => decide (asI64 o.qtyRaw = 0)

theorem orderSet_sized {b : BookState} (h : sized b = true) :
    ∀ c ∈ b.orderSet, rawRender.size (asI64 c.qtyRaw) 0 ≠ rawRender.zeroSize := by
  intro c hc hzero
  have hany : (b.orders.any fun _ o => decide (asI64 o.qtyRaw = 0)) = true :=
    FinMap.any_eq_true.mpr ⟨c.orderId, _, Mbo.mem_orderSet.mp hc, decide_eq_true hzero⟩
  unfold sized at h
  rw [hany] at h
  cases h

theorem emission_mirrors_the_book_installed :
    wholeBook (adopted rawRender [installedInput] ⟨1, 7⟩).heard = true ∧
      ∃ b, (after rawRender [installedInput]).books.get ⟨1, 7⟩ = some b ∧
        consumer rawRender (adopted rawRender [installedInput] ⟨1, 7⟩).heard = stated rawRender (0, 0) b := by
  have hwhole : wholeBook (adopted rawRender [installedInput] ⟨1, 7⟩).heard = true := by
    rw [adopted_installed]
    decide +kernel
  have hrevealed : ((after rawRender [installedInput]).revealed.get ⟨1, 7⟩).isSome = true := by
    rw [after_installed]
    decide +kernel
  have hread : ((after rawRender [installedInput]).books.get ⟨1, 7⟩).map (fun b =>
      (b.isSynced, sized b)) = some (true, true) := by
    rw [after_installed]
    decide +kernel
  obtain ⟨b, hb, hbook⟩ := Option.map_eq_some_iff.mp hread
  obtain ⟨hsynced, hsized⟩ := Prod.mk.inj hbook
  exact ⟨hwhole, b, hb, emission_mirrors_the_book (fun _ => rfl) [installedInput] constant_installed.before b hb hsynced
    hrevealed hwhole (orderSet_sized hsized)⟩

/-- **A reveal that comes too soon after another hands on a bare clear**: the book rests three orders, and the consumer
of its market key has none. -/
theorem rate_limited_reveal_clears :
    ConstantDefinitions rawRender ⟨1, 7⟩ (0, 0) [installedInput, movedInput] ∧
      ((after rawRender [installedInput, movedInput]).revealed.get ⟨1, 7⟩).isSome = true ∧
      (∃ b ∈ (adopted rawRender [installedInput, movedInput] ⟨1, 7⟩).heard,
        b.2.changes.head? = some rawRender.clearBoth ∧
          some (batchMarket b.2) = (adopted rawRender [installedInput, movedInput] ⟨1, 7⟩).market) ∧
      ∃ b, (after rawRender [installedInput, movedInput]).books.get ⟨1, 7⟩ = some b ∧ b.isSynced = true ∧
        (∀ c ∈ b.orderSet, rawRender.size (asI64 c.qtyRaw) 0 ≠ rawRender.zeroSize) ∧
        consumer rawRender (adopted rawRender [installedInput, movedInput] ⟨1, 7⟩).heard ≠
          stated rawRender (0, 0) b := by
  have hread : ((after rawRender [installedInput, movedInput]).books.get ⟨1, 7⟩).map (fun b =>
      (b.isSynced, b.orders.get 70, sized b)) = some (true, some ⟨true, 10, 1⟩, true) := by
    rw [after_moved]
    decide +kernel
  obtain ⟨b, hb, hbook⟩ := Option.map_eq_some_iff.mp hread
  obtain ⟨hsynced, hbook⟩ := Prod.mk.inj hbook
  obtain ⟨hrests, hsized⟩ := Prod.mk.inj hbook
  have hheard : (adopted rawRender [installedInput, movedInput] ⟨1, 7⟩).heard =
      (emitted installedProc movedInput).out.filterMap (heardBy ⟨1, 7⟩) := by rw [adopted_moved]
  have hmarket : (adopted rawRender [installedInput, movedInput] ⟨1, 7⟩).market =
      Run.marketKey rawRender movedInput.cx (emitted installedProc movedInput).proc ⟨1, 7⟩ := by rw [adopted_moved]
  refine ⟨constant_installed, ?_, ?_, b, hb, hsynced, orderSet_sized hsized, fun heq => ?_⟩
  · rw [after_moved]
    decide +kernel
  · rw [hheard, hmarket]
    decide +kernel
  · have hget := congrArg (fun m => FinMap.get m 70) heq
    have hnone : (consumer rawRender (adopted rawRender [installedInput, movedInput] ⟨1, 7⟩).heard).get 70 = none := by
      rw [hheard]
      decide +kernel
    unfold stated at hget
    rw [Mbo.mirrorOf_orderSet] at hget
    simp only [hnone, FinMap.get_mapVals, hrests] at hget
    cases hget

end Moved

end EdgeConnect.MboFeed
