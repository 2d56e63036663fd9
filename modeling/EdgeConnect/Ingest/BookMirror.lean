import EdgeConnect.Ingest.BookLevels
import EdgeConnect.Ingest.BookRecovery

/-!
# Reported order changes against the book

A consumer starts from `order_set` and applies the changes each delta reports: a quantity of zero takes
the order out, any other sets it.

* `mirrorOf`, `mirrorOn`, `feed` — the consumer's map, one change, and a list of deltas with the book and
  the consumer side by side;
* `onDelta_report` — what one delta on a synced book reports against what it does to the orders;
* `AddsNothing` — an add of quantity zero that the book applies: the book rests it and the report says it
  is gone;
* `reports_mirror_the_book_iff` — the consumer has the book's orders after every delta exactly when no
  delta adds nothing, and a silent delta changes nothing unless it runs into the order cap.
-/

set_option autoImplicit false

namespace EdgeConnect.Mbo

variable {b : BookState}

/-! ## The consumer -/

/-- The consumer's map after one reported change. -/
def mirrorOn (orders : Orders) (c : OrderChange) : Orders :=
  if c.qtyRaw = 0 then orders.erase c.orderId
  else orders.insert c.orderId ⟨c.isBid, c.priceRaw, c.qtyRaw⟩

/-- The map a list of resting orders states. -/
def mirrorOf (set : List OrderChange) : Orders :=
  (set.map fun c => (c.orderId, (⟨c.isBid, c.priceRaw, c.qtyRaw⟩ : RestingOrder))).foldl
    (fun orders e => orders.insert e.1 e.2) ∅

/-- A book and a consumer of its reports, through a list of deltas. -/
def feed : BookState × Orders → List DeltaOp → BookState × Orders
  | s, [] => s
  | s, op :: ops =>
    feed ((s.1.onDeltaReporting op).1, (s.1.onDeltaReporting op).2.1.foldl mirrorOn s.2) ops

theorem feed_append : ∀ (ops later : List DeltaOp) (s : BookState × Orders),
    feed s (ops ++ later) = feed (feed s ops) later
  | [], _, _ => rfl
  | _ :: ops, later, _ => feed_append ops later _

/-- **`order_set` states the orders.** -/
theorem mirrorOf_orderSet (b : BookState) : mirrorOf b.orderSet = b.orders := by
  unfold mirrorOf
  refine FinMap.foldl_insert_eq fun id o => ?_
  rw [List.mem_map]
  constructor
  · rintro ⟨c, hc, he⟩
    rw [Prod.mk.injEq] at he
    obtain ⟨rfl, rfl⟩ := he
    exact mem_orderSet.mp hc
  · intro ho
    exact ⟨⟨id, o.isBid, o.priceRaw, o.qtyRaw⟩, mem_orderSet.mpr ho, rfl⟩

/-! ## One delta -/

/-- The next delta in sequence adds an order of quantity zero that the book accepts. -/
def AddsNothing (b : BookState) (op : DeltaOp) : Prop :=
  b.state = .synced ∧ op.seq = b.lastInstrSeq + 1 ∧ ∃ id isBid price, op.kind = .add id isBid price 0 ∧
    id ∉ b.removed ∧ ¬ (b.orders.size ≥ MAX_ORDERS_PER_BOOK ∧ b.orders.contains id = false)

/-- What a delta on a synced book reports, against what it does to the orders. -/
inductive Reported (b : BookState) (op : DeltaOp) : BookState × List OrderChange → Prop where
  | silent {b' : BookState} (horders : b'.orders = b.orders) : Reported b op (b', [])
  | capped {b' : BookState} (hcap : HitsCap b op) (hdrop : b'.state = .recovering) :
    Reported b op (b', [])
  | change {b' : BookState} {c : OrderChange} (horders : b'.orders = mirrorOn b.orders c)
      (hnot : ¬ AddsNothing b op) : Reported b op (b', [c])
  | emptyAdd {b' : BookState} {id : Nat} {isBid : Bool} {price : Int} (hadds : AddsNothing b op)
      (hsynced : b'.state = .synced) (horders : b'.orders.get id = some ⟨isBid, price, 0⟩) :
    Reported b op (b', [⟨id, isBid, price, 0⟩])

theorem not_addsNothing {op : DeltaOp} (h : ∀ id isBid price, op.kind ≠ .add id isBid price 0) :
    ¬ AddsNothing b op := by
  rintro ⟨-, -, id, isBid, price, hk, -⟩
  exact h id isBid price hk

/-- An applied kill or fill is reported as what it leaves of the order. -/
theorem apply_report (hs : b.state = .synced) {op : DeltaOp} (hseq : op.seq = b.lastInstrSeq + 1) :
    Reported b op (((b.advance op).apply op.kind).1, ((b.advance op).apply op.kind).2.1) := by
  cases hk : op.kind with
  | add id isBid price qty =>
    unfold BookState.apply
    simp only
    by_cases hrem : id ∈ b.removed
    · rw [if_pos (show id ∈ (b.advance op).removed from hrem)]
      exact .silent rfl
    rw [if_neg (show id ∉ (b.advance op).removed from hrem)]
    by_cases hcap : b.orders.size ≥ MAX_ORDERS_PER_BOOK ∧ b.orders.contains id = false
    · rw [if_pos (show (b.advance op).orders.size ≥ MAX_ORDERS_PER_BOOK ∧
        (b.advance op).orders.contains id = false from hcap)]
      exact .capped ⟨hseq, id, isBid, price, qty, hk, hrem, hcap⟩ rfl
    rw [if_neg (show ¬ ((b.advance op).orders.size ≥ MAX_ORDERS_PER_BOOK ∧
      (b.advance op).orders.contains id = false) from hcap)]
    by_cases hq : qty = 0
    · subst hq
      refine .emptyAdd ⟨hs, hseq, id, isBid, price, hk, hrem, hcap⟩ ?_ ?_
      · rw [BookState.setLevels_state]
        exact hs
      · rw [BookState.setLevels_orders]
        exact FinMap.get_insert_self _ _ _
    · refine .change ?_ (not_addsNothing fun i s p h => ?_)
      · rw [BookState.setLevels_orders]
        simp only [mirrorOn, if_neg hq]
        rfl
      · rw [hk, DeltaKind.add.injEq] at h
        exact hq h.2.2.2
  | cancel id =>
    have hnot : ¬ AddsNothing b op := not_addsNothing fun i s p h => by rw [hk] at h; cases h
    unfold BookState.apply
    simp only
    split
    · exact .silent rfl
    · refine .change ?_ hnot
      rw [BookState.noteRemoved_orders, BookState.setLevels_orders]
      simp only [mirrorOn, if_true]
      rfl
  | execute id qty full =>
    have hnot : ¬ AddsNothing b op := not_addsNothing fun i s p h => by rw [hk] at h; cases h
    unfold BookState.apply
    simp only
    split
    · exact .silent rfl
    · rename_i o ho
      refine .change ?_ hnot
      generalize hr : (full || decide (o.qtyRaw - min qty o.qtyRaw = 0)) = remove
      cases remove with
      | true =>
        simp only [if_true, mirrorOn, BookState.noteRemoved_orders, BookState.setLevels_orders]
        rfl
      | false =>
        have hleft : o.qtyRaw - min qty o.qtyRaw ≠ 0 := by
          simp only [Bool.or_eq_false_iff, decide_eq_false_iff_not] at hr
          exact hr.2
        simp only [Bool.false_eq_true, if_false, mirrorOn, if_neg hleft, BookState.setLevels_orders]
        rfl

theorem onDelta_report (hs : b.state = .synced) (op : DeltaOp) :
    Reported b op ((b.onDeltaReporting op).1, (b.onDeltaReporting op).2.1) := by
  have he : b.onDeltaReporting op = b.applyOrRecover op := by
    unfold BookState.onDeltaReporting
    rw [hs]
  rw [he]
  rcases b.applyOrRecover_cases op with ⟨-, he⟩ | ⟨-, he⟩ | ⟨hseq, he⟩ <;> rw [he]
  · exact .silent rfl
  · exact .silent rfl
  · exact apply_report hs hseq

/-! ## Every list of deltas -/

/-- After each delta that leaves the book synced, the consumer has the book's orders, and a delta that
reported nothing has left `order_set` as it was. -/
def Mirrored (b : BookState) (ops : List DeltaOp) : Prop :=
  ∀ u op v, ops = u ++ op :: v → (feed (b, mirrorOf b.orderSet) (u ++ [op])).1.state = .synced →
    (feed (b, mirrorOf b.orderSet) (u ++ [op])).2 =
      mirrorOf (feed (b, mirrorOf b.orderSet) (u ++ [op])).1.orderSet ∧
    (((feed (b, mirrorOf b.orderSet) u).1.onDeltaReporting op).2.1 = [] →
      (feed (b, mirrorOf b.orderSet) (u ++ [op])).1.orderSet =
        (feed (b, mirrorOf b.orderSet) u).1.orderSet)

theorem orderSet_congr {b' : BookState} (h : b'.orders = b.orders) : b'.orderSet = b.orderSet := by
  unfold BookState.orderSet
  rw [h]

/-- A recovering book buffers: it reports nothing and stays as it is. -/
theorem onDelta_recovering (hs : b.state = .recovering) (op : DeltaOp) :
    (b.onDeltaReporting op).2.1 = [] ∧ (b.onDeltaReporting op).1.orders = b.orders ∧
      (b.onDeltaReporting op).1.state = .recovering := by
  unfold BookState.onDeltaReporting
  rw [hs]
  simp only [true_and]
  split
  · exact ⟨rfl, rfl⟩
  · exact ⟨rfl, hs⟩

/-- Deltas sync no book. -/
theorem synced_before {op : DeltaOp} (h : (b.onDeltaReporting op).1.state = .synced) :
    b.state = .synced := by
  refine synced_of_ne fun hs => ?_
  rw [(onDelta_recovering hs op).2.2] at h
  cases h

/-- A silent delta leaves the orders alone unless it runs into the order cap. -/
theorem silent_delta (op : DeltaOp) (hnone : (b.onDeltaReporting op).2.1 = []) :
    (b.onDeltaReporting op).1.orders = b.orders ∨
      HitsCap b op ∧ (b.onDeltaReporting op).1.state = .recovering := by
  cases hs : b.state with
  | recovering => exact Or.inl (onDelta_recovering hs op).2.1
  | synced =>
    have hrep := onDelta_report hs op
    rw [hnone] at hrep
    generalize (b.onDeltaReporting op).1 = b' at hrep
    cases hrep with
    | silent horders => exact Or.inl horders
    | capped hcap hdrop => exact Or.inr ⟨hcap, hdrop⟩

/-- One delta that does not add nothing keeps the consumer in step. -/
theorem mirror_step {op : DeltaOp} (hs : (b.onDeltaReporting op).1.state = .synced)
    (hnot : ¬ AddsNothing b op) :
    (b.onDeltaReporting op).2.1.foldl mirrorOn b.orders = (b.onDeltaReporting op).1.orders := by
  have hrep := onDelta_report (synced_before hs) op
  generalize (b.onDeltaReporting op).2.1 = out at hrep ⊢
  generalize (b.onDeltaReporting op).1 = b' at hrep hs ⊢
  cases hrep with
  | silent horders => exact horders.symm
  | capped hcap hdrop =>
    rw [hs] at hdrop
    cases hdrop
  | change horders => exact horders.symm
  | emptyAdd hadds => exact absurd hadds hnot

/-- An add of quantity zero rests an order, and reports that it is gone. -/
theorem AddsNothing.result {op : DeltaOp} (hadds : AddsNothing b op) : ∃ id isBid price,
    (b.onDeltaReporting op).2.1 = [⟨id, isBid, price, 0⟩] ∧
      (b.onDeltaReporting op).1.orders = b.orders.insert id ⟨isBid, price, 0⟩ ∧
      (b.onDeltaReporting op).1.state = .synced := by
  obtain ⟨hs, hseq, id, isBid, price, hk, hrem, hcap⟩ := hadds
  have hresult : b.onDeltaReporting op = (b.advance op).apply (.add id isBid price 0) := by
    unfold BookState.onDeltaReporting
    rw [hs]
    rcases b.applyOrRecover_cases op with ⟨hold, -⟩ | ⟨hgap, -⟩ | ⟨-, he⟩
    · omega
    · omega
    · rw [← hk]
      exact he
  rw [hresult]
  unfold BookState.apply
  simp only
  rw [if_neg (show id ∉ (b.advance op).removed from hrem),
    if_neg (show ¬ ((b.advance op).orders.size ≥ MAX_ORDERS_PER_BOOK ∧
      (b.advance op).orders.contains id = false) from hcap)]
  exact ⟨id, isBid, price, rfl, BookState.setLevels_orders _ _ _, (BookState.setLevels_state _ _ _).trans hs⟩

/-- An add of quantity zero leaves the consumer without the order the book rests. -/
theorem mirror_breaks {op : DeltaOp} (hadds : AddsNothing b op) :
    (b.onDeltaReporting op).1.state = .synced ∧
      (b.onDeltaReporting op).2.1.foldl mirrorOn b.orders ≠ (b.onDeltaReporting op).1.orders := by
  obtain ⟨id, isBid, price, hreport, horders, hs⟩ := hadds.result
  rw [hreport, horders]
  simp only [List.foldl_cons, List.foldl_nil, mirrorOn, if_true]
  refine ⟨hs, fun heq => ?_⟩
  have hget := congrArg (fun m => FinMap.get m id) heq
  simp only [FinMap.get_erase_self, FinMap.get_insert_self] at hget
  cases hget

/-- While no delta adds nothing, the consumer has the book's orders. -/
theorem feed_in_step : ∀ (ops : List DeltaOp) (b : BookState),
    (∀ u op v, ops = u ++ op :: v → ¬ AddsNothing (feed (b, b.orders) u).1 op) →
    (feed (b, b.orders) ops).1.state = .synced → (feed (b, b.orders) ops).2 =
      (feed (b, b.orders) ops).1.orders
  | [], _, _, _ => rfl
  | op :: ops, b, hnot, hs => by
    have hfirst : ¬ AddsNothing b op := hnot [] op ops rfl
    simp only [feed] at hs ⊢
    by_cases hsync : (b.onDeltaReporting op).1.state = .synced
    · rw [mirror_step hsync hfirst] at hs ⊢
      refine feed_in_step ops _ (fun u op' v hsplit => ?_) hs
      have h := hnot (op :: u) op' v (by rw [hsplit]; rfl)
      simp only [feed] at h
      rwa [mirror_step hsync hfirst] at h
    · -- the book has left `Synced` and no delta brings it back
      have hgone : ∀ (later : List DeltaOp) (s : BookState × Orders), s.1.state ≠ .synced →
          (feed s later).1.state ≠ .synced := by
        intro later
        induction later with
        | nil => exact fun _ h => h
        | cons op' later ih => exact fun s h => ih _ fun h' => h (synced_before h')
      exact absurd hs (hgone ops _ hsync)

/-- **When the reports mirror the book.** For any book and any list of deltas: the consumer has the
book's orders after each delta, as long as the book stays synced, exactly when no delta adds an order of
quantity zero; and whatever the list, a delta that reports nothing leaves `order_set` as it was or runs
into the order cap and takes the book out of sync. -/
theorem reports_mirror_the_book_iff (b : BookState) (ops : List DeltaOp) :
    (Mirrored b ops ↔ ∀ u op v, ops = u ++ op :: v →
      ¬ AddsNothing (feed (b, mirrorOf b.orderSet) u).1 op) ∧
    ∀ (b' : BookState) (op : DeltaOp), (b'.onDeltaReporting op).2.1 = [] →
      (b'.onDeltaReporting op).1.orderSet = b'.orderSet ∨
        HitsCap b' op ∧ (b'.onDeltaReporting op).1.state = .recovering := by
  constructor
  · unfold Mirrored
    simp only [mirrorOf_orderSet]
    constructor
    · intro hall u op v hsplit hadds
      have hwas := hadds.1
      -- the consumer was in step before the delta that adds nothing
      have hbefore : (feed (b, b.orders) u).2 = (feed (b, b.orders) u).1.orders := by
        rcases List.eq_nil_or_concat u with rfl | ⟨u', op', rfl⟩
        · rfl
        · rw [List.concat_eq_append] at hsplit hwas ⊢
          exact (hall u' op' (op :: v) (by rw [hsplit]; simp) hwas).1
      obtain ⟨hsync, hne⟩ := mirror_breaks hadds
      have hstep : feed (b, b.orders) (u ++ [op]) =
          (((feed (b, b.orders) u).1.onDeltaReporting op).1,
            ((feed (b, b.orders) u).1.onDeltaReporting op).2.1.foldl mirrorOn
              (feed (b, b.orders) u).2) := by
        rw [feed_append]
        rfl
      have hafter := (hall u op v hsplit (by rw [hstep]; exact hsync)).1
      rw [hstep, hbefore] at hafter
      exact hne hafter
    · intro hnot u op v hsplit hsync
      have hstate : (feed (b, b.orders) (u ++ [op])).1 =
          ((feed (b, b.orders) u).1.onDeltaReporting op).1 := by
        rw [feed_append]
        rfl
      refine ⟨feed_in_step (u ++ [op]) b (fun u' op' v' hsplit' => ?_) hsync, fun hnone => ?_⟩
      · refine hnot u' op' (v' ++ v) ?_
        calc ops = (u ++ [op]) ++ v := by rw [hsplit]; simp
          _ = u' ++ op' :: (v' ++ v) := by rw [hsplit']; simp
      · rw [hstate] at hsync ⊢
        rcases silent_delta op hnone with horders | ⟨-, hdrop⟩
        · exact orderSet_congr horders
        · rw [hsync] at hdrop
          cases hdrop
  · intro b' op hnone
    rcases silent_delta op hnone with horders | hcap
    · exact Or.inl (orderSet_congr horders)
    · exact Or.inr hcap

/-- The book of one order, then a fill of it and an add of quantity `qty`. -/
def fillAndAdd (qty : Nat) : List DeltaOp :=
  [⟨2, 12, 50, .execute 900 2 false⟩, ⟨3, 13, 60, .add 901 false 6300 qty⟩]

theorem reports_mirror_the_book_iff_fillAndAdd :
    Mirrored (machine.exec BookState.new (oneOrderGroup 6 10 ++ [.snapshotEnd 10 6]))
      (fillAndAdd 4) := by
  refine (reports_mirror_the_book_iff
    (machine.exec BookState.new (oneOrderGroup 6 10 ++ [.snapshotEnd 10 6]))
    (fillAndAdd 4)).1.mpr fun u op v hsplit => ?_
  rintro ⟨-, -, id, isBid, price, hk, -⟩
  have hop : op ∈ fillAndAdd 4 := by rw [hsplit]; simp
  simp only [fillAndAdd, List.mem_cons, List.not_mem_nil, or_false] at hop
  rcases hop with rfl | rfl <;> simp at hk

/-- **The consumer loses an order the book rests**: it is added with quantity zero. -/
theorem empty_add_is_not_mirrored :
    (machine.exec BookState.new (oneOrderGroup 6 10 ++ [.snapshotEnd 10 6])).state = .synced ∧
    ¬ Mirrored (machine.exec BookState.new (oneOrderGroup 6 10 ++ [.snapshotEnd 10 6]))
      (fillAndAdd 0) := by
  refine ⟨by decide, fun h => ?_⟩
  have hlast := (h [⟨2, 12, 50, .execute 900 2 false⟩] ⟨3, 13, 60, .add 901 false 6300 0⟩ [] rfl
    (by decide)).1
  rw [mirrorOf_orderSet, mirrorOf_orderSet] at hlast
  have hget := congrArg (fun m => FinMap.get m 901) hlast
  revert hget
  decide

end EdgeConnect.Mbo
