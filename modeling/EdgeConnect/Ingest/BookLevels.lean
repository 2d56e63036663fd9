import EdgeConnect.Ingest.Book
import Mathlib.Algebra.GroupWithZero.Nat

/-!
# When the price levels of an order-level book are the totals of its orders

`BookState` holds its orders and, beside them, one total per price and side.  The two are updated
separately, and each of these touches only one of them: an order added over one that rests, a full
fill that executes less than what rests, a zero quantity at an empty price, a total past `2^64`
(`short_full_fill_breaks_levels`).  `StepFits` excludes exactly these, for live deltas, for the
deltas a snapshot's install replays and for the orders of a snapshot under assembly.

* `Aggregates` — a price is held exactly when its total is positive, with that total as value;
* `Aggregates.add`, `Aggregates.remove` — what `level_add` and `level_remove` do to it;
* `levels_are_totals` — it holds in every state of every run of such steps, live and under assembly,
  and `top_levels` is the aggregation of `order_set`.
-/

set_option autoImplicit false

namespace EdgeConnect.Mbo

/-! ## Totals -/

/-- What an order contributes to a price of a side. -/
def RestingOrder.qtyAt (isBid : Bool) (price : Int) (o : RestingOrder) : Nat :=
  if o.isBid = isBid ∧ o.priceRaw = price then o.qtyRaw else 0

/-- The quantity resting at a price of a side. -/
def total (orders : Orders) (isBid : Bool) (price : Int) : Nat :=
  orders.sumVals fun _ o => o.qtyAt isBid price

/-- The two sides' price levels are the exact totals of the orders. -/
def Aggregates (orders : Orders) (levels : Bool → Levels) : Prop :=
  ∀ isBid price, (levels isBid).get price =
    if total orders isBid price = 0 then none else some (total orders isBid price)

/-- The price levels of the group under assembly. -/
def Building.levels (g : Building) (isBid : Bool) : Levels := if isBid then g.bids else g.asks

variable {orders : Orders} {levels : Bool → Levels} {b : BookState}

theorem total_pos_iff {isBid : Bool} {price : Int} :
    0 < total orders isBid price ↔
      ∃ id o, orders.get id = some o ∧ o.isBid = isBid ∧ o.priceRaw = price ∧ 0 < o.qtyRaw := by
  unfold total
  rw [FinMap.sumVals_pos_iff]
  constructor
  · rintro ⟨id, o, ho, hpos⟩
    unfold RestingOrder.qtyAt at hpos
    split at hpos
    · rename_i hat; exact ⟨id, o, ho, hat.1, hat.2, hpos⟩
    · exact absurd hpos (Nat.lt_irrefl 0)
  · rintro ⟨id, o, ho, hside, hprice, hpos⟩
    refine ⟨id, o, ho, ?_⟩
    unfold RestingOrder.qtyAt
    rw [if_pos ⟨hside, hprice⟩]; exact hpos

theorem Aggregates.getD (h : Aggregates orders levels) (isBid : Bool) (price : Int) :
    ((levels isBid).get price).getD 0 = total orders isBid price := by
  rw [h isBid price]
  split
  · rename_i hz; rw [hz]; rfl
  · rfl

/-! ## Adding and removing quantity -/

/-- An order put into `orders` beside the levels of its side leaves the totals exact: it replaces no
resting quantity, opens no empty level, and stays within `u64`. -/
def Fits (orders : Orders) (levels : Levels) (id : Nat) (price : Int) (qty : Nat) : Prop :=
  (∀ o, orders.get id = some o → o.qtyRaw = 0) ∧ (qty = 0 → levels.contains price = true) ∧
    (levels.get price).getD 0 + qty < 2 ^ 64

theorem total_insert {id : Nat} (hid : ∀ o, orders.get id = some o → o.qtyRaw = 0)
    (o : RestingOrder) (isBid : Bool) (price : Int) :
    total (orders.insert id o) isBid price = total orders isBid price + o.qtyAt isBid price := by
  have h := FinMap.sumVals_insert orders (fun _ o => o.qtyAt isBid price) id o
  have hold : (orders.get id).elim 0 (fun o => o.qtyAt isBid price) = 0 := by
    cases hg : orders.get id with
    | none => rfl
    | some r =>
      show r.qtyAt isBid price = 0
      unfold RestingOrder.qtyAt
      rw [hid r hg]
      split <;> rfl
  unfold total
  omega

/-- **`level_add`** keeps the totals exact for an order that fits. -/
theorem Aggregates.add (h : Aggregates orders levels) {id : Nat} {side : Bool} {price : Int}
    {qty : Nat} (hfit : Fits orders (levels side) id price qty) :
    Aggregates (orders.insert id ⟨side, price, qty⟩)
      (Function.update levels side (levelAdd (levels side) price qty)) := by
  obtain ⟨hid, hzero, hbound⟩ := hfit
  intro s p
  rw [total_insert hid]
  unfold RestingOrder.qtyAt
  by_cases hs : s = side
  · subst hs
    rw [Function.update_self]
    unfold levelAdd
    by_cases hp : p = price
    · subst hp
      rw [h.getD] at hbound
      have hne : total orders s p + qty ≠ 0 := by
        intro hz
        obtain ⟨q, hq⟩ := FinMap.contains_eq_true.mp (hzero (by omega))
        rw [h s p, if_pos (by omega)] at hq
        cases hq
      have hat : s = s ∧ p = p := ⟨rfl, rfl⟩
      rw [FinMap.get_insert_self, h.getD, Nat.mod_eq_of_lt hbound, if_pos hat, if_neg hne]
    · have hne : ¬ (s = s ∧ price = p) := fun he => hp he.2.symm
      rw [FinMap.get_insert_of_ne _ _ hp, if_neg hne, Nat.add_zero, h s p]
  · have hne : ¬ (side = s ∧ price = p) := fun he => hs he.1.symm
    rw [Function.update_of_ne hs, if_neg hne, Nat.add_zero, h s p]

/-- **`level_remove`** keeps the totals exact when the orders lost exactly the quantity removed. -/
theorem Aggregates.remove (h : Aggregates orders levels) {orders' : Orders} {side : Bool} {price : Int}
    {qty : Nat} (htotal : ∀ s p, total orders' s p + (if side = s ∧ price = p then qty else 0) =
      total orders s p) :
    Aggregates orders' (Function.update levels side (levelRemove (levels side) price qty)) := by
  intro s p
  have hsp := htotal s p
  by_cases hs : s = side
  · subst hs
    rw [Function.update_self]
    by_cases hp : p = price
    · subst hp
      rw [if_pos ⟨rfl, rfl⟩] at hsp
      unfold levelRemove
      rw [h s p]
      by_cases hz : total orders s p = 0
      · rw [if_pos hz, if_pos (by omega)]
        show (levels s).get p = none
        rw [h s p, if_pos hz]
      · rw [if_neg hz]
        show (if total orders s p - qty = 0 then (levels s).erase p
          else (levels s).insert p (total orders s p - qty)).get p = _
        by_cases hz' : total orders' s p = 0
        · rw [if_pos (by omega), if_pos hz', FinMap.get_erase_self]
        · rw [if_neg (by omega), if_neg hz', FinMap.get_insert_self,
            show total orders s p - qty = total orders' s p by omega]
    · have hne : ¬ (s = s ∧ price = p) := fun he => hp he.2.symm
      rw [if_neg hne, Nat.add_zero] at hsp
      have hframe : (levelRemove (levels s) price qty).get p = (levels s).get p := by
        unfold levelRemove
        split
        · rfl
        · split
          · rw [FinMap.get_erase_of_ne _ hp]
          · rw [FinMap.get_insert_of_ne _ _ hp]
      rw [hframe, hsp, h s p]
  · have hne : ¬ (side = s ∧ price = p) := fun he => hs he.1.symm
    rw [if_neg hne, Nat.add_zero] at hsp
    rw [Function.update_of_ne hs, hsp, h s p]

theorem levels_setLevels (b : BookState) (side : Bool) (l : Levels) :
    (b.setLevels side l).levels = Function.update b.levels side l := by
  funext s
  cases s <;> cases side <;> rfl

theorem levels_add (g : Building) (id : Nat) (side : Bool) (price : Int) (qty : Nat) :
    (g.add id side price qty).levels =
      Function.update g.levels side (levelAdd (g.levels side) price qty) := by
  funext s
  cases s <;> cases side <;> rfl

/-! ## The condition on a step -/

/-- A delta about to be applied leaves the totals exact: an added order fits, and a full fill executes
all that rests. -/
def DeltaFits (b : BookState) : DeltaKind → Prop
  | .add id isBid price qty => id ∉ b.removed →
      (b.orders.size < MAX_ORDERS_PER_BOOK ∨ b.orders.contains id = true) →
      Fits b.orders (b.levels isBid) id price qty
  | .cancel _ => True
  | .execute id qty full => ∀ o, b.orders.get id = some o → full = true → o.qtyRaw ≤ qty

/-- Each delta of a replay fits the book it is applied to. -/
def ReplayFits (b : BookState) : List DeltaOp → Prop
  | [] => True
  | op :: ops => (op.seq = b.lastInstrSeq + 1 → DeltaFits b op.kind) ∧
      ((b.applyOrRecover op).1.state = .synced → ReplayFits (b.applyOrRecover op).1 ops)

/-- Every delta the step applies, live or replayed, and every order it assembles fits. -/
def StepFits (b : BookState) : Call → Prop
  | .delta op => b.state = .synced → op.seq = b.lastInstrSeq + 1 → DeltaFits b op.kind
  | .snapshotOrder id order isBid price qty => ∀ g, b.building = some g → g.snapshotId = id →
      g.orders.size < MAX_ORDERS_PER_BOOK → Fits g.orders (g.levels isBid) order price qty
  | .snapshotEnd anchor id => ∀ g, b.building = some g → g.snapshotId = id → g.anchorSeq = anchor →
      g.receivedOrders = g.totalOrders → ReplayFits (b.install g) (b.replayable g.anchorSeq)
  | _ => True

/-! ## One delta -/

/-- The book's own levels are exact. -/
def BookState.Exact (b : BookState) : Prop := Aggregates b.orders b.levels

/-- Erasing a resting order takes its quantity from its price. -/
theorem total_erase {id : Nat} {o : RestingOrder} (ho : orders.get id = some o) (s : Bool) (p : Int) :
    total (orders.erase id) s p + (if o.isBid = s ∧ o.priceRaw = p then o.qtyRaw else 0) =
      total orders s p := by
  have h := FinMap.sumVals_erase orders (fun _ o => o.qtyAt s p) id
  rw [ho] at h
  exact h

/-- Shrinking a resting order takes the difference from its price. -/
theorem total_shrink {id : Nat} {o : RestingOrder} (ho : orders.get id = some o) {qty : Nat}
    (hle : qty ≤ o.qtyRaw) (s : Bool) (p : Int) :
    total (orders.insert id { o with qtyRaw := o.qtyRaw - qty }) s p +
      (if o.isBid = s ∧ o.priceRaw = p then qty else 0) = total orders s p := by
  have h := FinMap.sumVals_insert orders (fun _ o => o.qtyAt s p) id { o with qtyRaw := o.qtyRaw - qty }
  rw [ho] at h
  simp only [Option.elim_some, RestingOrder.qtyAt] at h
  unfold total
  simp only [RestingOrder.qtyAt]
  split at h
  · rename_i hat
    rw [if_pos hat]
    omega
  · rename_i hat
    rw [if_neg hat]
    omega

/-- **A delta that fits keeps the levels exact.** -/
theorem exact_apply (h : b.Exact) {kind : DeltaKind} (hfit : DeltaFits b kind) :
    (b.apply kind).1.Exact := by
  unfold BookState.Exact at h
  cases kind with
  | add id isBid price qty =>
    unfold BookState.apply
    simp only
    split
    · exact h
    · rename_i hid
      split
      · intro s p; cases s <;> rfl
      · rename_i hcap
        have hroom : b.orders.size < MAX_ORDERS_PER_BOOK ∨ b.orders.contains id = true := by
          by_contra hno
          rw [not_or, Nat.not_lt, Bool.not_eq_true] at hno
          exact hcap hno
        unfold BookState.Exact
        rw [levels_setLevels, BookState.setLevels_orders]
        exact h.add (hfit hid hroom)
  | cancel id =>
    unfold BookState.apply
    simp only
    split
    · exact h
    · rename_i o ho
      unfold BookState.Exact
      rw [BookState.noteRemoved_orders, BookState.setLevels_orders,
        funext (BookState.noteRemoved_levels _ id), levels_setLevels]
      exact h.remove (total_erase ho)
  | execute id qty full =>
    unfold BookState.apply
    simp only
    split
    · exact h
    · rename_i o ho
      split
      · rename_i hrem
        -- removed: nothing is left of the order, so its whole quantity was taken
        have hall : min qty o.qtyRaw = o.qtyRaw := by
          rw [Bool.or_eq_true, decide_eq_true_eq] at hrem
          rcases hrem with hfull | hzero
          · exact Nat.min_eq_right (hfit o ho hfull)
          · omega
        unfold BookState.Exact
        rw [BookState.noteRemoved_orders, BookState.setLevels_orders,
          funext (BookState.noteRemoved_levels _ id), levels_setLevels, hall]
        simp only
        exact h.remove (total_erase ho)
      · unfold BookState.Exact
        rw [levels_setLevels, BookState.setLevels_orders]
        simp only
        exact h.remove (total_shrink ho (Nat.min_le_right _ _))

theorem exact_applyOrRecover (h : b.Exact) {op : DeltaOp}
    (hfit : op.seq = b.lastInstrSeq + 1 → DeltaFits b op.kind) : (b.applyOrRecover op).1.Exact := by
  rcases b.applyOrRecover_cases op with ⟨-, he⟩ | ⟨-, he⟩ | ⟨hseq, he⟩ <;> rw [he]
  · exact h
  · exact h
  · have hfit' : DeltaFits (b.advance op) op.kind := by
      have := hfit hseq
      cases hk : op.kind <;> rw [hk] at this <;> exact this
    exact exact_apply (b := b.advance op) h hfit'

theorem exact_replay : ∀ (ops : List DeltaOp) {b : BookState}, b.Exact → ReplayFits b ops →
    (b.replay ops).Exact
  | [], _, h, _ => h
  | op :: ops, b, h, hfit => by
    have h' := exact_applyOrRecover h hfit.1
    unfold BookState.replay
    split
    · exact h'
    · rename_i hne
      have hs : (b.applyOrRecover op).1.state = .synced := by
        cases hst : (b.applyOrRecover op).1.state with
        | synced => rfl
        | recovering => exact absurd hst hne
      exact exact_replay ops h' (hfit.2 hs)

/-! ## One call -/

/-- The levels are exact, live and under assembly. -/
structure LevelInv (b : BookState) : Prop where
  live : b.Exact
  building : ∀ g, b.building = some g → Aggregates g.orders g.levels

theorem LevelInv.new : LevelInv BookState.new :=
  ⟨fun s p => by cases s <;> rfl, nofun⟩

/-- **One step that fits keeps every level exact.** -/
theorem LevelInv.step (h : LevelInv b) {c : Call} (hc : StepFits b c) : LevelInv (step b c).1 := by
  cases c with
  | delta op =>
    simp only [Mbo.step, BookState.onDeltaReporting]
    cases hst : b.state with
    | recovering =>
      simp only
      split <;> exact ⟨h.live, h.building⟩
    | synced =>
      refine ⟨exact_applyOrRecover h.live (hc hst), fun g hg => h.building g ?_⟩
      rwa [BookState.applyOrRecover_building] at hg
  | snapshotBegin id anchor total last =>
    simp only [Mbo.step, BookState.onSnapshotBegin]
    split
    · exact ⟨h.live, nofun⟩
    · split
      · exact ⟨h.live, nofun⟩
      · refine ⟨h.live, fun g hg => ?_⟩
        cases hg
        intro s p
        cases s <;> rfl
  | snapshotOrder id order isBid price qty =>
    simp only [Mbo.step, BookState.onSnapshotOrder]
    split
    · exact h
    · rename_i g hopen
      split
      · rename_i hok
        refine ⟨h.live, fun g' hg' => ?_⟩
        cases hg'
        rw [levels_add]
        exact (h.building g hopen).add (hc g hopen hok.1 hok.2)
      · exact h
  | snapshotEnd anchor id =>
    unfold Mbo.step BookState.onSnapshotEnd
    simp only
    split
    · exact h
    · rename_i g hopen
      split
      · exact ⟨h.live, nofun⟩
      · rename_i hok
        simp only [not_or, ne_eq, Decidable.not_not] at hok
        have hinst : (b.install g).Exact := h.building g hopen
        refine ⟨exact_replay _ hinst (hc g hopen hok.1 hok.2.1 hok.2.2), fun g' hg' => ?_⟩
        rw [BookState.replay_building] at hg'
        cases hg'
  | instrumentReset s => exact ⟨fun s p => by cases s <;> rfl, nofun⟩
  | endOfSession => exact ⟨fun s p => by cases s <;> rfl, nofun⟩

/-! ## Top levels -/

/-- The aggregation of a list of orders: the prices of a side at which something rests, in the order
the list names them, each with the sum of what it rests there. -/
def aggregate (isBid : Bool) (os : List OrderChange) : List Level :=
  ((os.filter fun c => c.isBid == isBid && decide (0 < c.qtyRaw)).map fun c => c.priceRaw).dedup.map
    fun p => (p, ((os.filter fun c => c.isBid == isBid && c.priceRaw == p).map fun c => c.qtyRaw).sum)

/-- One price of a side comes strictly before another, best first. -/
def Before (isBid : Bool) (p q : Int) : Prop := if isBid then q < p else p < q

theorem Before.asymm {isBid : Bool} {p q : Int} (h : Before isBid p q) : ¬ Before isBid q p := by
  cases isBid <;> simp only [Before, Bool.false_eq_true, if_true, if_false] at h ⊢ <;> omega

instance : Std.Total fun x y : OrderChange => orderSetLe x y = true where
  total x y := by
    unfold orderSetLe
    rcases x with ⟨i, _ | _, p, q⟩ <;> rcases y with ⟨i', _ | _, p', q'⟩ <;> simp <;> grind

instance : IsTrans OrderChange fun x y => orderSetLe x y = true where
  trans x y z := by
    unfold orderSetLe
    rcases x with ⟨i, _ | _, p, q⟩ <;> rcases y with ⟨i', _ | _, p', q'⟩ <;>
      rcases z with ⟨i'', _ | _, p'', q''⟩ <;> simp <;> grind

theorem mem_orderSet {c : OrderChange} :
    c ∈ b.orderSet ↔ b.orders.get c.orderId = some ⟨c.isBid, c.priceRaw, c.qtyRaw⟩ := by
  unfold BookState.orderSet
  rw [List.mem_insertionSort, List.mem_map]
  constructor
  · rintro ⟨⟨id, o⟩, he, rfl⟩
    exact FinMap.mem_toList.mp he
  · intro h
    exact ⟨(c.orderId, ⟨c.isBid, c.priceRaw, c.qtyRaw⟩), FinMap.mem_toList.mpr h, rfl⟩

theorem sum_filter_eq {α : Type*} (p : α → Bool) (f : α → Nat) : ∀ l : List α,
    ((l.filter p).map f).sum = (l.map fun x => if p x then f x else 0).sum
  | [] => rfl
  | x :: xs => by
    rw [List.filter_cons, List.map_cons, List.sum_cons, ← sum_filter_eq p f xs]
    split <;> simp

/-- What `order_set` rests at a price is the book's total there. -/
theorem sum_orderSet (b : BookState) (isBid : Bool) (p : Int) :
    ((b.orderSet.filter fun c => c.isBid == isBid && c.priceRaw == p).map fun c => c.qtyRaw).sum =
      total b.orders isBid p := by
  rw [sum_filter_eq]
  unfold BookState.orderSet total
  rw [← FinMap.sum_toList, ((List.perm_insertionSort _ _).map _).sum_eq, List.map_map]
  refine congrArg List.sum (List.map_congr_left fun e _ => ?_)
  simp only [Function.comp, RestingOrder.toChange, RestingOrder.qtyAt, Bool.and_eq_true, beq_iff_eq]

theorem mem_aggregate {isBid : Bool} {p : Int} {q : Nat} :
    (p, q) ∈ aggregate isBid b.orderSet ↔
      0 < total b.orders isBid p ∧ q = total b.orders isBid p := by
  unfold aggregate
  simp only [List.mem_map, List.mem_dedup, List.mem_filter, Prod.mk.injEq, Bool.and_eq_true,
    beq_iff_eq, decide_eq_true_eq, sum_orderSet]
  rw [total_pos_iff]
  constructor
  · rintro ⟨p', ⟨c, ⟨hc, hside, hpos⟩, hprice⟩, rfl, rfl⟩
    exact ⟨⟨c.orderId, _, mem_orderSet.mp hc, hside, hprice, hpos⟩, rfl⟩
  · rintro ⟨⟨id, o, ho, hside, hprice, hpos⟩, rfl⟩
    exact ⟨p, ⟨o.toChange id, ⟨mem_orderSet.mpr ho, hside, hpos⟩, hprice⟩, rfl, rfl⟩

/-- `order_set` names the prices of a side best first. -/
theorem aggregate_pairwise (b : BookState) (isBid : Bool) :
    (aggregate isBid b.orderSet).Pairwise fun x y => Before isBid x.1 y.1 := by
  unfold aggregate
  rw [List.pairwise_map]
  have hsorted : b.orderSet.Pairwise fun x y => orderSetLe x y = true :=
    List.pairwise_insertionSort (fun x y => orderSetLe x y = true) _
  have hprices : ((b.orderSet.filter fun c => c.isBid == isBid && decide (0 < c.qtyRaw)).map
      fun c => c.priceRaw).Pairwise fun p q => p = q ∨ Before isBid p q := by
    rw [List.pairwise_map, List.pairwise_filter]
    refine hsorted.imp fun {x y} hxy hx hy => ?_
    simp only [Bool.and_eq_true, beq_iff_eq] at hx hy
    unfold orderSetLe at hxy
    unfold Before
    rw [hx.1, hy.1] at hxy
    cases isBid <;> simp at hxy ⊢ <;> grind
  have hdedup := hprices.sublist (List.dedup_sublist _)
  refine (hdedup.and (List.nodup_dedup _)).imp fun {p q} hpq => ?_
  exact hpq.1.resolve_left hpq.2

/-- Two lists in the same strict order with the same members are the same list. -/
theorem eq_of_pairwise_of_mem {α : Type*} {r : α → α → Prop} (hr : ∀ a b, r a b → ¬ r b a)
    {l l' : List α} (h : l.Pairwise r) (h' : l'.Pairwise r) (hmem : ∀ a, a ∈ l ↔ a ∈ l') : l = l' := by
  have hne : ∀ a b, r a b → a ≠ b := fun a b hab heq => hr a b hab (heq ▸ hab)
  have hperm : l.Perm l' := (List.perm_ext_iff_of_nodup (h.imp fun {a b} => hne a b)
    (h'.imp fun {a b} => hne a b)).mpr hmem
  exact hperm.eq_of_pairwise (fun a b _ _ hab hba => absurd hba (hr a b hab)) h h'

/-- The levels of a side, best first. -/
def BookState.best (b : BookState) (isBid : Bool) : List Level :=
  if isBid then b.bids.toList.reverse else b.asks.toList

theorem best_pairwise (b : BookState) (isBid : Bool) :
    (b.best isBid).Pairwise fun x y => Before isBid x.1 y.1 := by
  cases isBid with
  | true => exact List.pairwise_reverse.mpr b.bids.toList_pairwise
  | false => exact b.asks.toList_pairwise

theorem mem_best {isBid : Bool} {p : Int} {q : Nat} :
    (p, q) ∈ b.best isBid ↔ (b.levels isBid).get p = some q := by
  cases isBid with
  | true => exact List.mem_reverse.trans FinMap.mem_toList
  | false => exact FinMap.mem_toList

theorem best_eq_aggregate (h : b.Exact) (isBid : Bool) : b.best isBid = aggregate isBid b.orderSet := by
  refine eq_of_pairwise_of_mem (fun x y => Before.asymm) (best_pairwise b isBid)
    (aggregate_pairwise b isBid) fun ⟨p, q⟩ => ?_
  rw [mem_best, mem_aggregate, h isBid p]
  split
  · rename_i hz
    rw [hz]
    simp
  · rename_i hz
    rw [Option.some.injEq, eq_comm]
    exact ⟨fun hq => ⟨Nat.pos_of_ne_zero hz, hq⟩, fun hq => hq.2⟩

/-! ## Every run -/

/-- A side's levels hold a price exactly when a positive quantity rests there, and then the exact sum
of all orders of the side at that price. -/
def LevelsOf (orders : Orders) (levels : Bool → Levels) : Prop :=
  ∀ isBid price,
    ((levels isBid).contains price = true ↔
      ∃ id o, orders.get id = some o ∧ o.isBid = isBid ∧ o.priceRaw = price ∧ 0 < o.qtyRaw) ∧
    ∀ q, (levels isBid).get price = some q → q = total orders isBid price

theorem Aggregates.levelsOf (h : Aggregates orders levels) : LevelsOf orders levels := by
  intro isBid price
  rw [← total_pos_iff, FinMap.contains_eq_true, h isBid price]
  by_cases hz : total orders isBid price = 0
  · rw [if_pos hz, hz]
    simp
  · rw [if_neg hz]
    refine ⟨⟨fun _ => Nat.pos_of_ne_zero hz, fun _ => ⟨_, rfl⟩⟩, fun q hq => ?_⟩
    exact (Option.some.inj hq).symm

/-- **The price levels are the totals of the orders**, live and under assembly, in every state of
every run in which each order added fits and no full fill falls short; `top_levels` is then the
aggregation of `order_set`. -/
theorem levels_are_totals (calls : List Call)
    (hfits : machine.Along StepFits BookState.new calls) :
    LevelsOf (machine.exec BookState.new calls).orders (machine.exec BookState.new calls).levels ∧
    (∀ g, (machine.exec BookState.new calls).building = some g → LevelsOf g.orders g.levels) ∧
    ∀ n, (machine.exec BookState.new calls).topLevels n =
      ((aggregate true (machine.exec BookState.new calls).orderSet).take n,
        (aggregate false (machine.exec BookState.new calls).orderSet).take n) := by
  have hinv : LevelInv (machine.exec BookState.new calls) :=
    Machine.along_rule (fun _ _ hc h => h.step hc) calls _ hfits LevelInv.new
  refine ⟨Aggregates.levelsOf hinv.live, fun g hg => (hinv.building g hg).levelsOf, fun n => ?_⟩
  rw [← best_eq_aggregate hinv.live, ← best_eq_aggregate hinv.live]
  rfl

/-- Two bids at one price of which one is then filled. -/
def filledCalls : List Call :=
  [.snapshotBegin 1 5 1 0, .snapshotOrder 1 7 true 100 4, .snapshotEnd 5 1,
    .delta ⟨1, 6, 10, .add 8 true 100 3⟩, .delta ⟨2, 7, 11, .execute 7 4 true⟩]

theorem levels_are_totals_filled :
    (machine.exec BookState.new filledCalls).topLevels 1 = ([(100, 3)], []) := by
  have hfits : machine.Along StepFits BookState.new filledCalls := by
    refine ⟨trivial, fun g hg _ _ => ?_, fun g hg _ _ _ => ?_, fun _ _ _ _ => ?_, fun _ _ o ho _ => ?_,
      trivial⟩
    · cases hg
      exact ⟨nofun, nofun, by decide⟩
    · cases hg
      trivial
    · exact ⟨nofun, nofun, by decide⟩
    · cases ho
      decide
  rw [(levels_are_totals filledCalls hfits).2.2 1]
  decide +kernel

/-- A full fill that executes less than what rests. -/
def shortFillCalls : List Call :=
  [.snapshotBegin 1 5 0 0, .snapshotEnd 5 1, .delta ⟨1, 6, 10, .add 7 true 100 10⟩,
    .delta ⟨2, 7, 11, .execute 7 4 true⟩]

/-- **A full fill with a short quantity leaves a level with no order behind it.** -/
theorem short_full_fill_breaks_levels :
    (machine.exec BookState.new shortFillCalls).orders.size = 0 ∧
    (machine.exec BookState.new shortFillCalls).bids.get 100 = some 6 ∧
    ¬ LevelsOf (machine.exec BookState.new shortFillCalls).orders
      (machine.exec BookState.new shortFillCalls).levels := by
  refine ⟨by decide, by decide, fun h => ?_⟩
  obtain ⟨id, o, ho, -⟩ := (h true 100).1.mp (by decide)
  have hnone : ∀ k, (machine.exec BookState.new shortFillCalls).orders.get k = none :=
    fun k => FinMap.notMem_keys_iff.mp (by
      rw [show (machine.exec BookState.new shortFillCalls).orders.keys = ∅ by decide]
      exact Finset.notMem_empty k)
  rw [hnone id] at ho
  cases ho

end EdgeConnect.Mbo
