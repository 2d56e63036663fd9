import Mathlib.Data.List.Pairwise
import Mathlib.Data.List.Permutation
import EdgeConnect.Lib.Binary64Add
import EdgeConnect.Model.Resume

/-!
# Materializing a book (`BookAccumulator::to_book` in `src/model.rs`)

`to_book` renders a book for a consumer that joins: a clear, then the levels, then the orders, one by one or folded into
price levels.

* `toBookIn` — `to_book` in either scope; `priceFold` — the orders folded into price levels;
* `orderSet_split` — the orders are rendered bids first, each side best first;
* `priceFold_get` — the level of a price has the sum of its orders' sizes, added in the order of the map's iteration;
* `Bootstraps` — what a joining consumer is handed, and what it holds after any further batches;
* `rebaseline_bootstraps` — every book with no open event bootstraps a consumer.
-/

set_option autoImplicit false

namespace EdgeConnect

/-! ## Rendering -/

/-- How much detail a replayed re-baseline carries. -/
inductive ReplayScope where
  | levels
  | orders
  deriving DecidableEq, Repr

/-- One folded price level. -/
structure CountedLevel where
  price : F64
  size : F64
  count : Nat
  deriving DecidableEq, Repr

namespace BookAccumulator

/-- One order joins the level of its price, which the first order makes. -/
def countOrder (side : FinMap Int CountedLevel) (o : RestingOrder) : FinMap Int CountedLevel :=
  let e := (side.get o.key).getD ⟨o.price, F64.zero, 0⟩
  side.insert o.key { e with size := e.size.add o.size, count := e.count + 1 }

/-- The loop of `price_fold` over the orders, in the order in which the map yields them. -/
def foldSides : List RestingOrder → FinMap Int CountedLevel × FinMap Int CountedLevel →
    FinMap Int CountedLevel × FinMap Int CountedLevel
  | [], sides => sides
  | o :: os, (bids, asks) =>
    foldSides os (if o.isBid then (countOrder bids o, asks) else (bids, countOrder asks o))

/-- `price_fold`: the orders folded into price levels, bids best first then asks best first. -/
def priceFold (iter : List RestingOrder) : List CountedLevel × List CountedLevel :=
  let (bids, asks) := foldSides iter (∅, ∅)
  (bids.toList.reverse.map (·.2), asks.toList.map (·.2))

theorem priceFold_nil : priceFold [] = ([], []) := by
  have hnone : (∅ : FinMap Int CountedLevel).toList = [] := by
    unfold FinMap.toList
    rw [FinMap.keys_empty, Finset.sort_empty]
    rfl
  unfold priceFold foldSides
  simp only [hnone]
  rfl

/-- The changes that set the levels. -/
def sideChanges (a : BookAccumulator) : List BookChange :=
  (a.bids.toList.reverse.map fun e => ⟨.update, .bid, e.2.1, e.2.2, 0⟩) ++
    a.asks.toList.map fun e => ⟨.update, .ask, e.2.1, e.2.2, 0⟩

/-- `to_book`: a clear and the complete current book.  `iter` is the order in which the order map is iterated. -/
def toBookIn (a : BookAccumulator) (key : BookKey) (scope : ReplayScope) (iter : List RestingOrder) (nowNs : Nat) :
    NormalizedBook :=
  let orders := match scope with
    | .orders => a.orderSet.map fun e =>
        ⟨.update, if e.2.isBid then .bid else .ask, e.2.price, e.2.size, e.1⟩
    | .levels => ((priceFold iter).1.map fun l => ⟨.update, .bid, l.price, l.size, 0⟩) ++
        (priceFold iter).2.map fun l => ⟨.update, .ask, l.price, l.size, 0⟩
  { a.toClear key nowNs with changes := clearBoth :: (a.sideChanges ++ orders) }

/-- In the order scope it is the rendering that the arbiter makes. -/
theorem toBookIn_orders (a : BookAccumulator) (key : BookKey) (iter : List RestingOrder) (nowNs : Nat) :
    a.toBookIn key .orders iter nowNs = a.toBook key nowNs := rfl

/-! ## The order of a rendering -/

/-- A price key that is rendered before another on a side. -/
def Better (bid : Bool) (k k' : Int) : Prop := if bid then k' < k else k < k'

/-- Changes that set levels of one side, best first and no price key twice. -/
structure LevelRun (bid : Bool) (cs : List BookChange) : Prop where
  sets : ∀ c ∈ cs, c.action = .update ∧ c.side = (if bid then .bid else .ask) ∧ c.orderId = 0
  sorted : cs.Pairwise fun c c' => Better bid (fixedKey c.price) (fixedKey c'.price)

/-- Changes that set orders of one side, best first, those at one price by id. -/
structure OrderRun (bid : Bool) (cs : List BookChange) : Prop where
  sets : ∀ c ∈ cs, c.action = .update ∧ c.side = (if bid then .bid else .ask) ∧ c.orderId ≠ 0
  sorted : cs.Pairwise fun c c' => Better bid (fixedKey c.price) (fixedKey c'.price) ∨
    fixedKey c.price = fixedKey c'.price ∧ c.orderId < c'.orderId

/-- A clear of both sides, then the levels, then the orders, each bids first, no order id twice. -/
inductive Rendered : List BookChange → Prop
  | mk (bids asks bidOrders askOrders : List BookChange) (hbids : LevelRun true bids) (hasks : LevelRun false asks)
      (hbidOrders : OrderRun true bidOrders) (haskOrders : OrderRun false askOrders)
      (hids : ((bidOrders ++ askOrders).map (·.orderId)).Nodup) :
      Rendered (clearBoth :: ((bids ++ asks) ++ (bidOrders ++ askOrders)))

variable {a : BookAccumulator}

theorem levelRun_bids (h : a.toResting.Valid) :
    LevelRun true (a.bids.toList.reverse.map fun e => ⟨.update, .bid, e.2.1, e.2.2, 0⟩) := by
  have hkey : ∀ e ∈ a.bids.toList.reverse, fixedKey e.2.1 = e.1 := fun e he =>
    (h.bids e.1 e.2 (FinMap.mem_toList.mp (List.mem_reverse.mp he))).1
  refine ⟨fun c hc => ?_, ?_⟩
  · obtain ⟨e, -, rfl⟩ := List.mem_map.mp hc
    exact ⟨rfl, rfl, rfl⟩
  · rw [List.pairwise_map]
    have hsorted : a.bids.toList.reverse.Pairwise fun e e' => e'.1 < e.1 :=
      List.pairwise_reverse.mpr a.bids.toList_pairwise
    refine hsorted.imp_of_mem fun he he' hlt => ?_
    show fixedKey _ < fixedKey _
    rw [hkey _ he, hkey _ he']
    exact hlt

theorem levelRun_asks (h : a.toResting.Valid) :
    LevelRun false (a.asks.toList.map fun e => ⟨.update, .ask, e.2.1, e.2.2, 0⟩) := by
  have hkey : ∀ e ∈ a.asks.toList, fixedKey e.2.1 = e.1 := fun e he =>
    (h.asks e.1 e.2 (FinMap.mem_toList.mp he)).1
  refine ⟨fun c hc => ?_, ?_⟩
  · obtain ⟨e, -, rfl⟩ := List.mem_map.mp hc
    exact ⟨rfl, rfl, rfl⟩
  · rw [List.pairwise_map]
    refine a.asks.toList_pairwise.imp_of_mem fun he he' hlt => ?_
    show fixedKey _ < fixedKey _
    rw [hkey _ he, hkey _ he']
    exact hlt

theorem orderBefore_trans (x y z : Nat × RestingOrder) (hxy : orderBefore x y = true) (hyz : orderBefore y z = true) :
    orderBefore x z = true := by
  unfold orderBefore at *
  cases hx : x.2.isBid <;> cases hy : y.2.isBid <;> cases hz : z.2.isBid <;>
    simp only [hx, hy, hz, if_true, Bool.false_eq_true, if_false, decide_eq_true_eq] at hxy hyz ⊢
  all_goals omega

theorem orderBefore_total (x y : Nat × RestingOrder) : (orderBefore x y || orderBefore y x) = true := by
  unfold orderBefore
  cases hx : x.2.isBid <;> cases hy : y.2.isBid <;>
    simp only [if_true, Bool.false_eq_true, if_false, Bool.or_eq_true, decide_eq_true_eq, Bool.or_true, Bool.true_or]
  all_goals omega

/-- The order set is sorted, and no two of its ids are the same. -/
theorem orderSet_pairwise (a : BookAccumulator) :
    a.orderSet.Pairwise fun x y => orderBefore x y = true ∧ x.1 ≠ y.1 := by
  have hsorted := List.pairwise_mergeSort orderBefore_trans orderBefore_total a.orders.toList
  have hnodup : (a.orderSet.map Prod.fst).Nodup := by
    have hperm := (List.mergeSort_perm a.orders.toList orderBefore).map Prod.fst
    rw [orderSet, hperm.nodup_iff, FinMap.map_fst_toList]
    exact Finset.sort_nodup _ _
  exact hsorted.and (List.pairwise_map.mp hnodup)

/-- In a list where nothing without a mark is ahead of something with it, the marked part comes first. -/
theorem filter_append_of_pairwise {α : Type*} (p : α → Bool) : ∀ {l : List α},
    l.Pairwise (fun x y => p y = true → p x = true) → l.filter p ++ l.filter (fun x => !p x) = l
  | [], _ => rfl
  | x :: l, h => by
    obtain ⟨hx, hl⟩ := List.pairwise_cons.mp h
    cases hp : p x with
    | true =>
      rw [List.filter_cons_of_pos hp, List.filter_cons_of_neg (by simp [hp]), List.cons_append,
        filter_append_of_pairwise p hl]
    | false =>
      have hnone : l.filter p = [] := by
        refine List.filter_eq_nil_iff.mpr fun y hy hpy => ?_
        rw [hx y hy hpy] at hp
        cases hp
      have hall : l.filter (fun x => !p x) = l := by
        refine List.filter_eq_self.mpr fun y hy => ?_
        have hpy : ¬ p y = true := List.filter_eq_nil_iff.mp hnone y hy
        simpa using hpy
      rw [List.filter_cons_of_neg (by simp [hp]), List.filter_cons_of_pos (by simp [hp]), hnone, hall, List.nil_append]

/-- **The orders are rendered bids first.** -/
theorem orderSet_split (a : BookAccumulator) :
    a.orderSet.filter (·.2.isBid) ++ a.orderSet.filter (fun e => !e.2.isBid) = a.orderSet := by
  refine filter_append_of_pairwise _ (a.orderSet_pairwise.imp fun {x y} h hy => ?_)
  cases hx : x.2.isBid with
  | true => rfl
  | false =>
    have hbefore := h.1
    unfold orderBefore at hbefore
    simp [hx, hy] at hbefore

/-- The change that sets an order. -/
def orderChange (e : Nat × RestingOrder) : BookChange :=
  ⟨.update, if e.2.isBid then .bid else .ask, e.2.price, e.2.size, e.1⟩

theorem orderRun_of_sublist (h : a.toResting.Valid) {bid : Bool} {l : List (Nat × RestingOrder)}
    (hsub : l.Sublist a.orderSet) (hside : ∀ e ∈ l, e.2.isBid = bid) : OrderRun bid (l.map orderChange) := by
  have hfiled : ∀ e ∈ l, FiledOrder e.1 e.2 := fun e he =>
    h.orders e.1 e.2 (FinMap.mem_toList.mp (List.mem_mergeSort.mp (hsub.subset he)))
  refine ⟨fun c hc => ?_, ?_⟩
  · obtain ⟨e, he, rfl⟩ := List.mem_map.mp hc
    refine ⟨rfl, ?_, (hfiled e he).id_ne⟩
    rw [← hside e he]
    rfl
  · rw [List.pairwise_map]
    refine (a.orderSet_pairwise.sublist hsub).imp_of_mem fun {x y} hx hy hxy => ?_
    obtain ⟨hbefore, hne⟩ := hxy
    unfold orderBefore at hbefore
    show Better bid (fixedKey x.2.price) (fixedKey y.2.price) ∨
      fixedKey x.2.price = fixedKey y.2.price ∧ x.1 < y.1
    rw [(hfiled x hx).key, (hfiled y hy).key]
    rw [hside x hx, hside y hy] at hbefore
    unfold Better
    cases bid <;> simp only [if_true, Bool.false_eq_true, if_false, decide_eq_true_eq] at hbefore ⊢ <;> omega

theorem rendered_orders (h : a.toResting.Valid) (key : BookKey) (iter : List RestingOrder) (nowNs : Nat) :
    Rendered (a.toBookIn key .orders iter nowNs).changes := by
  have hbids : OrderRun true ((a.orderSet.filter (·.2.isBid)).map orderChange) :=
    orderRun_of_sublist h List.filter_sublist fun e he => (List.mem_filter.mp he).2
  have hasks : OrderRun false ((a.orderSet.filter fun e => !e.2.isBid).map orderChange) :=
    orderRun_of_sublist h List.filter_sublist fun e he => by simpa using (List.mem_filter.mp he).2
  have hsplit : (a.orderSet.filter (·.2.isBid)).map orderChange ++
      (a.orderSet.filter fun e => !e.2.isBid).map orderChange = a.orderSet.map orderChange := by
    rw [← List.map_append, orderSet_split]
  have hids : ((a.orderSet.map orderChange).map (·.orderId)).Nodup := by
    rw [List.map_map]
    exact List.pairwise_map.mpr (a.orderSet_pairwise.imp fun hxy => hxy.2)
  have hrendered := Rendered.mk _ _ _ _ (levelRun_bids h) (levelRun_asks h) hbids hasks (by rw [hsplit]; exact hids)
  rw [hsplit] at hrendered
  exact hrendered

/-! ## The orders folded into levels -/

/-- The orders of one side at one price key, in the order in which the map yields them. -/
def ordersAt (iter : List RestingOrder) (bid : Bool) (key : Int) : List RestingOrder :=
  iter.filter fun o => o.isBid = bid ∧ o.key = key

/-- The level that some orders at one price fold into. -/
def levelOf : List RestingOrder → Option CountedLevel
  | [] => none
  | o :: os => some ⟨o.price, ((o :: os).map (·.size)).foldl F64.add F64.zero, os.length + 1⟩

/-- A level is joined by the orders at its price, one after the other. -/
def joinLevel (level : Option CountedLevel) : List RestingOrder → Option CountedLevel
  | [] => level
  | o :: os =>
    let e := level.getD ⟨o.price, F64.zero, 0⟩
    joinLevel (some { e with size := e.size.add o.size, count := e.count + 1 }) os

theorem joinLevel_some : ∀ (os : List RestingOrder) (l : CountedLevel), joinLevel (some l) os =
    some ⟨l.price, (os.map (·.size)).foldl F64.add l.size, l.count + os.length⟩
  | [], _ => rfl
  | o :: os, l => by
    unfold joinLevel
    rw [joinLevel_some os]
    simp only [Option.getD_some, List.map_cons, List.foldl_cons, List.length_cons]
    rw [Nat.add_assoc, Nat.add_comm 1]

theorem joinLevel_none (os : List RestingOrder) : joinLevel none os = levelOf os := by
  cases os with
  | nil => rfl
  | cons o os =>
    unfold joinLevel levelOf
    rw [joinLevel_some]
    simp only [Option.getD_none, List.map_cons, List.foldl_cons, Nat.zero_add]
    rw [Nat.add_comm]

/-- One side of the fold. -/
def sideOf (sides : FinMap Int CountedLevel × FinMap Int CountedLevel) (bid : Bool) : FinMap Int CountedLevel :=
  if bid then sides.1 else sides.2

theorem foldSides_get (bid : Bool) (key : Int) : ∀ (iter : List RestingOrder)
    (sides : FinMap Int CountedLevel × FinMap Int CountedLevel),
    (sideOf (foldSides iter sides) bid).get key = joinLevel ((sideOf sides bid).get key) (ordersAt iter bid key)
  | [], _ => rfl
  | o :: os, (bids, asks) => by
    unfold foldSides
    rw [foldSides_get bid key os]
    -- an order of the other side, or at another price, leaves the level alone
    have hstep : (sideOf (if o.isBid then (countOrder bids o, asks) else (bids, countOrder asks o)) bid).get key =
        if o.isBid = bid ∧ o.key = key then
          some { ((sideOf (bids, asks) bid).get key).getD ⟨o.price, F64.zero, 0⟩ with
            size := (((sideOf (bids, asks) bid).get key).getD ⟨o.price, F64.zero, 0⟩).size.add o.size
            count := (((sideOf (bids, asks) bid).get key).getD ⟨o.price, F64.zero, 0⟩).count + 1 }
        else (sideOf (bids, asks) bid).get key := by
      have hcount : ∀ side : FinMap Int CountedLevel, (countOrder side o).get key =
          if o.key = key then
            some { (side.get key).getD ⟨o.price, F64.zero, 0⟩ with
              size := ((side.get key).getD ⟨o.price, F64.zero, 0⟩).size.add o.size
              count := ((side.get key).getD ⟨o.price, F64.zero, 0⟩).count + 1 }
          else side.get key := by
        intro side
        unfold countOrder
        rw [FinMap.get_insert]
        by_cases hk : o.key = key
        · rw [if_pos hk.symm, if_pos hk, hk]
        · rw [if_neg (fun h => hk h.symm), if_neg hk]
      cases hb : o.isBid <;> cases bid <;> simp [sideOf, hcount]
    rw [hstep]
    by_cases hat : o.isBid = bid ∧ o.key = key
    · have hcons : ordersAt (o :: os) bid key = o :: ordersAt os bid key :=
        List.filter_cons_of_pos (by simpa using hat)
      rw [if_pos hat, hcons]
      rfl
    · have hskip : ordersAt (o :: os) bid key = ordersAt os bid key :=
        List.filter_cons_of_neg (by simpa using hat)
      rw [if_neg hat, hskip]

/-- **The level of a price is the fold of the orders there.** -/
theorem priceFold_get (iter : List RestingOrder) (bid : Bool) (key : Int) :
    (sideOf (foldSides iter (∅, ∅)) bid).get key = levelOf (ordersAt iter bid key) := by
  rw [foldSides_get, ← joinLevel_none]
  cases bid <;> rfl

/-- What some orders of one side are rendered as in the level scope: one level a price, best first, each with the sum of
the sizes there, which is exact unless a partial sum is rounded. -/
structure FoldedRun (iter : List RestingOrder) (bid : Bool) (cs : List BookChange) : Prop extends LevelRun bid cs where
  sum : ∀ c ∈ cs, ∃ o os, ordersAt iter bid (fixedKey c.price) = o :: os ∧ c.price = o.price ∧
    c.size = ((o :: os).map (·.size)).foldl F64.add F64.zero
  covers : ∀ o ∈ iter, o.isBid = bid → ∃ c ∈ cs, fixedKey c.price = o.key
  exact : ∀ c ∈ cs,
    (∀ n, F64.Representable (((ordersAt iter bid (fixedKey c.price)).take n).map (·.size.units)).sum) →
    c.size.units = ((ordersAt iter bid (fixedKey c.price)).map (·.size.units)).sum

/-- The change that sets a folded level. -/
def levelChange (bid : Bool) (l : CountedLevel) : BookChange :=
  ⟨.update, if bid then .bid else .ask, l.price, l.size, 0⟩

/-- The orders of a valid book, in any order. -/
def FiledOrders (iter : List RestingOrder) : Prop :=
  ∀ o ∈ iter, fixedKey o.price = o.key ∧ o.size.isFinite = true

theorem filedOrders_of_perm (h : a.toResting.Valid) {iter : List RestingOrder}
    (hperm : iter.Perm (a.orders.toList.map (·.2))) : FiledOrders iter := by
  intro o ho
  obtain ⟨e, he, rfl⟩ := List.mem_map.mp (hperm.subset ho)
  have hfiled := h.orders e.1 e.2 (FinMap.mem_toList.mp he)
  exact ⟨hfiled.key, hfiled.finite.2⟩

theorem foldedRun_of_entries {iter : List RestingOrder} (hfiled : FiledOrders iter) {bid : Bool}
    {l : List (Int × CountedLevel)} (hmem : ∀ k lv, (k, lv) ∈ l ↔ (sideOf (foldSides iter (∅, ∅)) bid).get k = some lv)
    (hsorted : l.Pairwise fun e e' => Better bid e.1 e'.1) :
    FoldedRun iter bid ((l.map (·.2)).map (levelChange bid)) := by
  -- each entry is the fold of the orders at its own key
  have hentry : ∀ k lv, (k, lv) ∈ l → fixedKey lv.price = k ∧ ∃ o os, ordersAt iter bid k = o :: os ∧
      lv.price = o.price ∧ lv.size = ((o :: os).map (·.size)).foldl F64.add F64.zero := by
    intro k lv hin
    have hget := (hmem k lv).mp hin
    rw [priceFold_get] at hget
    cases hat : ordersAt iter bid k with
    | nil => rw [hat] at hget; cases hget
    | cons o os =>
      rw [hat] at hget
      cases hget
      have ho : o ∈ iter.filter _ := hat ▸ (List.mem_cons_self : o ∈ o :: os)
      obtain ⟨hin, hwhere⟩ := List.mem_filter.mp ho
      rw [decide_eq_true_iff] at hwhere
      exact ⟨(hfiled o hin).1.trans hwhere.2, o, os, rfl, rfl, rfl⟩
  have hkey : ∀ c ∈ (l.map (·.2)).map (levelChange bid), ∃ k lv, (k, lv) ∈ l ∧ c = levelChange bid lv ∧
      fixedKey c.price = k := by
    intro c hc
    obtain ⟨lv, hlv, rfl⟩ := List.mem_map.mp hc
    obtain ⟨⟨k, lv'⟩, hin, rfl⟩ := List.mem_map.mp hlv
    exact ⟨k, lv', hin, rfl, (hentry k lv' hin).1⟩
  have hsum : ∀ c ∈ (l.map (·.2)).map (levelChange bid), ∃ o os, ordersAt iter bid (fixedKey c.price) = o :: os ∧
      c.price = o.price ∧ c.size = ((o :: os).map (·.size)).foldl F64.add F64.zero := by
    intro c hc
    obtain ⟨k, lv, hin, rfl, hk⟩ := hkey c hc
    rw [hk]
    exact (hentry k lv hin).2
  refine { sets := fun c hc => ?_, sorted := ?_, sum := hsum, covers := fun o ho hside => ?_, exact := ?_ }
  · obtain ⟨k, lv, -, rfl, -⟩ := hkey c hc
    exact ⟨rfl, rfl, rfl⟩
  · rw [List.map_map, List.pairwise_map]
    refine hsorted.imp_of_mem fun {e e'} he he' hbetter => ?_
    show Better bid (fixedKey e.2.price) (fixedKey e'.2.price)
    rw [(hentry e.1 e.2 he).1, (hentry e'.1 e'.2 he').1]
    exact hbetter
  · have hat : o ∈ ordersAt iter bid o.key := List.mem_filter.mpr ⟨ho, decide_eq_true ⟨hside, rfl⟩⟩
    obtain ⟨o', os, hcons⟩ := List.exists_cons_of_ne_nil (List.ne_nil_of_mem hat)
    have hget := priceFold_get iter bid o.key
    rw [hcons] at hget
    have hin := (hmem _ _).mpr hget
    exact ⟨_, List.mem_map_of_mem (List.mem_map_of_mem hin), (hentry _ _ hin).1⟩
  · intro c hc hrep
    obtain ⟨o, os, hat, -, hsize⟩ := hsum c hc
    rw [hat] at hrep ⊢
    have hfinite : ∀ x ∈ (o :: os).map (·.size), x.isFinite = true := by
      intro x hx
      obtain ⟨o', ho', rfl⟩ := List.mem_map.mp hx
      exact (hfiled o' (List.mem_filter.mp (hat ▸ ho')).1).2
    have hpartial : ∀ n, F64.Representable
        (F64.zero.units + ((((o :: os).map (·.size)).take n).map F64.units).sum) := by
      intro n
      have hzero : F64.zero.units = 0 := rfl
      rw [← List.map_take, List.map_map, hzero, Int.zero_add]
      exact hrep n
    have hexact := (F64.sum_exact _ F64.zero rfl hfinite hpartial).2
    rw [hsize, hexact, List.map_map]
    exact Int.zero_add _

/-- A clear of both sides, then the levels, then the orders folded into levels. -/
inductive RenderedLevels (a : BookAccumulator) (iter : List RestingOrder) : List BookChange → Prop
  | mk (bidOrders askOrders : List BookChange) (hbids : FoldedRun iter true bidOrders)
      (hasks : FoldedRun iter false askOrders) :
      RenderedLevels a iter (clearBoth :: (a.sideChanges ++ (bidOrders ++ askOrders)))

theorem rendered_levels (h : a.toResting.Valid) (key : BookKey) {iter : List RestingOrder}
    (hperm : iter.Perm (a.orders.toList.map (·.2))) (nowNs : Nat) :
    RenderedLevels a iter (a.toBookIn key .levels iter nowNs).changes := by
  have hfiled := filedOrders_of_perm h hperm
  have hbids : FoldedRun iter true ((priceFold iter).1.map (levelChange true)) :=
    foldedRun_of_entries hfiled (fun k lv => List.mem_reverse.trans FinMap.mem_toList)
      (List.pairwise_reverse.mpr (FinMap.toList_pairwise _))
  have hasks : FoldedRun iter false ((priceFold iter).2.map (levelChange false)) :=
    foldedRun_of_entries hfiled (fun k lv => FinMap.mem_toList) (FinMap.toList_pairwise _)
  exact .mk _ _ hbids hasks

/-! ## Joining consumers -/

/-- **A book bootstraps a consumer.**  Handed the re-baseline, the consumer is complete and holds the book after any
further batches; the re-baseline is a clear and every level and order, best first; and folded into levels, the orders
of each price are rendered as one with the sum of their sizes. -/
structure Bootstraps (a : BookAccumulator) : Prop where
  follows : ∀ (symbol : String) (key : BookKey) (iter : List RestingOrder) (nowNs : Nat) (more : List NormalizedBook),
    (more.foldl apply ((new symbol).apply (a.toBookIn key .orders iter nowNs))).sameState (more.foldl apply a) = true
  baselined : ∀ (symbol : String) (key : BookKey) (iter : List RestingOrder) (nowNs : Nat),
    ((new symbol).apply (a.toBookIn key .orders iter nowNs)).baselined = true
  rendered : ∀ (key : BookKey) (iter : List RestingOrder) (nowNs : Nat),
    Rendered (a.toBookIn key .orders iter nowNs).changes
  renderedLevels : ∀ (key : BookKey) (iter : List RestingOrder) (nowNs : Nat),
    iter.Perm (a.orders.toList.map (·.2)) → RenderedLevels a iter (a.toBookIn key .levels iter nowNs).changes

theorem applyAll_valid : ∀ (batches : List NormalizedBook) {a : BookAccumulator}, a.Valid →
    (batches.foldl apply a).Valid
  | [], _, h => h
  | b :: batches, _, h => applyAll_valid batches (h.apply b)

/-- What a book holds after further batches does not depend on whether it was complete. -/
theorem feedAll_rests : ∀ (more : List NormalizedBook) (r : Resting) (pending : List BookChange) (flag flag' : Bool),
    ((⟨r, pending, flag⟩ : EventBook).feedAll more).rests = ((⟨r, pending, flag'⟩ : EventBook).feedAll more).rests
  | [], _, _, _, _ => rfl
  | b :: more, r, pending, flag, flag' => by
    show (((⟨r, pending, flag⟩ : EventBook).feed b.changes b.last).feedAll more).rests =
      (((⟨r, pending, flag'⟩ : EventBook).feed b.changes b.last).feedAll more).rests
    unfold EventBook.feed
    simp only
    split
    · exact feedAll_rests more _ _ _ _
    · split
      · exact feedAll_rests more _ _ _ _
      · exact feedAll_rests more _ _ _ _

theorem core_bootstrap (h : a.Valid) (symbol : String) (key : BookKey) (nowNs : Nat) :
    ((new symbol).apply (a.toBook key nowNs)).core = ⟨a.toResting, [], true⟩ := by
  rw [core_apply]
  exact EventBook.feed_toBook h _

/-- **Bootstrap from a re-baseline equals having followed the feed**, for every book a feed builds that has no open
event. -/
theorem rebaseline_bootstraps (symbol : String) (batches : List NormalizedBook)
    (hclosed : (batches.foldl apply (new symbol)).pending = []) :
    Bootstraps (batches.foldl apply (new symbol)) := by
  have h : (batches.foldl apply (new symbol)).Valid := applyAll_valid batches (Valid.new symbol)
  generalize batches.foldl apply (new symbol) = a at h hclosed
  refine { follows := fun symbol' key iter nowNs more => ?_, baselined := fun symbol' key iter nowNs => ?_,
           rendered := fun key iter nowNs => rendered_orders h.rests key iter nowNs,
           renderedLevels := fun key iter nowNs hperm => rendered_levels h.rests key hperm nowNs }
  · rw [toBookIn_orders, sameState_iff]
    have hcore : a.core = ⟨a.toResting, [], a.baselined⟩ := by rw [← hclosed]; rfl
    show (more.foldl apply ((new symbol').apply (a.toBook key nowNs))).core.rests = (more.foldl apply a).core.rests
    rw [EventBook.core_applyAll, EventBook.core_applyAll, core_bootstrap h, hcore]
    exact feedAll_rests more _ _ _ _
  · rw [toBookIn_orders]
    exact congrArg EventBook.complete (core_bootstrap h symbol' key nowNs)

/-- A bid of an order at a price of `1.0`. -/
def bidAtOne (orderId : Nat) (size : F64) : BookChange := ⟨.update, .bid, ⟨0x3FF0000000000000⟩, size, orderId⟩

/-- Two bids at one price, of sizes `2^53` and `1`. -/
def heavyBatch : NormalizedBook where
  venue := "phoenix"
  sourceName := "phoenix"
  sourceId := 1
  symbol := "SOL"
  channel := 0
  instrumentId := 1
  category := "crypto"
  orderLevel := true
  changes := [clearBoth, bidAtOne 1 ⟨0x4340000000000000⟩, bidAtOne 2 ⟨0x3FF0000000000000⟩]
  batchId := none
  snapshot := true
  last := true
  sourceTsNs := 1
  recvTsNs := 1
  kernelRxTsNs := 0
  wsSendTsNs := 0

/-- A book of two orders bootstraps a consumer. -/
theorem heavy_bootstraps : Bootstraps ([heavyBatch].foldl apply (new "SOL")) :=
  rebaseline_bootstraps "SOL" [heavyBatch] rfl

/-- The two orders as they rest. -/
def heavyOrders : List RestingOrder :=
  [⟨true, 100000000, ⟨0x3FF0000000000000⟩, ⟨0x4340000000000000⟩⟩,
    ⟨true, 100000000, ⟨0x3FF0000000000000⟩, ⟨0x3FF0000000000000⟩⟩]

theorem heavyBatch_orders : ([heavyBatch].foldl apply (new "SOL")).orders.toList.map (·.2) = heavyOrders := by
  have hkeys : ([heavyBatch].foldl apply (new "SOL")).orders.keys = {1, 2} := by decide +kernel
  have hsort : ({1, 2} : Finset Nat).sort (· ≤ ·) = [1, 2] := by
    rw [Finset.sort_insert (· ≤ ·) (by decide) (by decide), Finset.sort_singleton]
  unfold FinMap.toList
  rw [hkeys, hsort]
  decide +kernel

/-- In whichever order the map yields the two orders, the level of their price is rendered `1` short of their sum. -/
theorem levels_round : ([heavyBatch].foldl apply (new "SOL")).pending = [] ∧
    ([heavyBatch].foldl apply (new "SOL")).orderLevel = true ∧
    ∀ (key : BookKey) (nowNs : Nat) (iter : List RestingOrder),
      iter.Perm (([heavyBatch].foldl apply (new "SOL")).orders.toList.map (·.2)) →
      ∃ c ∈ (([heavyBatch].foldl apply (new "SOL")).toBookIn key .levels iter nowNs).changes,
        c.action = .update ∧ c.side = .bid ∧
          c.size.units + (F64.mk 0x3FF0000000000000).units =
            ((ordersAt iter true (fixedKey c.price)).map (·.size.units)).sum := by
  refine ⟨rfl, rfl, fun key nowNs iter hperm => ?_⟩
  rw [heavyBatch_orders] at hperm
  have hlevel : (foldSides iter (∅, ∅)).1.get 100000000 =
      some ⟨⟨0x3FF0000000000000⟩, ⟨0x4340000000000000⟩, 2⟩ := by
    rcases List.perm_pair.mp hperm with rfl | rfl <;> decide +kernel
  refine ⟨bidAtOne 0 ⟨0x4340000000000000⟩, ?_, rfl, rfl, ?_⟩
  · have hin := List.mem_map_of_mem (f := (·.2)) (List.mem_reverse.mpr (FinMap.mem_toList.mpr hlevel))
    exact List.mem_cons_of_mem _ (List.mem_append_right _
      (List.mem_append_left _ (List.mem_map.mpr ⟨_, hin, rfl⟩)))
  · rcases List.perm_pair.mp hperm with rfl | rfl <;> decide +kernel

end BookAccumulator

end EdgeConnect
