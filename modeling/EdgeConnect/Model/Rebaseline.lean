import EdgeConnect.Model.Accumulator

/-!
# A re-baseline rebuilds its book

`to_book` renders an accumulated book as a clear followed by every level and every order.  A consumer
that folds it holds that book again, whatever it held before.

* `Resting.Valid` — every entry is filed under its own fixed-point key or its own id, is finite, and no
  order of size `0` rests; every fold keeps it;
* `foldChanges_toBook` — the changes of a re-baseline rebuild the levels and the orders;
* `EventBook.feed_toBook` — so a consumer fed the re-baseline rests the same book, complete, with no open
  event;
* `sameState_iff` — `same_state` is equality of what rests.
-/

set_option autoImplicit false

namespace EdgeConnect

/-! ## Entries under their own keys -/

/-- A level filed under the key of its own finite price, with a finite size. -/
def FiledLevel (key : Int) (level : F64 × F64) : Prop :=
  fixedKey level.1 = key ∧ level.1.isFinite = true ∧ level.2.isFinite = true

/-- An order filed under its own id and price key, resting something. -/
structure FiledOrder (id : Nat) (o : RestingOrder) : Prop where
  id_ne : id ≠ 0
  key : fixedKey o.price = o.key
  finite : o.price.isFinite = true ∧ o.size.isFinite = true
  size_ne : o.size.eq F64.zero = false

namespace Resting

structure Valid (r : Resting) : Prop where
  bids : ∀ k l, r.bids.get k = some l → FiledLevel k l
  asks : ∀ k l, r.asks.get k = some l → FiledLevel k l
  orders : ∀ id o, r.orders.get id = some o → FiledOrder id o

variable {r : Resting} {c : BookChange}

theorem Valid.empty : Valid .empty := by
  refine ⟨?_, ?_, ?_⟩ <;> · intro _ _ h; cases h

theorem Valid.clearSide (h : r.Valid) (side : BookSide) : (r.clearSide side).Valid := by
  have hfilter : ∀ (p : Nat → RestingOrder → Bool) (id : Nat) (o : RestingOrder),
      (r.orders.filter p).get id = some o → FiledOrder id o := fun p id o ho =>
    h.orders id o (Option.filter_eq_some_iff.mp ho).1
  cases side with
  | bid => exact ⟨nofun, h.asks, hfilter _⟩
  | ask => exact ⟨h.bids, nofun, hfilter _⟩
  | both =>
    refine ⟨nofun, nofun, fun id o ho => ?_⟩
    exact hfilter _ id o (Option.filter_eq_some_iff.mp ho).1

theorem filed_erase {K V : Type*} [DecidableEq K] {m : FinMap K V} {P : K → V → Prop}
    (h : ∀ k v, m.get k = some v → P k v) (k' k : K) (v : V) (hv : (m.erase k').get k = some v) :
    P k v := by
  rw [FinMap.get_erase] at hv
  split at hv
  · cases hv
  · exact h k v hv

theorem filed_insert {K V : Type*} [DecidableEq K] {m : FinMap K V} {P : K → V → Prop}
    (h : ∀ k v, m.get k = some v → P k v) {k' : K} {v' : V} (hnew : P k' v') (k : K) (v : V)
    (hv : (m.insert k' v').get k = some v) : P k v := by
  rw [FinMap.get_insert] at hv
  split at hv
  · rename_i hk; cases hv; rw [hk]; exact hnew
  · exact h k v hv

theorem Valid.applyChange (h : r.Valid) (hc : c.isFinite = true) : (r.applyChange c).Valid := by
  have hfin : c.price.isFinite = true ∧ c.size.isFinite = true := by
    simpa [BookChange.isFinite] using hc
  have hlevel : FiledLevel (fixedKey c.price) (c.price, c.size) := ⟨rfl, hfin⟩
  unfold Resting.applyChange
  simp only
  split
  · rename_i hid
    split
    · exact ⟨h.bids, h.asks, filed_erase h.orders _⟩
    · split
      · exact ⟨h.bids, h.asks, filed_erase h.orders _⟩
      · rename_i hz
        exact ⟨h.bids, h.asks, filed_insert h.orders ⟨hid, rfl, hfin, by simpa using hz⟩⟩
    · exact h.clearSide c.side
  · split
    · exact h.clearSide c.side
    · exact ⟨filed_erase h.bids _, h.asks, h.orders⟩
    · exact ⟨h.bids, filed_erase h.asks _, h.orders⟩
    · exact ⟨filed_insert h.bids hlevel, h.asks, h.orders⟩
    · exact ⟨h.bids, filed_insert h.asks hlevel, h.orders⟩
    · exact h

theorem Valid.foldChanges : ∀ (cs : List BookChange) {r : Resting}, r.Valid →
    (∀ c ∈ cs, c.isFinite = true) → (r.foldChanges cs).Valid
  | [], _, h, _ => h
  | c :: cs, _, h, hcs => Valid.foldChanges cs (h.applyChange (hcs c List.mem_cons_self))
      fun c' hc' => hcs c' (List.mem_cons_of_mem _ hc')

end Resting

namespace EventBook

/-- What every accumulated book keeps. -/
structure Valid (e : EventBook) : Prop where
  rests : e.rests.Valid
  finite : ∀ c ∈ e.pending, c.isFinite = true
  orders : e.rests.orders.size ≤ MAX_ACCUMULATED_ORDERS
  pending : e.pending.length ≤ MAX_PENDING_CHANGES

variable {e : EventBook} {changes : List BookChange}

theorem bound_valid {r : Resting} (h : r.Valid) :
    (bound r).Valid ∧ (bound r).orders.size ≤ MAX_ACCUMULATED_ORDERS := by
  unfold bound
  split
  · exact ⟨⟨h.bids, h.asks, nofun⟩, Nat.zero_le _⟩
  · rename_i ho
    exact ⟨h, Nat.not_lt.mp ho⟩

theorem bound_eq {r : Resting} (h : r.orders.size ≤ MAX_ACCUMULATED_ORDERS) : bound r = r :=
  if_neg (Nat.not_lt.mpr h)

theorem Valid.feed (h : e.Valid) (changes : List BookChange) (last : Bool) :
    (e.feed changes last).Valid := by
  have hfin : ∀ c ∈ e.pending ++ changes.filter BookChange.isFinite, c.isFinite = true := by
    intro c hc
    rcases List.mem_append.mp hc with hc | hc
    · exact h.finite c hc
    · exact (List.mem_filter.mp hc).2
  unfold EventBook.feed
  simp only
  split
  · obtain ⟨hv, ho⟩ := bound_valid (h.rests.foldChanges _ hfin)
    exact ⟨hv, nofun, ho, Nat.zero_le _⟩
  · split
    · exact ⟨h.rests, nofun, h.orders, Nat.zero_le _⟩
    · rename_i hlen
      exact ⟨h.rests, hfin, h.orders, Nat.not_lt.mp hlen⟩

end EventBook

/-- An accumulator with a valid book. -/
def BookAccumulator.Valid (a : BookAccumulator) : Prop := a.core.Valid

theorem BookAccumulator.Valid.new (symbol : String) : (BookAccumulator.new symbol).Valid :=
  ⟨Resting.Valid.empty, nofun, Nat.zero_le _, Nat.zero_le _⟩

theorem BookAccumulator.Valid.apply {a : BookAccumulator} (h : a.Valid) (b : NormalizedBook) :
    (a.apply b).Valid := by
  unfold Valid
  rw [core_apply]
  exact EventBook.Valid.feed h _ _

/-! ## The re-baseline -/

namespace Resting

variable {r : Resting}

theorem foldChanges_bids : ∀ (l : List (Int × (F64 × F64))) (r : Resting),
    (∀ e ∈ l, fixedKey e.2.1 = e.1) →
    r.foldChanges (l.map fun e => ⟨.update, .bid, e.2.1, e.2.2, 0⟩) =
      { r with bids := l.foldl (fun m e => m.insert e.1 e.2) r.bids }
  | [], _, _ => rfl
  | e :: l, r, h => by
    have hhead : r.applyChange ⟨.update, .bid, e.2.1, e.2.2, 0⟩ =
        { r with bids := r.bids.insert e.1 e.2 } := by
      rw [← h e List.mem_cons_self]
      rfl
    rw [List.map_cons, foldChanges, List.foldl_cons, hhead]
    exact foldChanges_bids l _ fun e' he' => h e' (List.mem_cons_of_mem _ he')

theorem foldChanges_asks : ∀ (l : List (Int × (F64 × F64))) (r : Resting),
    (∀ e ∈ l, fixedKey e.2.1 = e.1) →
    r.foldChanges (l.map fun e => ⟨.update, .ask, e.2.1, e.2.2, 0⟩) =
      { r with asks := l.foldl (fun m e => m.insert e.1 e.2) r.asks }
  | [], _, _ => rfl
  | e :: l, r, h => by
    have hhead : r.applyChange ⟨.update, .ask, e.2.1, e.2.2, 0⟩ =
        { r with asks := r.asks.insert e.1 e.2 } := by
      rw [← h e List.mem_cons_self]
      rfl
    rw [List.map_cons, foldChanges, List.foldl_cons, hhead]
    exact foldChanges_asks l _ fun e' he' => h e' (List.mem_cons_of_mem _ he')

theorem applyChange_order {id : Nat} {o : RestingOrder} (h : FiledOrder id o) :
    r.applyChange ⟨.update, if o.isBid then .bid else .ask, o.price, o.size, id⟩ =
      { r with orders := r.orders.insert id o } := by
  obtain ⟨isBid, key, price, size⟩ := o
  have hkey : fixedKey price = key := h.key
  have hsize : size.eq F64.zero = false := h.size_ne
  unfold applyChange
  simp only [h.id_ne, ne_eq, not_false_eq_true, if_true, hsize, Bool.false_eq_true, if_false, hkey]
  cases isBid <;> rfl

theorem foldChanges_orders : ∀ (l : List (Nat × RestingOrder)) (r : Resting),
    (∀ e ∈ l, FiledOrder e.1 e.2) →
    r.foldChanges (l.map fun e =>
        ⟨.update, if e.2.isBid then .bid else .ask, e.2.price, e.2.size, e.1⟩) =
      { r with orders := l.foldl (fun m e => m.insert e.1 e.2) r.orders }
  | [], _, _ => rfl
  | e :: l, r, h => by
    rw [List.map_cons, foldChanges, List.foldl_cons, applyChange_order (h e List.mem_cons_self)]
    exact foldChanges_orders l _ fun e' he' => h e' (List.mem_cons_of_mem _ he')

theorem applyChange_clearBoth : r.applyChange BookAccumulator.clearBoth = .empty := by
  have horders : (r.applyChange BookAccumulator.clearBoth).orders = ∅ := by
    ext1 id
    show ((r.orders.get id).filter fun o => !o.isBid).filter (fun o => o.isBid) = none
    cases r.orders.get id with
    | none => rfl
    | some o => cases h : o.isBid <;> simp [Option.filter, h]
  have h : r.applyChange BookAccumulator.clearBoth =
      ⟨∅, ∅, (r.applyChange BookAccumulator.clearBoth).orders⟩ := rfl
  rw [h, horders]
  rfl

end Resting

namespace BookAccumulator

variable {a : BookAccumulator}

/-- **A re-baseline rebuilds its book**, whatever rested before. -/
theorem foldChanges_toBook (h : a.toResting.Valid) (r : Resting) :
    r.foldChanges (clearBoth :: a.levelChanges) = a.toResting := by
  have hbid : ∀ e ∈ a.bids.toList.reverse, fixedKey e.2.1 = e.1 := fun e he =>
    (h.bids e.1 e.2 (FinMap.mem_toList.mp (List.mem_reverse.mp he))).1
  have hask : ∀ e ∈ a.asks.toList, fixedKey e.2.1 = e.1 := fun e he =>
    (h.asks e.1 e.2 (FinMap.mem_toList.mp he)).1
  have hord : ∀ e ∈ a.orderSet, FiledOrder e.1 e.2 := fun e he =>
    h.orders e.1 e.2 (FinMap.mem_toList.mp (List.mem_mergeSort.mp he))
  show (r.applyChange clearBoth).foldChanges a.levelChanges = a.toResting
  rw [Resting.applyChange_clearBoth]
  unfold levelChanges
  rw [Resting.foldChanges_append, Resting.foldChanges_append, Resting.foldChanges_bids _ _ hbid,
    Resting.foldChanges_asks _ _ hask, Resting.foldChanges_orders _ _ hord]
  have hbids : a.bids.toList.reverse.foldl (fun m e => m.insert e.1 e.2) ∅ = a.bids :=
    FinMap.foldl_insert_eq fun k l => by rw [List.mem_reverse, FinMap.mem_toList]
  have hasks : a.asks.toList.foldl (fun m e => m.insert e.1 e.2) ∅ = a.asks :=
    FinMap.foldl_insert_eq fun k l => FinMap.mem_toList
  have horders : a.orderSet.foldl (fun m e => m.insert e.1 e.2) ∅ = a.orders :=
    FinMap.foldl_insert_eq fun id o => by rw [orderSet, List.mem_mergeSort, FinMap.mem_toList]
  simp only [Resting.empty, hbids, hasks, horders]

theorem finite_toBook (h : a.toResting.Valid) :
    ∀ c ∈ clearBoth :: a.levelChanges, c.isFinite = true := by
  intro c hc
  rcases List.mem_cons.mp hc with rfl | hc
  · rfl
  · unfold levelChanges at hc
    rcases List.mem_append.mp hc with hc | hc
    · rcases List.mem_append.mp hc with hc | hc
      · obtain ⟨e, he, rfl⟩ := List.mem_map.mp hc
        have hf := (h.bids e.1 e.2 (FinMap.mem_toList.mp (List.mem_reverse.mp he))).2
        simp [BookChange.isFinite, hf]
      · obtain ⟨e, he, rfl⟩ := List.mem_map.mp hc
        have hf := (h.asks e.1 e.2 (FinMap.mem_toList.mp he)).2
        simp [BookChange.isFinite, hf]
    · obtain ⟨e, he, rfl⟩ := List.mem_map.mp hc
      have hf := (h.orders e.1 e.2 (FinMap.mem_toList.mp (List.mem_mergeSort.mp he))).finite
      simp [BookChange.isFinite, hf]

end BookAccumulator

/-- Whatever clears both sides somewhere, clears them. -/
theorem clearedSides_of_mem {cs : List BookChange} (h : BookAccumulator.clearBoth ∈ cs) :
    clearedSides cs = (true, true) := by
  unfold clearedSides
  rw [List.any_eq_true.mpr ⟨_, h, rfl⟩, List.any_eq_true.mpr ⟨_, h, rfl⟩]

/-- **A consumer fed a re-baseline rests that book**, complete and with no open event. -/
theorem EventBook.feed_toBook {a : BookAccumulator} (h : a.Valid) (e : EventBook) :
    e.feed (BookAccumulator.clearBoth :: a.levelChanges) true = ⟨a.toResting, [], true⟩ := by
  have hrests : a.toResting.Valid := h.rests
  have horders : a.toResting.orders.size ≤ MAX_ACCUMULATED_ORDERS := h.orders
  have hfold : e.rests.foldChanges (e.pending ++ BookAccumulator.clearBoth :: a.levelChanges) =
      a.toResting := by
    rw [Resting.foldChanges_append, BookAccumulator.foldChanges_toBook hrests]
  unfold EventBook.feed
  rw [List.filter_eq_self.mpr (BookAccumulator.finite_toBook hrests)]
  simp only [if_true]
  rw [hfold, bound_eq horders, decide_eq_true horders, Bool.and_true,
    clearedSides_of_mem (List.mem_append_right _ List.mem_cons_self), decide_eq_true rfl, Bool.or_true]

/-! ## Comparing two books -/

namespace BookAccumulator

theorem zip_all_eq {α β : Type*} [DecidableEq α] [DecidableEq β] : ∀ l l' : List (α × β),
    l.length = l'.length →
    ((l.zip l').all (fun e => e.1.1 = e.2.1 ∧ e.1.2 = e.2.2)) = true → l = l'
  | [], [], _, _ => rfl
  | (x, y) :: l, (x', y') :: l', hlen, h => by
    simp only [List.zip_cons_cons, List.all_cons, Bool.and_eq_true, decide_eq_true_eq] at h
    obtain ⟨⟨rfl, rfl⟩, h⟩ := h
    rw [zip_all_eq l l' (Nat.succ.inj hlen) h]

theorem sideEq_iff {x y : FinMap Int (F64 × F64)} : sideEq x y = true ↔ x = y := by
  unfold sideEq
  rw [Bool.and_eq_true, beq_iff_eq]
  constructor
  · rintro ⟨hsize, hall⟩
    refine FinMap.toList_injective (zip_all_eq _ _ ?_ hall)
    rw [FinMap.length_toList, FinMap.length_toList, hsize]
  · rintro rfl
    refine ⟨rfl, List.all_eq_true.mpr fun e he => ?_⟩
    have heq : e.1 = e.2 := by
      rw [List.zip, List.zipWith_self] at he
      obtain ⟨x, -, rfl⟩ := List.mem_map.mp he
      rfl
    rw [heq]
    simp

/-- **`same_state` is equality of what rests.** -/
theorem sameState_iff {a a' : BookAccumulator} : a.sameState a' = true ↔ a.toResting = a'.toResting := by
  unfold sameState
  simp only [Bool.and_eq_true, sideEq_iff, beq_iff_eq, List.all_eq_true, decide_eq_true_eq]
  constructor
  · rintro ⟨⟨⟨hb, ha⟩, hsize⟩, hall⟩
    have hle : a.orders.Le a'.orders := fun id o ho => hall (id, o) (FinMap.mem_toList.mpr ho)
    have ho : a.orders = a'.orders := FinMap.eq_of_le_of_size hle (Nat.le_of_eq hsize.symm)
    show Resting.mk a.bids a.asks a.orders = _
    rw [hb, ha, ho]
  · intro h
    rw [h]
    exact ⟨⟨⟨rfl, rfl⟩, rfl⟩, fun e he => FinMap.mem_toList.mp he⟩

end BookAccumulator

end EdgeConnect
