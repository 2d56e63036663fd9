import EdgeConnect.Lib.LastWrite
import EdgeConnect.Sinks.HlPipeline

/-!
# Order maps

What a batch does to the orders of a market, in the shared accumulator and at a client.

* `changeEffect`, `effect` — the orders a change, and a batch, writes;
* `orderMap` — the map a client builds from the frames of a coin;
* `Regular` — a batch whose changes its frame can carry;
* `renderL4_effect` — a frame writes what its regular batch writes, and `orders_apply` so does the accumulator;
* `bootstrap_orders` — a bootstrap leaves the client with the accumulator's orders.
-/

set_option autoImplicit false

namespace EdgeConnect

namespace Hl

open Ws (BookSnapshot FeedMessage marketOf publishBook)

abbrev OrderMap := FinMap Nat (F64 × F64)

/-- The price and size a resting order has at a client. -/
def quote (o : RestingOrder) : F64 × F64 := (o.price, o.size)

/-- The orders of an accumulated book, as a client holds them. -/
def restingQuotes (r : Resting) : OrderMap := r.orders.mapVals quote

/-! ## What a client builds -/

def OrderDiffEntry.apply (u : OrderMap) (d : OrderDiffEntry) : OrderMap :=
  match d.rawBookDiff with
  | .new sz => u.insert d.oid (d.px, sz)
  | .update _ newSz => u.insert d.oid (d.px, newSz)
  | .remove => u.erase d.oid

def L4Data.apply (u : OrderMap) : L4Data → OrderMap
  | .snapshot bids asks => (bids ++ asks).foldl (fun u o => u.insert o.oid (o.limitPx, o.sz)) ∅
  | .updates diffs => diffs.foldl OrderDiffEntry.apply u

def Wire.apply (coin : String) (u : OrderMap) : Wire → OrderMap
  | .l4Book f => if f.coin = coin then f.data.apply u else u
  | _ => u

/-- The order map a client builds for a coin from what was written to it. -/
def orderMap (coin : String) (wire : List Wire) : OrderMap := wire.foldl (Wire.apply coin) ∅

/-! ## What a batch writes -/

/-- What a change does to an order: nothing, remove it, or set its price and size. -/
def changeEffect (c : BookChange) (oid : Nat) : Option (Option (F64 × F64)) :=
  if c.action = .clear then some none
  else if c.orderId = 0 ∨ c.orderId ≠ oid then none
  else if c.action = .delete ∨ c.size.eq F64.zero then some none
  else some (some (c.price, c.size))

/-- What a list of changes does to an order: the last one that concerns it decides. -/
def effect : List BookChange → Nat → Option (Option (F64 × F64))
  | [], _ => none
  | c :: cs, oid => (effect cs oid).or (changeEffect c oid)

/-- A change of an order. -/
def namesOrder (c : BookChange) : Bool := c.orderId ≠ 0 ∧ c.action ≠ .clear

/-- A batch whose frame can say what it says: a clear stands first, alone and for both sides, and the changes
behind it rest each order once. -/
structure Regular (b : NormalizedBook) : Prop where
  finite : ∀ c ∈ b.changes, c.isFinite = true
  first : ∀ c ∈ b.changes.tail, c.action ≠ .clear
  whole : ∀ c, b.changes.head? = some c → c.action = .clear → c.side = .both ∧ c.orderId = 0
  rests : rebaseline b = true → ∀ c ∈ b.changes, c.orderId ≠ 0 → c.action = .update ∧ c.size.eq F64.zero = false
  once : rebaseline b = true → ((b.changes.map fun c => c.orderId).filter fun oid => oid ≠ 0).Nodup

variable {c : BookChange} {cs : List BookChange} {oid : Nat} {b : NormalizedBook} {u : OrderMap}

theorem play_changes (u : Nat → Option (F64 × F64)) :
    LastWrite.play changeEffect u cs oid = (effect cs oid).getD (u oid) := by
  induction cs generalizing u with
  | nil => rfl
  | cons c cs ih =>
    show LastWrite.play changeEffect (LastWrite.write changeEffect c u) cs oid = _
    rw [ih]
    show (effect cs oid).getD ((changeEffect c oid).getD (u oid)) =
      ((effect cs oid).or (changeEffect c oid)).getD (u oid)
    cases effect cs oid with
    | none => rfl
    | some v => rfl

theorem changeEffect_of_other (hc : c.action ≠ .clear) (h : c.orderId = 0 ∨ c.orderId ≠ oid) :
    changeEffect c oid = none := by
  unfold changeEffect
  rw [if_neg hc, if_pos h]

theorem effect_eq_none (h : ∀ c ∈ cs, changeEffect c oid = none) : effect cs oid = none := by
  induction cs with
  | nil => rfl
  | cons c cs ih =>
    unfold effect
    rw [ih fun x hx => h x (List.mem_cons_of_mem c hx), h c List.mem_cons_self]
    rfl

variable (oid) in
/-- Changes that name no order set none. -/
theorem effect_of_no_orders (h : ∀ c ∈ cs, namesOrder c = false) :
    effect cs oid = none ∨ effect cs oid = some none := by
  induction cs with
  | nil => exact Or.inl rfl
  | cons c cs ih =>
    unfold effect
    rcases ih fun x hx => h x (List.mem_cons_of_mem c hx) with hcs | hcs
    · rw [hcs]
      show changeEffect c oid = none ∨ changeEffect c oid = some none
      by_cases hclear : c.action = .clear
      · exact Or.inr (if_pos hclear)
      · have hzero : c.orderId = 0 := by
          have := h c List.mem_cons_self
          unfold namesOrder at this
          rw [decide_eq_false_iff_not] at this
          by_contra hne
          exact this ⟨hne, hclear⟩
        exact Or.inl (changeEffect_of_other hclear (Or.inl hzero))
    · rw [hcs]
      exact Or.inr rfl

/-- Only a change that names it sets an order. -/
theorem namesOrder_of_effect {v : F64 × F64} (h : effect cs oid = some (some v)) :
    ∃ c ∈ cs, namesOrder c = true := by
  by_contra hnone
  have hall : ∀ c ∈ cs, namesOrder c = false := by
    intro c hc
    by_contra hc'
    exact hnone ⟨c, hc, by simpa using hc'⟩
  have hunset : effect cs oid = none ∨ effect cs oid = some none := effect_of_no_orders oid hall
  rcases hunset with he | he
  · rw [he] at h
    cases h
  · rw [he] at h
    cases h

/-! ## The accumulator -/

theorem orders_applyChange (r : Resting) (hboth : c.action = .clear → c.side = .both) :
    ((r.applyChange c).orders.get oid).map quote =
      LastWrite.write changeEffect c (fun oid => (r.orders.get oid).map quote) oid := by
  unfold Resting.applyChange LastWrite.write changeEffect
  simp only
  by_cases hid : c.orderId = 0
  · rw [if_neg (not_not.mpr hid), if_pos (Or.inl hid : c.orderId = 0 ∨ _)]
    cases ha : c.action with
    | clear =>
      rw [if_pos rfl, hboth ha]
      simp [Resting.clearSide]
    | update => cases c.side <;> rfl
    | delete => cases c.side <;> rfl
  · rw [if_pos hid]
    cases ha : c.action with
    | clear =>
      rw [if_pos rfl, hboth ha]
      simp [Resting.clearSide]
    | delete =>
      simp only [FinMap.get_erase]
      by_cases hoid : oid = c.orderId
      · simp [hoid, hid]
      · simp [hoid, Ne.symm hoid]
    | update =>
      by_cases hz : c.size.eq F64.zero = true
      · rw [if_pos hz]
        simp only [FinMap.get_erase]
        by_cases hoid : oid = c.orderId
        · simp [hoid, hid, hz]
        · simp [hoid, Ne.symm hoid]
      · rw [if_neg hz]
        simp only [FinMap.get_insert]
        by_cases hoid : oid = c.orderId
        · simp [hoid, hid, hz, quote]
        · simp [hoid, Ne.symm hoid]

theorem orders_foldChanges : ∀ (cs : List BookChange) (r : Resting),
    (∀ c ∈ cs, c.action = .clear → c.side = .both) → (restingQuotes (r.foldChanges cs)).get =
      LastWrite.play changeEffect (restingQuotes r).get cs
  | [], _, _ => rfl
  | c :: cs, r, hboth => by
    show (restingQuotes ((r.applyChange c).foldChanges cs)).get = _
    rw [orders_foldChanges cs _ fun x hx => hboth x (List.mem_cons_of_mem c hx)]
    show _ = LastWrite.play changeEffect (LastWrite.write changeEffect c (restingQuotes r).get) cs
    congr 1
    funext oid
    exact orders_applyChange r (hboth c List.mem_cons_self)

namespace Regular

theorem both (hb : Regular b) : ∀ c ∈ b.changes, c.action = .clear → c.side = .both := by
  intro c hc hclear
  cases hcs : b.changes with
  | nil =>
    rw [hcs] at hc
    cases hc
  | cons c₀ cs =>
    rw [hcs] at hc
    rcases List.mem_cons.mp hc with rfl | hc
    · exact (hb.whole c (by rw [hcs]; rfl) hclear).1
    · exact absurd hclear (hb.first c (by rw [hcs]; exact hc))

theorem incremental (hb : Regular b) (hr : rebaseline b = false) : ∀ c ∈ b.changes, c.action ≠ .clear := by
  intro c hc
  cases hcs : b.changes with
  | nil =>
    rw [hcs] at hc
    cases hc
  | cons c₀ cs =>
    rw [hcs] at hc
    rcases List.mem_cons.mp hc with rfl | hc
    · unfold rebaseline at hr
      rw [hcs] at hr
      simpa using hr
    · exact hb.first c (by rw [hcs]; exact hc)

end Regular

/-- A batch that starts with a clear writes every order. -/
theorem effect_of_rebaseline (hr : rebaseline b = true) : effect b.changes oid ≠ none := by
  unfold rebaseline at hr
  cases hcs : b.changes with
  | nil =>
    rw [hcs] at hr
    cases hr
  | cons c cs =>
    rw [hcs] at hr
    have hclear : c.action = .clear := by simpa using hr
    unfold effect
    rw [show changeEffect c oid = some none from if_pos hclear]
    cases effect cs oid with
    | none => exact nofun
    | some v => exact nofun

/-! ## Frames -/

/-- A diff writes what its change writes. -/
theorem diff_apply (hc : c.action ≠ .clear) (hid : c.orderId ≠ 0) (market : MarketOrders) (u : OrderMap) :
    (OrderDiffEntry.apply u ⟨c.orderId, c.price, rawDiff c (market.sizes.get c.orderId)⟩).get =
      LastWrite.write changeEffect c u.get := by
  funext oid
  unfold OrderDiffEntry.apply rawDiff LastWrite.write changeEffect
  rw [if_neg hc]
  by_cases hgone : c.action = .delete ∨ c.size.eq F64.zero = true
  · rw [if_pos hgone, if_pos hgone]
    simp only [FinMap.get_erase]
    by_cases hoid : oid = c.orderId
    · simp [hoid, hid]
    · simp [hoid, Ne.symm hoid]
  · rw [if_neg hgone, if_neg hgone]
    by_cases hoid : oid = c.orderId
    · cases market.sizes.get c.orderId with
      | none => simp [hoid, hid]
      | some prev => simp [hoid, hid]
    · cases market.sizes.get c.orderId with
      | none => simp [hoid, Ne.symm hoid, FinMap.get_insert]
      | some prev => simp [hoid, Ne.symm hoid, FinMap.get_insert]

theorem diffs_apply (market : MarketOrders) : ∀ (cs : List BookChange) (u : OrderMap),
    (∀ c ∈ cs, c.action ≠ .clear) →
    (((cs.filter fun c => c.orderId ≠ 0).map fun c =>
      (⟨c.orderId, c.price, rawDiff c (market.sizes.get c.orderId)⟩ : OrderDiffEntry)).foldl
        OrderDiffEntry.apply u).get = LastWrite.play changeEffect u.get cs
  | [], _, _ => rfl
  | c :: cs, u, h => by
    have hrest := fun x hx => h x (List.mem_cons_of_mem c hx)
    by_cases hid : c.orderId ≠ 0
    · rw [List.filter_cons, if_pos (decide_eq_true hid), List.map_cons, List.foldl_cons,
        diffs_apply market cs _ hrest, diff_apply (h c List.mem_cons_self) hid]
      rfl
    · rw [List.filter_cons, if_neg (by simpa using hid), diffs_apply market cs u hrest]
      show _ = LastWrite.play changeEffect (LastWrite.write changeEffect c u.get) cs
      congr 1
      funext oid
      exact (LastWrite.write_of_none
        (changeEffect_of_other (h c List.mem_cons_self) (Or.inl (not_not.mp hid)))).symm

/-- A snapshot is the map that holds the orders its batch names. -/
theorem snapshot_apply {m : OrderMap}
    (hm : ∀ oid v, (∃ c ∈ b.changes, c.orderId ≠ 0 ∧ c.orderId = oid ∧ (c.price, c.size) = v) ↔
      m.get oid = some v) : (renderL4bookSnapshot b).apply u = m := by
  unfold renderL4bookSnapshot L4Data.apply
  simp only
  have hmap : ∀ (l : List L4Order) (m : OrderMap), l.foldl (fun u o => u.insert o.oid (o.limitPx, o.sz)) m =
      (l.map fun o => (o.oid, (o.limitPx, o.sz))).foldl (fun u e => u.insert e.1 e.2) m := by
    intro l m
    rw [List.foldl_map]
  rw [hmap]
  refine FinMap.foldl_insert_eq fun oid v => ?_
  rw [← hm, List.mem_map]
  constructor
  · rintro ⟨o, ho, heq⟩
    have ho' := (List.filter_append_perm (fun o : L4Order => o.isBid) _).mem_iff.mp ho
    obtain ⟨c, hc, rfl⟩ := List.mem_map.mp ho'
    obtain ⟨hmem, hid⟩ := List.mem_filter.mp hc
    exact ⟨c, hmem, of_decide_eq_true hid, congrArg Prod.fst heq, congrArg Prod.snd heq⟩
  · rintro ⟨c, hc, hid, rfl, rfl⟩
    refine ⟨⟨c.side = .bid, c.price, c.size, c.orderId⟩, ?_, rfl⟩
    refine (List.filter_append_perm (fun o : L4Order => o.isBid) _).mem_iff.mpr ?_
    exact List.mem_map.mpr ⟨c, List.mem_filter.mpr ⟨hc, decide_eq_true hid⟩, rfl⟩

theorem effect_append (pre cs : List BookChange) : effect (pre ++ cs) oid = (effect cs oid).or (effect pre oid) := by
  induction pre with
  | nil =>
    show effect cs oid = (effect cs oid).or none
    rw [Option.or_none]
  | cons c pre ih =>
    show (effect (pre ++ cs) oid).or (changeEffect c oid) = (effect cs oid).or ((effect pre oid).or (changeEffect c oid))
    rw [ih, Option.or_assoc]

/-- Of an order that is named once and not cleared behind, the change that names it decides. -/
theorem effect_of_named_once (hfirst : ∀ x ∈ cs.tail, x.action ≠ .clear)
    (honce : ((cs.map fun c => c.orderId).filter fun oid => oid ≠ 0).Nodup) (hc : c ∈ cs) (hid : c.orderId ≠ 0) :
    effect cs c.orderId = changeEffect c c.orderId := by
  obtain ⟨pre, post, rfl⟩ := List.append_of_mem hc
  have hpost : ∀ x ∈ post, changeEffect x c.orderId = none := by
    intro x hx
    have htail : x ∈ (pre ++ c :: post).tail := by
      cases pre with
      | nil => exact hx
      | cons y pre => exact List.mem_append_right _ (List.mem_cons_of_mem _ hx)
    refine changeEffect_of_other (hfirst x htail) ?_
    by_contra hne
    rw [not_or, not_not] at hne
    have hdup : c.orderId ∈ (post.map fun c => c.orderId).filter fun oid => oid ≠ 0 :=
      List.mem_filter.mpr ⟨List.mem_map.mpr ⟨x, hx, hne.2⟩, decide_eq_true hid⟩
    rw [List.map_append, List.map_cons, List.filter_append, List.filter_cons, if_pos (decide_eq_true hid)] at honce
    exact (List.nodup_cons.mp (List.nodup_append.mp honce).2.1).1 hdup
  have hsets : changeEffect c c.orderId ≠ none := by
    unfold changeEffect
    split_ifs with hclear hother hgone
    · exact nofun
    · exact absurd rfl (hother.resolve_left hid)
    · exact nofun
    · exact nofun
  rw [effect_append, effect, effect_eq_none hpost]
  cases heff : changeEffect c c.orderId with
  | none => exact absurd heff hsets
  | some v => rfl

/-- The changes behind a clear rest the orders they name, and no other. -/
theorem orders_of_rebaseline (hb : Regular b) (hr : rebaseline b = true) (v : F64 × F64) :
    (∃ c ∈ b.changes, c.orderId ≠ 0 ∧ c.orderId = oid ∧ (c.price, c.size) = v) ↔
      effect b.changes oid = some (some v) := by
  constructor
  · rintro ⟨c, hc, hid, rfl, rfl⟩
    obtain ⟨ha, hz⟩ := hb.rests hr c hc hid
    rw [effect_of_named_once hb.first (hb.once hr) hc hid]
    unfold changeEffect
    simp [ha, hid, hz]
  · intro he
    have hex : ∀ cs : List BookChange, (∀ c ∈ cs, c ∈ b.changes) → effect cs oid = some (some v) →
        ∃ c ∈ cs, c.orderId ≠ 0 ∧ c.orderId = oid ∧ (c.price, c.size) = v := by
      intro cs
      induction cs with
      | nil => exact fun _ h => nomatch h
      | cons c cs ih =>
        intro hmem h
        unfold effect at h
        cases hcs : effect cs oid with
        | some w =>
          rw [hcs] at h
          obtain ⟨c', hc', hrest⟩ := ih (fun x hx => hmem x (List.mem_cons_of_mem c hx)) (hcs.trans h)
          exact ⟨c', List.mem_cons_of_mem c hc', hrest⟩
        | none =>
          rw [hcs] at h
          have h : changeEffect c oid = some (some v) := h
          unfold changeEffect at h
          split at h
          · cases h
          · split at h
            · cases h
            · rename_i hother
              rw [not_or, not_not] at hother
              split at h
              · cases h
              · exact ⟨c, List.mem_cons_self, hother.1, hother.2, Option.some.inj (Option.some.inj h)⟩
    exact hex b.changes (fun _ hc => hc) he

/-- **A frame writes what its batch writes.** -/
theorem renderL4_effect {market : MarketOrders} {wants : Wants} {idle : Bool} {f : L4Frame} (hb : Regular b)
    (hf : renderL4 b market wants idle = some f) :
    f.coin = b.symbol ∧ f.market = marketOf b ∧
      ∀ u, (f.data.apply u).get = LastWrite.write (fun b : NormalizedBook => effect b.changes) b u.get := by
  unfold renderL4 at hf
  split at hf
  · cases hf
  · split at hf
    · rename_i hr
      split at hf
      · cases hf
        refine ⟨rfl, rfl, fun u => ?_⟩
        have hsnap : (renderL4bookSnapshot b).apply u = restingQuotes (Resting.empty.foldChanges b.changes) := by
          refine snapshot_apply fun oid v => ?_
          rw [orders_of_rebaseline hb hr, orders_foldChanges _ _ hb.both, play_changes]
          cases he : effect b.changes oid with
          | none => exact absurd he (effect_of_rebaseline hr)
          | some w => exact ⟨fun h => Option.some.inj h, fun h => congrArg some h⟩
        simp only
        rw [hsnap, orders_foldChanges _ _ hb.both]
        funext oid
        rw [play_changes]
        show _ = (effect b.changes oid).getD (u.get oid)
        cases he : effect b.changes oid with
        | none => exact absurd he (effect_of_rebaseline hr)
        | some w => rfl
      · cases hf
    · rename_i hr
      obtain ⟨data, hdata, rfl⟩ := Option.map_eq_some_iff.mp hf
      refine ⟨rfl, rfl, fun u => ?_⟩
      have hdiff := diffs_apply market b.changes u (hb.incremental (by simpa using hr))
      unfold renderL4bookDiff at hdata
      split at hdata
      · cases hdata
      · cases hdata
        simp only [L4Data.apply]
        rw [hdiff]
        funext oid
        exact play_changes u.get

/-- A wanted batch without a frame writes nothing: it names no order, and clears a market of which the stage
knows no order. -/
theorem renderL4_none {market : MarketOrders} {wants : Wants} (hb : Regular b) (hw : wants.l4 ≠ 0)
    (hf : renderL4 b market wants false = none) :
    (∀ oid, effect b.changes oid = none) ∨ (rebaseline b = true ∧ (market.apply b).orderLevel = false) := by
  unfold renderL4 at hf
  rw [if_neg (by simpa using hw)] at hf
  split at hf
  · rename_i hr
    right
    refine ⟨hr, ?_⟩
    split at hf
    · cases hf
    · rename_i hlevel
      simpa using hlevel
  · rename_i hr
    left
    intro oid
    rw [Option.map_eq_none_iff] at hf
    unfold renderL4bookDiff at hf
    split at hf
    · rename_i hnil
      rw [List.map_eq_nil_iff, List.filter_eq_nil_iff] at hnil
      refine effect_eq_none fun c hc => changeEffect_of_other (hb.incremental (by simpa using hr) c hc) ?_
      exact Or.inl (by simpa using hnil c hc)
    · cases hf

/-! ## The stage's flag -/

theorem orderLevel_applyChange (m : MarketOrders) (c : BookChange) :
    (m.applyChange c).orderLevel = (m.orderLevel || namesOrder c) := by
  unfold MarketOrders.applyChange namesOrder
  by_cases hc : c.action = .clear
  · simp [hc]
  · by_cases hid : c.orderId = 0
    · simp [hc, hid]
    · rw [if_neg hc, if_neg hid]
      split
      · simp [hc, hid]
      · split
        · simp [hc, hid]
        · simp [hc, hid]

/-- The stage takes a market for order-level once a batch of it has named an order. -/
theorem orderLevel_apply (m : MarketOrders) (b : NormalizedBook) :
    (m.apply b).orderLevel = (m.orderLevel || b.changes.any namesOrder) := by
  have hfold : ∀ (cs : List BookChange) (m : MarketOrders),
      (cs.foldl MarketOrders.applyChange m).orderLevel = (m.orderLevel || cs.any namesOrder) := by
    intro cs
    induction cs with
    | nil => intro m; simp
    | cons c cs ih =>
      intro m
      rw [List.foldl_cons, ih, orderLevel_applyChange, List.any_cons, Bool.or_assoc]
  exact hfold b.changes m

/-! ## Bootstraps -/

/-- A bootstrap leaves a client with the accumulator's orders. -/
theorem bootstrap_orders (acc : BookAccumulator) (key : BookKey) (hzero : acc.orders.get 0 = none) :
    (renderL4bookSnapshot (acc.toBook key 0)).apply u = restingQuotes acc.toResting := by
  refine snapshot_apply fun oid v => ?_
  have hget : (restingQuotes acc.toResting).get oid = (acc.orders.get oid).map quote := rfl
  rw [hget]
  constructor
  · rintro ⟨c, hc, hid, rfl, rfl⟩
    rcases List.mem_cons.mp hc with rfl | hc
    · exact absurd rfl hid
    · unfold BookAccumulator.levelChanges at hc
      rw [List.mem_append, List.mem_append] at hc
      rcases hc with (hc | hc) | hc
      · obtain ⟨e, -, rfl⟩ := List.mem_map.mp hc
        exact absurd rfl hid
      · obtain ⟨e, -, rfl⟩ := List.mem_map.mp hc
        exact absurd rfl hid
      · obtain ⟨e, he, rfl⟩ := List.mem_map.mp hc
        have hmem := FinMap.mem_toList.mp (List.mem_mergeSort.mp he)
        rw [hmem]
        rfl
  · intro hv
    obtain ⟨o, ho, rfl⟩ := Option.map_eq_some_iff.mp hv
    refine ⟨⟨.update, if o.isBid then .bid else .ask, o.price, o.size, oid⟩, ?_, ?_, rfl, rfl⟩
    · refine List.mem_cons_of_mem _ (List.mem_append_right _ (List.mem_map.mpr ⟨(oid, o), ?_, rfl⟩))
      exact List.mem_mergeSort.mpr (FinMap.mem_toList.mpr ho)
    · rintro hoid
      simp only at hoid
      rw [hoid, hzero] at ho
      cases ho

end Hl

end EdgeConnect
