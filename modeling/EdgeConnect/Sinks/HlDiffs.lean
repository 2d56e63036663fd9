import EdgeConnect.Lib.Machine
import EdgeConnect.Sinks.HlConverge

/-!
# Truthful diffs

Whether an `l4Book` diff says what it does: a `new` an order the client does not hold, an `update` the size the client
holds.

* `Watch`, `watch` — the stage's memory and one client that applies every frame of a market entry by entry;
* `Emitted`, `InDomain` — the batches an order-level producer emits, wanted and below the tracking caps;
* `Plain` — a batch that sets no order a second time, in the sizes the market had before it;
* `sized_apply`, `tells_iff` — the client's sizes are the stage's, and a frame tells the truth exactly when its batch
  is plain;
* `diffs_tell_the_truth_iff` — the same for every run from a batch that starts with a clear.
-/

set_option autoImplicit false

namespace EdgeConnect

namespace Hl

open Ws (BookSnapshot FeedMessage marketOf)

/-! ## A client of one market -/

/-- The stage's memory, and the orders a client of one market holds. -/
structure Watch where
  published : FinMap BookKey MarketOrders
  order : List BookKey
  held : OrderMap

/-- A message the stage reads, with what it reads beside it. -/
structure Arrival where
  msg : FeedMessage
  books : BookSnapshot
  wants : Wants
  idle : Bool

/-- The stage prepares the message, and the client applies the frame of its market. -/
def watch (key : BookKey) : Machine Watch Arrival (Option L4Data) where
  step s a :=
    let r := prepareOne a.msg a.books a.wants s.published s.order a.idle
    let frame := (r.1.l4.filter fun f => f.market = key).map fun f => f.data
    (⟨r.2.1, r.2.2, frame.elim s.held fun data => data.apply s.held⟩, frame)

/-- The sizes the stage tracks for a market. -/
def Watch.sizes (s : Watch) (key : BookKey) : FinMap Nat F64 :=
  ((s.published.get key).map fun m => m.sizes).getD ∅

/-! ## The truth of a frame -/

/-- A new order is one the client does not hold; an updated one it holds, at the original size. -/
def OrderDiffEntry.Truthful (u : OrderMap) (d : OrderDiffEntry) : Prop :=
  match d.rawBookDiff with
  | .new _ => u.get d.oid = none
  | .update origSz _ => (u.get d.oid).map Prod.snd = some origSz
  | .remove => True

/-- Every entry is truthful of what the client holds when it comes to it. -/
def TruthfulDiffs : OrderMap → List OrderDiffEntry → Prop
  | _, [] => True
  | u, d :: ds => d.Truthful u ∧ TruthfulDiffs (d.apply u) ds

def L4Data.Truthful (u : OrderMap) : L4Data → Prop
  | .snapshot _ _ => True
  | .updates diffs => TruthfulDiffs u diffs

/-- The frame of this step, if there is one, is truthful, and leaves the client with the stage's sizes. -/
def Tells (key : BookKey) (s : Watch) (a : Arrival) : Prop :=
  ∀ data, ((watch key).step s a).2 = some data →
    data.Truthful s.held ∧
      ((watch key).step s a).1.held.mapVals Prod.snd = ((watch key).step s a).1.sizes key

/-! ## The batches -/

/-- A batch as the order-level producers emit it: a clear stands first, and the changes behind it name each order
once. -/
structure Emitted (b : NormalizedBook) : Prop where
  finite : ∀ c ∈ b.changes, c.isFinite = true
  first : ∀ c ∈ b.changes.tail, c.action ≠ .clear
  whole : ∀ c, b.changes.head? = some c → c.action = .clear → c.side = .both ∧ c.orderId = 0
  once : rebaseline b = true → ((b.changes.map fun c => c.orderId).filter fun oid => oid ≠ 0).Nodup

/-- Before each change the market tracks fewer orders than the cap. -/
def Below : MarketOrders → List BookChange → Prop
  | _, [] => True
  | m, c :: cs => m.sizes.size < MAX_TRACKED_ORDERS ∧ Below (m.applyChange c) cs

/-- What the stage remembers of a market as it prepares a batch of it. -/
def Watch.memory (s : Watch) (books : BookSnapshot) (key : BookKey) : MarketOrders :=
  ((trackMarket books s.published s.order key).1.get key).getD ⟨∅, false⟩

/-- Nothing is evicted, and a batch of the market is as producers emit it, wanted, and within the cap. -/
structure InDomain (key : BookKey) (s : Watch) (a : Arrival) : Prop where
  tracked : s.published.size < MAX_TRACKED_MARKETS
  batch : ∀ b, venueBatch a.msg = some b → marketOf b = key →
    Emitted b ∧ a.wants.l4 ≠ 0 ∧ a.idle = false ∧ Below (s.memory a.books key) b.changes

/-- A batch of the market that starts with a clear. -/
def Opens (key : BookKey) (a : Arrival) : Prop :=
  ∃ b, venueBatch a.msg = some b ∧ marketOf b = key ∧ rebaseline b = true

/-- Whether a change leaves its order resting. -/
def sets (c : BookChange) : Bool :=
  c.orderId ≠ 0 ∧ c.action ≠ .delete ∧ c.size.eq F64.zero = false

/-- Every change that sets an order finds it at the size it had before the batch. -/
def Unchanged (before : FinMap Nat F64) : MarketOrders → List BookChange → Prop
  | _, [] => True
  | m, c :: cs => (sets c = true → m.sizes.get c.orderId = before.get c.orderId) ∧ Unchanged before (m.applyChange c) cs

/-- A batch that starts with a clear removes no order; any other sets no order that it has already moved. -/
def Plain (key : BookKey) (s : Watch) (a : Arrival) : Prop :=
  ∀ b, venueBatch a.msg = some b → marketOf b = key →
    if rebaseline b then ∀ c ∈ b.changes, c.orderId ≠ 0 → sets c = true
    else Unchanged (s.memory a.books key).sizes (s.memory a.books key) b.changes

/-! ## Sizes -/

/-- A market's sizes are those of an order map. -/
def Sized (m : MarketOrders) (g : Nat → Option (F64 × F64)) : Prop :=
  ∀ oid, m.sizes.get oid = (g oid).map Prod.snd

variable {m market : MarketOrders} {g : Nat → Option (F64 × F64)} {u : OrderMap} {c : BookChange}
  {cs : List BookChange} {b : NormalizedBook}

theorem sized_applyChange (h : Sized m g) (hfin : c.isFinite = true) (hcap : m.sizes.size < MAX_TRACKED_ORDERS) :
    Sized (m.applyChange c) (LastWrite.write changeEffect c g) := by
  intro oid
  have hsize : c.size.isFinite = true := (Bool.and_eq_true_iff.mp hfin).2
  unfold MarketOrders.applyChange LastWrite.write changeEffect
  by_cases hclear : c.action = .clear
  · rw [if_pos hclear, if_pos hclear]
    rfl
  · rw [if_neg hclear, if_neg hclear]
    by_cases hid : c.orderId = 0
    · rw [if_pos hid, if_pos (Or.inl hid : c.orderId = 0 ∨ _)]
      exact h oid
    · rw [if_neg hid]
      by_cases hgone : c.action = .delete ∨ c.size.eq F64.zero = true
      · have hdrop : c.action = .delete ∨ c.size.eq F64.zero = true ∨ (!c.size.isFinite) = true := by
          rcases hgone with h' | h'
          · exact Or.inl h'
          · exact Or.inr (Or.inl h')
        rw [if_pos hdrop, if_pos hgone]
        by_cases hoid : oid = c.orderId
        · simp [hoid, hid]
        · simp [FinMap.get_erase_of_ne _ hoid, hid, Ne.symm hoid, h oid]
      · have hstays : ¬ (c.action = .delete ∨ c.size.eq F64.zero = true ∨ (!c.size.isFinite) = true) := by
          simpa [hsize] using hgone
        rw [if_neg hstays, if_pos (Or.inl hcap), if_neg hgone]
        by_cases hoid : oid = c.orderId
        · simp [hoid, hid]
        · simp [FinMap.get_insert_of_ne _ _ hoid, hid, Ne.symm hoid, h oid]

/-- What the stage tracks after a batch are the sizes the batch writes. -/
theorem sized_foldl : ∀ {cs : List BookChange} {m : MarketOrders} {g : Nat → Option (F64 × F64)}, Sized m g →
    (∀ c ∈ cs, c.isFinite = true) → Below m cs →
    Sized (cs.foldl MarketOrders.applyChange m) (LastWrite.play changeEffect g cs)
  | [], _, _, h, _, _ => h
  | c :: cs, m, g, h, hfin, hbelow => by
    show Sized (cs.foldl MarketOrders.applyChange (m.applyChange c))
      (LastWrite.play changeEffect (LastWrite.write changeEffect c g) cs)
    have hnext := sized_applyChange h (hfin c List.mem_cons_self) hbelow.1
    exact sized_foldl hnext (fun x hx => hfin x (List.mem_cons_of_mem c hx)) hbelow.2

theorem sets_iff : sets c = true ↔ c.orderId ≠ 0 ∧ ¬ (c.action = .delete ∨ c.size.eq F64.zero = true) := by
  unfold sets
  rw [decide_eq_true_iff, not_or, Bool.not_eq_true]

/-- The sizes of a market, as an order map. -/
def sizeQuotes (m : MarketOrders) (oid : Nat) : Option (F64 × F64) := (m.sizes.get oid).map fun sz => (sz, sz)

theorem sized_sizeQuotes (m : MarketOrders) : Sized m (sizeQuotes m) := by
  intro oid
  unfold sizeQuotes
  cases m.sizes.get oid <;> rfl

/-- A batch that starts with a clear leaves the sizes it writes, whatever was tracked before. -/
theorem sized_apply_of_rebaseline (hr : rebaseline b = true) (hfin : ∀ c ∈ b.changes, c.isFinite = true)
    (hbelow : Below m b.changes) (g : Nat → Option (F64 × F64)) :
    Sized (m.apply b) (LastWrite.play changeEffect g b.changes) := by
  intro oid
  rw [MarketOrders.apply, sized_foldl (sized_sizeQuotes m) hfin hbelow oid, play_changes, play_changes]
  cases he : effect b.changes oid with
  | none => exact absurd he (effect_of_rebaseline hr)
  | some v => rfl

/-! ## One frame -/

/-- The diff of a change is truthful exactly when the client holds its order at the size the diff was made with. -/
theorem truthful_iff (h : Sized m u.get) (hid : c.orderId ≠ 0) :
    (⟨c.orderId, c.price, rawDiff c (market.sizes.get c.orderId)⟩ : OrderDiffEntry).Truthful u ↔
      (sets c = true → m.sizes.get c.orderId = market.sizes.get c.orderId) := by
  rw [sets_iff, h c.orderId]
  unfold OrderDiffEntry.Truthful rawDiff
  by_cases hgone : c.action = .delete ∨ c.size.eq F64.zero = true
  · rw [if_pos hgone]
    exact iff_of_true trivial fun hsets => absurd hgone hsets.2
  · rw [if_neg hgone]
    cases hprev : market.sizes.get c.orderId with
    | none => simp [hid, hgone]
    | some prev => simp only [hid, hgone, ne_eq, not_false_eq_true, and_self, true_imp_iff]

/-- The diffs of an incremental batch are truthful exactly when the batch sets no order that it has already moved. -/
theorem truthfulDiffs_iff : ∀ {cs : List BookChange} {m : MarketOrders} {u : OrderMap}, Sized m u.get →
    (∀ c ∈ cs, c.action ≠ .clear) → (∀ c ∈ cs, c.isFinite = true) → Below m cs →
    (TruthfulDiffs u ((cs.filter fun c => c.orderId ≠ 0).map fun c =>
      (⟨c.orderId, c.price, rawDiff c (market.sizes.get c.orderId)⟩ : OrderDiffEntry)) ↔
        Unchanged market.sizes m cs)
  | [], _, _, _, _, _, _ => Iff.rfl
  | c :: cs, m, u, h, hclear, hfin, hbelow => by
    have hclear' := fun x hx => hclear x (List.mem_cons_of_mem c hx)
    have hfin' := fun x hx => hfin x (List.mem_cons_of_mem c hx)
    have hnext := sized_applyChange h (hfin c List.mem_cons_self) hbelow.1
    by_cases hid : c.orderId ≠ 0
    · rw [List.filter_cons, if_pos (decide_eq_true hid), List.map_cons]
      refine and_congr (truthful_iff h hid) (truthfulDiffs_iff ?_ hclear' hfin' hbelow.2)
      rwa [diff_apply (hclear c List.mem_cons_self) hid]
    · rw [List.filter_cons, if_neg (by simpa using hid)]
      have hquiet : LastWrite.write changeEffect c u.get = u.get := funext fun oid =>
        LastWrite.write_of_none (changeEffect_of_other (hclear c List.mem_cons_self) (Or.inl (not_not.mp hid)))
      rw [hquiet] at hnext
      have hnot : ¬ (sets c = true) := fun hsets => hid (sets_iff.mp hsets).1
      refine (truthfulDiffs_iff hnext hclear' hfin' hbelow.2).trans ?_
      exact ⟨fun hrest => ⟨fun hsets => absurd hsets hnot, hrest⟩, fun hall => hall.2⟩

/-- A snapshot rests every order its batch names. -/
theorem snapshot_contains (hc : c ∈ b.changes) (hid : c.orderId ≠ 0) (u : OrderMap) :
    ((renderL4bookSnapshot b).apply u).contains c.orderId = true := by
  have hinsert : ∀ (l : List L4Order) (u : OrderMap) (oid : Nat),
      (∃ o ∈ l, o.oid = oid) ∨ u.contains oid = true →
        (l.foldl (fun u o => u.insert o.oid (o.limitPx, o.sz)) u).contains oid = true := by
    intro l
    induction l with
    | nil => exact fun u oid h => h.resolve_left nofun
    | cons o l ih =>
      intro u oid h
      refine ih _ oid ?_
      rcases h with ⟨o', ho', hoid⟩ | hu
      · rcases List.mem_cons.mp ho' with rfl | ho'
        · refine Or.inr (FinMap.contains_eq_true.mpr ⟨(o'.limitPx, o'.sz), ?_⟩)
          rw [← hoid, FinMap.get_insert_self]
        · exact Or.inl ⟨o', ho', hoid⟩
      · refine Or.inr ?_
        rw [FinMap.contains, FinMap.get_insert]
        split_ifs
        · rfl
        · exact hu
  unfold renderL4bookSnapshot L4Data.apply
  refine hinsert _ ∅ c.orderId (Or.inl ⟨⟨c.side = .bid, c.price, c.size, c.orderId⟩, ?_, rfl⟩)
  refine (List.filter_append_perm (fun o : L4Order => o.isBid) _).mem_iff.mpr ?_
  exact List.mem_map.mpr ⟨c, List.mem_filter.mpr ⟨hc, decide_eq_true hid⟩, rfl⟩

namespace Emitted

/-- A change of an order is no clear. -/
theorem named (hb : Emitted b) (hc : c ∈ b.changes) (hid : c.orderId ≠ 0) : c.action ≠ .clear := by
  intro hclear
  cases hcs : b.changes with
  | nil =>
    rw [hcs] at hc
    cases hc
  | cons c₀ cs =>
    rw [hcs] at hc
    rcases List.mem_cons.mp hc with rfl | hc
    · exact hid (hb.whole c (by rw [hcs]; rfl) hclear).2
    · exact hb.first c (by rw [hcs]; exact hc) hclear

theorem regular (hb : Emitted b) (hplain : rebaseline b = true → ∀ c ∈ b.changes, c.orderId ≠ 0 → sets c = true) :
    Regular b where
  finite := hb.finite
  first := hb.first
  whole := hb.whole
  once := hb.once
  rests hr c hc hid := by
    have hsets := (sets_iff.mp (hplain hr c hc hid)).2
    rw [not_or, Bool.not_eq_true] at hsets
    refine ⟨?_, hsets.2⟩
    cases ha : c.action with
    | update => rfl
    | delete => exact absurd ha hsets.1
    | clear => exact absurd ha (hb.named hc hid)

end Emitted

/-! ## One step -/

variable {key : BookKey} {s : Watch} {a : Arrival}

theorem evictMarkets_of_room {published : FinMap BookKey MarketOrders} (h : published.size < MAX_TRACKED_MARKETS)
    (order : List BookKey) : evictMarkets published order = (published, order) := by
  cases order with
  | nil => rfl
  | cons old order => rw [evictMarkets, if_neg (by omega)]

theorem renderL4_market {wants : Wants} {idle : Bool} {f : L4Frame} (hf : renderL4 b market wants idle = some f) :
    f.market = marketOf b := by
  unfold renderL4 at hf
  split_ifs at hf
  · cases hf
    rfl
  · obtain ⟨data, -, rfl⟩ := Option.map_eq_some_iff.mp hf
    rfl

/-- A batch of the market is rendered against the stage's memory of it, and folded into that memory. -/
theorem watch_own (hmsg : venueBatch a.msg = some b) (hkey : marketOf b = key) :
    ((watch key).step s a).2 = (renderL4 b (s.memory a.books key) a.wants a.idle).map (fun f => f.data) ∧
      ((watch key).step s a).1.published.get key = some ((s.memory a.books key).apply b) := by
  subst hkey
  unfold watch prepareOne
  dsimp only
  rw [hmsg]
  dsimp only
  refine ⟨?_, FinMap.get_insert_self _ _ _⟩
  show (Option.filter _ (renderL4 b (s.memory a.books (marketOf b)) a.wants a.idle)).map _ = _
  cases hf : renderL4 b (s.memory a.books (marketOf b)) a.wants a.idle with
  | none => rfl
  | some f => rw [Option.filter_some, if_pos (by simp [renderL4_market hf])]

/-- Any other message leaves the market and its client alone. -/
theorem watch_other (hroom : s.published.size < MAX_TRACKED_MARKETS)
    (hother : ∀ b, venueBatch a.msg = some b → marketOf b ≠ key) :
    ((watch key).step s a).2 = none ∧ ((watch key).step s a).1.held = s.held ∧
      ((watch key).step s a).1.published.get key = s.published.get key := by
  have hframe : ((watch key).step s a).2 = none := by
    unfold watch prepareOne
    dsimp only
    cases hmsg : venueBatch a.msg with
    | none => rfl
    | some b =>
      dsimp only
      cases hf : renderL4 b (s.memory a.books (marketOf b)) a.wants a.idle with
      | none =>
        show (Option.filter _ (renderL4 b (s.memory a.books (marketOf b)) a.wants a.idle)).map _ = none
        rw [hf]
        rfl
      | some f =>
        show (Option.filter _ (renderL4 b (s.memory a.books (marketOf b)) a.wants a.idle)).map _ = none
        rw [hf, Option.filter_some, if_neg (by simpa [renderL4_market hf] using hother b hmsg)]
        rfl
  refine ⟨hframe, ?_, ?_⟩
  · show ((watch key).step s a).2.elim s.held (fun data => data.apply s.held) = s.held
    rw [hframe]
    rfl
  · unfold watch prepareOne
    dsimp only
    cases hmsg : venueBatch a.msg with
    | none => rfl
    | some b =>
      dsimp only
      have hne := (hother b hmsg).symm
      rw [FinMap.get_insert_of_ne _ _ hne]
      unfold trackMarket
      split_ifs with hin
      · rfl
      · rw [evictMarkets_of_room hroom]
        exact FinMap.get_insert_of_ne _ _ hne

theorem watch_held : ((watch key).step s a).1.held =
    ((watch key).step s a).2.elim s.held fun data => data.apply s.held := rfl

/-- The client of a market has the sizes the stage tracks; it holds nothing of a market that has named no order. -/
structure InStep (key : BookKey) (s : Watch) : Prop where
  tracked : ∃ m, s.published.get key = some m ∧ Sized m s.held.get ∧
    (m.orderLevel = false → ∀ oid, s.held.get oid = none)

theorem memory_of_get {m : MarketOrders} (hget : s.published.get key = some m) (books : BookSnapshot) :
    s.memory books key = m := by
  unfold Watch.memory trackMarket
  rw [if_pos (FinMap.contains_eq_true.mpr ⟨m, hget⟩), hget, Option.getD_some]

/-- A batch of the market may be told from here: it starts with a clear, or the client is in step. -/
structure Ready (key : BookKey) (s : Watch) (a : Arrival) : Prop where
  flag : (s.memory a.books key).orderLevel = false → ∀ oid, s.held.get oid = none
  sized : Opens key a ∨ Sized (s.memory a.books key) s.held.get

theorem InStep.ready (h : InStep key s) (a : Arrival) : Ready key s a := by
  obtain ⟨m, hget, hsized, hflag⟩ := h.tracked
  have hmemory := memory_of_get hget a.books
  exact ⟨fun hlevel => hflag (hmemory ▸ hlevel), Or.inr (hmemory ▸ hsized)⟩

theorem ready_of_opens (hheld : s.held = ∅) (hopens : Opens key a) : Ready key s a :=
  ⟨fun _ oid => by rw [hheld]; rfl, Or.inl hopens⟩

theorem InStep.held_sizes (h : InStep key s) : s.held.mapVals Prod.snd = s.sizes key := by
  obtain ⟨m, hget, hsized, -⟩ := h.tracked
  refine FinMap.ext fun oid => ?_
  rw [Watch.sizes, hget, FinMap.get_mapVals, ← hsized oid]
  rfl

theorem Plain.sets (hplain : Plain key s a) (hmsg : venueBatch a.msg = some b) (hkey : marketOf b = key)
    (hr : rebaseline b = true) : ∀ c ∈ b.changes, c.orderId ≠ 0 → sets c = true := by
  have h := hplain b hmsg hkey
  rwa [if_pos hr] at h

/-- What is tracked of the market after the batch are the sizes the batch writes over those the client holds. -/
theorem Ready.sized_apply (hready : Ready key s a) (hdomain : InDomain key s a) (hmsg : venueBatch a.msg = some b)
    (hkey : marketOf b = key) :
    Sized ((s.memory a.books key).apply b) (LastWrite.play changeEffect s.held.get b.changes) := by
  obtain ⟨hb, -, -, hbelow⟩ := hdomain.batch b hmsg hkey
  rcases hready.sized with ⟨b', hmsg', -, hr⟩ | hsized
  · rw [hmsg] at hmsg'
    cases hmsg'
    exact sized_apply_of_rebaseline hr hb.finite hbelow _
  · exact sized_foldl hsized hb.finite hbelow

/-- **A plain batch keeps the client in step.** -/
theorem Ready.next (hready : Ready key s a) (hdomain : InDomain key s a) (hmsg : venueBatch a.msg = some b)
    (hkey : marketOf b = key) (hplain : Plain key s a) : InStep key ((watch key).step s a).1 := by
  obtain ⟨hb, hwants, hidle, hbelow⟩ := hdomain.batch b hmsg hkey
  obtain ⟨hframe, hget⟩ := watch_own (s := s) hmsg hkey
  have hregular : Regular b := hb.regular (hplain.sets hmsg hkey)
  have hsized := hready.sized_apply hdomain hmsg hkey
  refine ⟨_, hget, ?_⟩
  rw [watch_held, hframe, hidle]
  cases hf : renderL4 b (s.memory a.books key) a.wants false with
  | some f =>
    obtain ⟨-, -, heffect⟩ := renderL4_effect hregular hf
    show Sized _ (f.data.apply s.held).get ∧ (_ → ∀ oid, (f.data.apply s.held).get oid = none)
    have hplay : (f.data.apply s.held).get = LastWrite.play changeEffect s.held.get b.changes := by
      rw [heffect]
      exact funext fun oid => (play_changes s.held.get).symm
    refine ⟨hplay ▸ hsized, fun hlevel oid => ?_⟩
    rw [orderLevel_apply, Bool.or_eq_false_iff, List.any_eq_false] at hlevel
    rw [hplay, play_changes]
    have hunnamed : ∀ c ∈ b.changes, namesOrder c = false := fun c hc => by simpa using hlevel.2 c hc
    rcases effect_of_no_orders oid hunnamed with he | he
    · rw [he]
      exact hready.flag hlevel.1 oid
    · rw [he]
      rfl
  | none =>
    show Sized _ s.held.get ∧ (_ → ∀ oid, s.held.get oid = none)
    rcases renderL4_none hregular hwants hf with hquiet | ⟨-, hlevel⟩
    · have hplay : LastWrite.play changeEffect s.held.get b.changes = s.held.get := funext fun oid => by
        rw [play_changes, hquiet oid]
        rfl
      rw [hplay] at hsized
      refine ⟨hsized, fun hlevel => hready.flag ?_⟩
      rw [orderLevel_apply, Bool.or_eq_false_iff] at hlevel
      exact hlevel.1
    · rw [orderLevel_apply, Bool.or_eq_false_iff, List.any_eq_false] at hlevel
      have hnone := hready.flag hlevel.1
      have hunnamed : ∀ c ∈ b.changes, namesOrder c = false := fun c hc => by simpa using hlevel.2 c hc
      refine ⟨fun oid => ?_, fun _ => hnone⟩
      rw [hsized oid, play_changes, hnone oid]
      rcases effect_of_no_orders oid hunnamed with he | he <;> rw [he] <;> rfl

/-- The frame of an incremental batch is truthful exactly when the batch is plain. -/
theorem Ready.truthful_iff (hready : Ready key s a) (hdomain : InDomain key s a) (hmsg : venueBatch a.msg = some b)
    (hkey : marketOf b = key) (hr : rebaseline b = false) :
    (∀ data, ((watch key).step s a).2 = some data → data.Truthful s.held) ↔
      Unchanged (s.memory a.books key).sizes (s.memory a.books key) b.changes := by
  obtain ⟨hb, hwants, hidle, hbelow⟩ := hdomain.batch b hmsg hkey
  have hregular : Regular b := hb.regular (fun h => absurd h (by rw [hr]; exact Bool.false_ne_true))
  have hsized : Sized (s.memory a.books key) s.held.get := by
    rcases hready.sized with ⟨b', hmsg', -, hr'⟩ | hsized
    · rw [hmsg] at hmsg'
      cases hmsg'
      rw [hr] at hr'
      cases hr'
    · exact hsized
  rw [(watch_own hmsg hkey).1, ← truthfulDiffs_iff hsized (hregular.incremental hr) hb.finite hbelow]
  unfold renderL4 renderL4bookDiff
  rw [hidle, if_neg (by simpa using hwants), hr, if_neg (by simp)]
  cases hdiffs : (b.changes.filter fun c => c.orderId ≠ 0).map fun c =>
    (⟨c.orderId, c.price, rawDiff c ((s.memory a.books key).sizes.get c.orderId)⟩ : OrderDiffEntry) with
  | nil => exact iff_of_true nofun trivial
  | cons d ds =>
    constructor
    · exact fun h => h _ rfl
    · rintro h data hdata
      cases hdata
      exact h

/-- A snapshot leaves the client with the stage's sizes only if its batch removes no order. -/
theorem Ready.sets_of_tells (hready : Ready key s a) (hdomain : InDomain key s a) (hmsg : venueBatch a.msg = some b)
    (hkey : marketOf b = key) (hr : rebaseline b = true) (htells : Tells key s a) :
    ∀ c ∈ b.changes, c.orderId ≠ 0 → sets c = true := by
  intro c hc hid
  obtain ⟨hb, hwants, hidle, hbelow⟩ := hdomain.batch b hmsg hkey
  obtain ⟨hframe, hget⟩ := watch_own (s := s) hmsg hkey
  have hclear := hb.named hc hid
  have hlevel : ((s.memory a.books key).apply b).orderLevel = true := by
    rw [orderLevel_apply, Bool.or_eq_true, List.any_eq_true]
    exact Or.inr ⟨c, hc, decide_eq_true ⟨hid, hclear⟩⟩
  have hrender : renderL4 b (s.memory a.books key) a.wants a.idle =
      some ⟨b.symbol, marketOf b, renderL4bookSnapshot b⟩ := by
    rw [renderL4, hidle, if_neg (by simpa using hwants), if_pos hr, if_pos hlevel]
  rw [hrender] at hframe
  have hsizes := congrArg (fun u : FinMap Nat F64 => u.get c.orderId) (htells _ hframe).2
  rw [watch_held, hframe, Watch.sizes, hget] at hsizes
  -- What the client holds, the stage has dropped.
  obtain ⟨held, hheld⟩ := FinMap.contains_eq_true.mp (snapshot_contains hc hid s.held)
  have hstage := hready.sized_apply hdomain hmsg hkey c.orderId
  rw [play_changes, effect_of_named_once hb.first (hb.once hr) hc hid] at hstage
  by_contra hnot
  have hgone : c.action = .delete ∨ c.size.eq F64.zero = true := by
    by_contra h
    exact hnot (sets_iff.mpr ⟨hid, h⟩)
  unfold changeEffect at hstage
  rw [if_neg hclear, if_neg (by simp [hid]), if_pos hgone] at hstage
  change ((renderL4bookSnapshot b).apply s.held |>.get c.orderId).map Prod.snd =
    ((s.memory a.books key).apply b).sizes.get c.orderId at hsizes
  rw [hheld, hstage] at hsizes
  cases hsizes

/-- **A frame tells the truth exactly when its batch is plain.** -/
theorem Ready.tells_iff (hready : Ready key s a) (hdomain : InDomain key s a) (hmsg : venueBatch a.msg = some b)
    (hkey : marketOf b = key) : Tells key s a ↔ Plain key s a := by
  constructor
  · intro htells b' hmsg' _
    rw [hmsg] at hmsg'
    cases hmsg'
    split_ifs with hr
    · exact hready.sets_of_tells hdomain hmsg hkey hr htells
    · exact (hready.truthful_iff hdomain hmsg hkey (by simpa using hr)).mp fun data hdata => (htells data hdata).1
  · intro hplain data hdata
    refine ⟨?_, (hready.next hdomain hmsg hkey hplain).held_sizes⟩
    have hb := hplain b hmsg hkey
    split_ifs at hb with hr
    · rw [(watch_own hmsg hkey).1, renderL4] at hdata
      obtain ⟨f, hf, rfl⟩ := Option.map_eq_some_iff.mp hdata
      split_ifs at hf
      cases hf
      trivial
    · exact (hready.truthful_iff hdomain hmsg hkey (by simpa using hr)).mpr hb data hdata

/-! ## Every run -/

theorem InStep.next (h : InStep key s) (hdomain : InDomain key s a) (hplain : Plain key s a) :
    InStep key ((watch key).step s a).1 := by
  by_cases hown : ∃ b, venueBatch a.msg = some b ∧ marketOf b = key
  · obtain ⟨b, hmsg, hkey⟩ := hown
    exact (h.ready a).next hdomain hmsg hkey hplain
  · have hother : ∀ b, venueBatch a.msg = some b → marketOf b ≠ key := fun b hmsg hkey => hown ⟨b, hmsg, hkey⟩
    obtain ⟨-, hheld, hget⟩ := watch_other hdomain.tracked hother
    obtain ⟨m, hm, hrest⟩ := h.tracked
    exact ⟨m, hget.trans hm, hheld.symm ▸ hrest⟩

theorem InStep.tells_iff (h : InStep key s) (hdomain : InDomain key s a) : Tells key s a ↔ Plain key s a := by
  by_cases hown : ∃ b, venueBatch a.msg = some b ∧ marketOf b = key
  · obtain ⟨b, hmsg, hkey⟩ := hown
    exact (h.ready a).tells_iff hdomain hmsg hkey
  · have hother : ∀ b, venueBatch a.msg = some b → marketOf b ≠ key := fun b hmsg hkey => hown ⟨b, hmsg, hkey⟩
    refine iff_of_true (fun data hdata => ?_) fun b hmsg hkey => absurd hkey (hother b hmsg)
    rw [(watch_other hdomain.tracked hother).1] at hdata
    cases hdata

theorem InStep.along_iff : ∀ {arrivals : List Arrival} {s : Watch}, InStep key s →
    (watch key).Along (InDomain key) s arrivals →
    ((watch key).Along (Tells key) s arrivals ↔ (watch key).Along (Plain key) s arrivals)
  | [], _, _, _ => Iff.rfl
  | a :: arrivals, s, h, hdomain => by
    constructor
    · rintro ⟨htells, hrest⟩
      have hplain := (h.tells_iff hdomain.1).mp htells
      exact ⟨hplain, ((h.next hdomain.1 hplain).along_iff hdomain.2).mp hrest⟩
    · rintro ⟨hplain, hrest⟩
      exact ⟨(h.tells_iff hdomain.1).mpr hplain, ((h.next hdomain.1 hplain).along_iff hdomain.2).mpr hrest⟩

/-- **The diffs tell the truth.**  Along every run from the market's first batch that starts with a clear, below the
tracking caps and wanted throughout, every frame is truthful entry by entry and leaves the client with the stage's
sizes, if and only if no batch behind a clear removes an order and no other batch sets an order it has already
moved. -/
theorem diffs_tell_the_truth_iff (key : BookKey) (s : Watch) (first : Arrival) (rest : List Arrival)
    (hheld : s.held = ∅) (hopens : Opens key first)
    (hdomain : (watch key).Along (InDomain key) s (first :: rest)) :
    (watch key).Along (Tells key) s (first :: rest) ↔ (watch key).Along (Plain key) s (first :: rest) := by
  have hready := ready_of_opens hheld hopens
  obtain ⟨b, hmsg, hkey, -⟩ := hopens
  have hfirst := hready.tells_iff hdomain.1 hmsg hkey
  constructor
  · rintro ⟨htells, hrest⟩
    have hnext := hready.next hdomain.1 hmsg hkey (hfirst.mp htells)
    exact ⟨hfirst.mp htells, (hnext.along_iff hdomain.2).mp hrest⟩
  · rintro ⟨hplain, hrest⟩
    have hnext := hready.next hdomain.1 hmsg hkey hplain
    exact ⟨hfirst.mpr hplain, (hnext.along_iff hdomain.2).mpr hrest⟩

/-- A batch of the market that is wanted. -/
def btcArrival (changes : List BookChange) : Arrival := ⟨.book (btcBatch changes), ∅, ⟨0, 1⟩, false⟩

/-- A change that sets order 1 at price one. -/
def btcSet (size : F64) : BookChange := ⟨.update, .bid, ⟨0x3FF0000000000000⟩, size, 1⟩

theorem btcArrival_inDomain {s : Watch} {changes : List BookChange} (hroom : s.published.size < MAX_TRACKED_MARKETS)
    (hb : Emitted (btcBatch changes)) (hbelow : Below (s.memory ∅ btcMarket) changes) :
    InDomain btcMarket s (btcArrival changes) := by
  refine ⟨hroom, fun b hmsg _ => ?_⟩
  cases hmsg
  exact ⟨hb, Nat.one_ne_zero, rfl, hbelow⟩

/-- Order 1 rested at size two and, in the batch after, taken down to size one. -/
def btcSetApart : List Arrival := [btcArrival [btcSet ⟨0x4000000000000000⟩], btcArrival [btcSet ⟨0x3FF0000000000000⟩]]

theorem diffs_tell_the_truth_one_by_one :
    (watch btcMarket).Along (Tells btcMarket) ⟨∅, [], ∅⟩ (btcArrival [BookAccumulator.clearBoth] :: btcSetApart) := by
  refine (diffs_tell_the_truth_iff btcMarket ⟨∅, [], ∅⟩ (btcArrival [BookAccumulator.clearBoth]) btcSetApart rfl
    ⟨_, rfl, rfl, rfl⟩ ⟨?_, ?_, ?_, trivial⟩).mpr ⟨?_, ?_, ?_, trivial⟩
  · exact btcArrival_inDomain (by decide) ⟨by decide, by decide, by decide, by decide⟩ ⟨by decide +kernel, trivial⟩
  · exact btcArrival_inDomain (by decide) ⟨by decide, by decide, by decide, by decide⟩ ⟨by decide +kernel, trivial⟩
  · exact btcArrival_inDomain (by decide) ⟨by decide, by decide, by decide, by decide⟩ ⟨by decide +kernel, trivial⟩
  · rintro b hmsg -
    cases hmsg
    show ∀ c ∈ [BookAccumulator.clearBoth], c.orderId ≠ 0 → sets c = true
    decide
  · rintro b hmsg -
    cases hmsg
    exact ⟨fun _ => rfl, trivial⟩
  · rintro b hmsg -
    cases hmsg
    exact ⟨fun _ => rfl, trivial⟩

/-- The same two changes in one batch: both are rendered `new`. -/
def btcSetTwice : List Arrival :=
  [btcArrival [BookAccumulator.clearBoth], btcArrival [btcSet ⟨0x4000000000000000⟩, btcSet ⟨0x3FF0000000000000⟩]]

theorem order_set_twice_is_new_twice :
    (watch btcMarket).Along (InDomain btcMarket) ⟨∅, [], ∅⟩ btcSetTwice ∧
      ¬ (watch btcMarket).Along (Tells btcMarket) ⟨∅, [], ∅⟩ btcSetTwice := by
  refine ⟨⟨?_, ?_, trivial⟩, ?_⟩
  · exact btcArrival_inDomain (by decide) ⟨by decide, by decide, by decide, by decide⟩ ⟨by decide +kernel, trivial⟩
  · exact btcArrival_inDomain (by decide) ⟨by decide, by decide, by decide, by decide⟩
      ⟨by decide +kernel, by decide +kernel, trivial⟩
  · rintro ⟨-, htells, -⟩
    have hnew := ((htells _ rfl).1).2.1
    revert hnew
    show ¬ ((OrderDiffEntry.apply _ _ : OrderMap).get 1 = none)
    decide +kernel

end Hl

end EdgeConnect
