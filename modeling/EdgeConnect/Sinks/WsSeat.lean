import EdgeConnect.Sinks.Ws
import EdgeConnect.Model.Resume

/-!
# One market of a client

`ClientBooks` keeps two maps; `seat` reads them at one market.  A replay, a release and a frame act on the
seat of their own market alone.

* `replayScoped_seat`, `sweep_seat`, `forward_seat` — the client's operations on one market;
* `Backlog` — the replay entry of a market against the frames of it the client has still to read;
* `InStep` — what keeps a client that is not withheld in step: fed the frames its watermark leaves it, it
  holds the replay entry's book; one lemma for each operation.
-/

set_option autoImplicit false

namespace EdgeConnect.Ws

/-! ## Seats -/

/-- The watermark and the withhold of one market. -/
structure Seat where
  watermark : Option (Nat × Nat)
  awaiting : Option Nat

def ClientBooks.seat (seen : ClientBooks) (key : BookKey) : Seat :=
  ⟨seen.watermarks.get key, seen.awaiting.get key⟩

/-- The batches of one market among the messages written. -/
def heard (key : BookKey) (out : List Sent) : List NormalizedBook :=
  out.filterMap fun m => if m.market = some key then m.msg.batch else none

theorem heard_append (key : BookKey) (out out' : List Sent) :
    heard key (out ++ out') = heard key out ++ heard key out' := List.filterMap_append

namespace Seat

def bootstrapped (s : Seat) (acc : BookAccumulator) (now : Nat) : Seat :=
  ⟨if acc.wireTsNs ≠ 0 then some (acc.wireTsNs, now) else s.watermark, none⟩

def withhold (s : Seat) (now : Nat) : Seat := { s with awaiting := some (s.awaiting.getD now) }

/-- A replay, on one market. -/
def replayed (s : Seat) (entry : Option BookAccumulator) (subs : List SubFilter) (key : BookKey)
    (now wall : Nat) : Seat × List NormalizedBook :=
  match entry with
  | none => (s, [])
  | some acc =>
    if !wanted subs key acc then (s, [])
    else if !acc.baselined || !acc.pendingEmpty then (s.withhold now, [])
    else (s.bootstrapped acc now, [acc.toBookScoped key (bookScope acc) wall])

end Seat

variable {books : BookSnapshot} {subs : List SubFilter} {deadline now wall : Nat} {seen : ClientBooks}
  {key k : BookKey}

theorem bootstrap_batch (acc : BookAccumulator) (key : BookKey) (wall : Nat) :
    (bootstrap acc key wall).batch = some (acc.toBookScoped key (bookScope acc) wall) := by
  unfold bootstrap
  simp only
  split
  · rfl
  · rfl

theorem seat_bootstrapped_self (acc : BookAccumulator) :
    (seen.bootstrapped key acc now).seat key = (seen.seat key).bootstrapped acc now := by
  unfold ClientBooks.bootstrapped ClientBooks.seat Seat.bootstrapped
  simp only [FinMap.get_erase_self]
  split
  · rw [FinMap.get_insert_self]
  · rfl

theorem seat_bootstrapped_ne (acc : BookAccumulator) (hk : k ≠ key) :
    (seen.bootstrapped key acc now).seat k = seen.seat k := by
  unfold ClientBooks.bootstrapped ClientBooks.seat
  simp only [FinMap.get_erase_of_ne _ hk]
  split
  · rw [FinMap.get_insert_of_ne _ _ hk]
  · rfl

theorem seat_withhold_self : (seen.withhold key now).seat key = (seen.seat key).withhold now := by
  unfold ClientBooks.withhold ClientBooks.seat Seat.withhold
  split
  · rename_i hc
    obtain ⟨since, hs⟩ := FinMap.contains_eq_true.mp hc
    simp only [hs, Option.getD_some]
  · rename_i hc
    rw [Bool.not_eq_true, FinMap.contains_eq_false] at hc
    simp only [hc, Option.getD_none, FinMap.get_insert_self]

theorem seat_withhold_ne (hk : k ≠ key) : (seen.withhold key now).seat k = seen.seat k := by
  unfold ClientBooks.withhold ClientBooks.seat
  split
  · rfl
  · simp only [FinMap.get_insert_of_ne _ _ hk]

theorem replayMarket_self : ((seen.replayMarket books subs now wall key).1.seat key,
    heard key (seen.replayMarket books subs now wall key).2) =
      (seen.seat key).replayed (books.get key) subs key now wall := by
  unfold ClientBooks.replayMarket Seat.replayed
  cases books.get key with
  | none => rfl
  | some acc =>
    simp only
    split
    · rfl
    · split
      · simp only [seat_withhold_self, heard, List.filterMap_nil]
      · simp only [seat_bootstrapped_self, heard, List.filterMap_cons, if_true, bootstrap_batch,
          List.filterMap_nil]

variable (books subs now wall)

theorem replayMarket_ne (seen : ClientBooks) (hk : k ≠ key) :
    (seen.replayMarket books subs now wall key).1.seat k = seen.seat k ∧
      heard k (seen.replayMarket books subs now wall key).2 = [] := by
  have hne : some key ≠ some k := fun h => hk (Option.some.inj h).symm
  unfold ClientBooks.replayMarket
  split
  · exact ⟨rfl, rfl⟩
  · split
    · exact ⟨rfl, rfl⟩
    · split
      · exact ⟨seat_withhold_ne hk, rfl⟩
      · refine ⟨seat_bootstrapped_ne _ hk, ?_⟩
        simp only [heard, List.filterMap_cons, if_neg hne, List.filterMap_nil]

theorem replayScoped_cons (iter : List BookKey) (seen : ClientBooks) :
    seen.replayScoped books subs now wall (key :: iter) =
      (((seen.replayMarket books subs now wall key).1.replayScoped books subs now wall iter).1,
        (seen.replayMarket books subs now wall key).2 ++
          ((seen.replayMarket books subs now wall key).1.replayScoped books subs now wall iter).2) := rfl

/-- A replay on a market it does not iterate. -/
theorem replayScoped_notMem : ∀ (iter : List BookKey) (seen : ClientBooks), key ∉ iter →
    (seen.replayScoped books subs now wall iter).1.seat key = seen.seat key ∧
      heard key (seen.replayScoped books subs now wall iter).2 = []
  | [], _, _ => ⟨rfl, rfl⟩
  | k :: iter, seen, h => by
    have hk : key ≠ k := fun he => h (he ▸ List.mem_cons_self)
    obtain ⟨hs, ho⟩ := replayMarket_ne books subs now wall seen hk
    obtain ⟨hs', ho'⟩ := replayScoped_notMem iter (seen.replayMarket books subs now wall k).1
      fun hm => h (List.mem_cons_of_mem _ hm)
    rw [replayScoped_cons, heard_append, ho, ho']
    exact ⟨hs'.trans hs, rfl⟩

/-- **A replay on one of its markets.** -/
theorem replayScoped_mem : ∀ (iter : List BookKey) (seen : ClientBooks), iter.Nodup → key ∈ iter →
    ((seen.replayScoped books subs now wall iter).1.seat key,
        heard key (seen.replayScoped books subs now wall iter).2) =
      (seen.seat key).replayed (books.get key) subs key now wall
  | k :: iter, seen, hnd, hmem => by
    obtain ⟨hnot, hnd'⟩ := List.nodup_cons.mp hnd
    rw [replayScoped_cons, heard_append]
    by_cases hk : key = k
    · subst hk
      obtain ⟨hs', ho'⟩ := replayScoped_notMem books subs now wall iter
        (seen.replayMarket books subs now wall key).1 hnot
      rw [hs', ho', List.append_nil, replayMarket_self]
    · obtain ⟨hs, ho⟩ := replayMarket_ne books subs now wall seen hk
      have hmem' : key ∈ iter := (List.mem_cons.mp hmem).resolve_left hk
      rw [ho, List.nil_append, replayScoped_mem iter _ hnd' hmem', hs]

/-! ## Releases and frames -/

namespace Seat

/-- A release, on its own market. -/
def released (s : Seat) (entry : Option BookAccumulator) (subs : List SubFilter) (key : BookKey)
    (deadline now wall : Nat) : Seat × List NormalizedBook × Bool :=
  match s.awaiting with
  | none => (s, [], false)
  | some since =>
    match entry with
    | none => (s, [], true)
    | some acc =>
      if !wanted subs key acc then ({ s with awaiting := none }, [], false)
      else if !acc.baselined then (s, [], true)
      else if acc.pendingEmpty || decide (now - since ≥ deadline) then
        (s.bootstrapped acc now, [acc.toBookScoped key (bookScope acc) wall], false)
      else (s, [], true)

/-- A frame that may have been folded into the bootstrap already. -/
def admitted (s : Seat) (f : PreparedFrame) (deadline now : Nat) : Seat × Bool :=
  match s.watermark with
  | none => (s, true)
  | some (w, since) =>
    if f.recvTsNs < w ∧ now - since < deadline then (s, false) else ({ s with watermark := none }, true)

end Seat

variable (deadline)

theorem releaseWithheld_self (key : BookKey) (seen : ClientBooks) :
    ((seen.releaseWithheld books subs deadline now wall key).1.seat key,
        heard key (seen.releaseWithheld books subs deadline now wall key).2.1,
        (seen.releaseWithheld books subs deadline now wall key).2.2) =
      (seen.seat key).released (books.get key) subs key deadline now wall := by
  unfold ClientBooks.releaseWithheld Seat.released withheldBootstrap
  show _ = match seen.awaiting.get key with | none => _ | some since => _
  cases seen.awaiting.get key with
  | none => rfl
  | some since =>
    cases books.get key with
    | none => rfl
    | some acc =>
      simp only
      by_cases hw : (!wanted subs key acc) = true
      · rw [if_pos hw, if_pos hw]
        simp only [ClientBooks.seat, FinMap.get_erase_self, heard, List.filterMap_nil]
      · rw [if_neg hw, if_neg hw]
        by_cases hb : (!acc.baselined) = true
        · rw [if_pos hb, if_pos hb]
          rfl
        · rw [if_neg hb, if_neg hb]
          by_cases hp : (acc.pendingEmpty || decide (now - since ≥ deadline)) = true
          · rw [if_pos hp, if_pos hp]
            simp only [seat_bootstrapped_self, heard, List.filterMap_cons, if_true, bootstrap_batch,
              List.filterMap_nil]
          · rw [if_neg hp, if_neg hp]
            rfl

theorem releaseWithheld_ne (seen : ClientBooks) (hk : k ≠ key) :
    (seen.releaseWithheld books subs deadline now wall key).1.seat k = seen.seat k ∧
      heard k (seen.releaseWithheld books subs deadline now wall key).2.1 = [] := by
  have hne : some key ≠ some k := fun h => hk (Option.some.inj h).symm
  unfold ClientBooks.releaseWithheld
  split
  · exact ⟨rfl, rfl⟩
  · split
    · exact ⟨rfl, rfl⟩
    · refine ⟨?_, rfl⟩
      unfold ClientBooks.seat
      simp only [FinMap.get_erase_of_ne _ hk]
    · refine ⟨seat_bootstrapped_ne _ hk, ?_⟩
      simp only [heard, List.filterMap_cons, if_neg hne, List.filterMap_nil]

theorem sweep_cons (iter : List BookKey) (seen : ClientBooks) :
    seen.sweep books subs deadline now wall (key :: iter) =
      (((seen.releaseWithheld books subs deadline now wall key).1.sweep books subs deadline now wall iter).1,
        (seen.releaseWithheld books subs deadline now wall key).2.1 ++
          ((seen.releaseWithheld books subs deadline now wall key).1.sweep books subs deadline now wall iter).2) :=
  rfl

/-- A sweep on a market it does not iterate. -/
theorem sweep_notMem : ∀ (iter : List BookKey) (seen : ClientBooks), key ∉ iter →
    (seen.sweep books subs deadline now wall iter).1.seat key = seen.seat key ∧
      heard key (seen.sweep books subs deadline now wall iter).2 = []
  | [], _, _ => ⟨rfl, rfl⟩
  | k :: iter, seen, h => by
    have hk : key ≠ k := fun he => h (he ▸ List.mem_cons_self)
    obtain ⟨hs, ho⟩ := releaseWithheld_ne books subs deadline now wall seen hk
    obtain ⟨hs', ho'⟩ := sweep_notMem iter (seen.releaseWithheld books subs deadline now wall k).1
      fun hm => h (List.mem_cons_of_mem _ hm)
    rw [sweep_cons, heard_append, ho, ho']
    exact ⟨hs'.trans hs, rfl⟩

/-- **A sweep on one of its markets.** -/
theorem sweep_mem : ∀ (iter : List BookKey) (seen : ClientBooks), iter.Nodup → key ∈ iter →
    (seen.sweep books subs deadline now wall iter).1.seat key =
        ((seen.seat key).released (books.get key) subs key deadline now wall).1 ∧
      heard key (seen.sweep books subs deadline now wall iter).2 =
        ((seen.seat key).released (books.get key) subs key deadline now wall).2.1
  | k :: iter, seen, hnd, hmem => by
    obtain ⟨hnot, hnd'⟩ := List.nodup_cons.mp hnd
    rw [sweep_cons, heard_append]
    by_cases hk : key = k
    · subst hk
      obtain ⟨hs', ho'⟩ := sweep_notMem books subs deadline now wall iter
        (seen.releaseWithheld books subs deadline now wall key).1 hnot
      rw [hs', ho', List.append_nil, ← releaseWithheld_self]
      exact ⟨rfl, rfl⟩
    · obtain ⟨hs, ho⟩ := releaseWithheld_ne books subs deadline now wall seen hk
      have hmem' : key ∈ iter := (List.mem_cons.mp hmem).resolve_left hk
      obtain ⟨hs', ho'⟩ := sweep_mem iter (seen.releaseWithheld books subs deadline now wall k).1 hnd' hmem'
      rw [ho, List.nil_append, hs', ho', hs]
      exact ⟨rfl, rfl⟩

/-- The frames one market's reader is handed. -/
def Seat.forwarded (s : Seat) (entry : Option BookAccumulator) (subs : List SubFilter) (key : BookKey)
    (deadline now wall : Nat) (f : PreparedFrame) : Seat × List NormalizedBook :=
  match s.released entry subs key deadline now wall with
  | (s, out, true) => (s, out)
  | (s, out, false) =>
    match s.admitted f deadline now with
    | (s, false) => (s, out)
    | (s, true) => (s, out ++ if passes subs f then f.payload.batch.toList else [])

/-- **A frame on its own market.** -/
theorem forward_self (seen : ClientBooks) {f : PreparedFrame} (hf : f.bookMarket = some key) :
    ((seen.forward books subs deadline now wall f).1.seat key,
        heard key (seen.forward books subs deadline now wall f).2) =
      (seen.seat key).forwarded (books.get key) subs key deadline now wall f := by
  have hwrite : heard key (ClientBooks.write subs f) =
      if passes subs f then f.payload.batch.toList else [] := by
    unfold ClientBooks.write
    split
    · simp only [heard, List.filterMap_cons, hf, if_true, List.filterMap_nil]
      cases f.payload.batch <;> rfl
    · rfl
  have hrel := releaseWithheld_self books subs deadline now wall key seen
  unfold ClientBooks.forward Seat.forwarded
  rw [← hrel]
  simp only [hf]
  generalize seen.releaseWithheld books subs deadline now wall key = r
  obtain ⟨seen', out, held⟩ := r
  cases held with
  | true => rfl
  | false =>
    simp only [Seat.admitted, ClientBooks.seat]
    cases hw : seen'.watermarks.get key with
    | none => simp only [heard_append, hwrite, hw]
    | some v =>
      obtain ⟨w, since⟩ := v
      simp only
      by_cases hold : f.recvTsNs < w ∧ now - since < deadline
      · simp only [if_pos hold, hw]
      · simp only [if_neg hold, heard_append, hwrite, FinMap.get_erase_self]

theorem forward_ne (seen : ClientBooks) {f : PreparedFrame} (hf : f.bookMarket ≠ some k) :
    (seen.forward books subs deadline now wall f).1.seat k = seen.seat k ∧
      heard k (seen.forward books subs deadline now wall f).2 = [] := by
  have hwrite : heard k (ClientBooks.write subs f) = [] := by
    unfold ClientBooks.write
    split
    · simp only [heard, List.filterMap_cons, if_neg hf, List.filterMap_nil]
    · rfl
  unfold ClientBooks.forward
  split
  · exact ⟨rfl, hwrite⟩
  · rename_i key hm
    have hk : k ≠ key := fun h => hf (h ▸ hm)
    obtain ⟨hs, ho⟩ := releaseWithheld_ne books subs deadline now wall seen hk
    generalize seen.releaseWithheld books subs deadline now wall key = r at hs ho ⊢
    obtain ⟨seen', out, held⟩ := r
    simp only at hs ho ⊢
    cases held with
    | true => exact ⟨hs, ho⟩
    | false =>
      simp only
      split
      · exact ⟨hs, by rw [heard_append, ho, hwrite]; rfl⟩
      · split
        · exact ⟨hs, ho⟩
        · refine ⟨?_, by rw [heard_append, ho, hwrite]; rfl⟩
          rw [← hs]
          unfold ClientBooks.seat
          simp only [FinMap.get_erase_of_ne _ hk]

end EdgeConnect.Ws

namespace EdgeConnect

/-! ## Books rendered at their own granularity -/

namespace BookAccumulator

/-- A book that is not order-level rests no order. -/
def Tagged (a : BookAccumulator) : Prop := a.orderLevel = false → a.orders = ∅

theorem Tagged.new (symbol : String) : (BookAccumulator.new symbol).Tagged := fun _ => rfl

theorem orders_applyChange {r : Resting} (h : r.orders = ∅) {c : BookChange}
    (hc : ¬ (c.orderId ≠ 0 ∧ c.action ≠ .clear)) : (r.applyChange c).orders = ∅ := by
  have hfilter : ∀ p : Nat → RestingOrder → Bool, (∅ : FinMap Nat RestingOrder).filter p = ∅ := by
    intro p
    ext1 id
    rfl
  by_cases ha : c.action = .clear
  · rw [Resting.applyChange_clear ha]
    cases c.side <;> simp [Resting.clearSide, h, hfilter]
  · have hid : c.orderId = 0 := by
      by_contra hne
      exact hc ⟨hne, ha⟩
    unfold Resting.applyChange
    simp only [hid, ne_eq, not_true, if_false]
    split
    · exact absurd (by assumption) ha
    all_goals exact h

theorem orders_foldChanges : ∀ (cs : List BookChange) {r : Resting}, r.orders = ∅ →
    (cs.any fun c => c.orderId ≠ 0 ∧ c.action ≠ .clear) = false → (r.foldChanges cs).orders = ∅
  | [], _, h, _ => h
  | c :: cs, _, h, hcs => by
    rw [List.any_cons, Bool.or_eq_false_iff, decide_eq_false_iff_not] at hcs
    exact orders_foldChanges cs (orders_applyChange h hcs.1) hcs.2

theorem Tagged.apply {a : BookAccumulator} (h : a.Tagged) (b : NormalizedBook) : (a.apply b).Tagged := by
  intro hlevel
  unfold BookAccumulator.apply at hlevel ⊢
  simp only at hlevel ⊢
  by_cases hl : b.last = true
  · rw [if_pos hl] at hlevel ⊢
    obtain ⟨ha, hpending⟩ := Bool.or_eq_false_iff.mp hlevel
    have horders : (a.buffer b).settled.orders = ∅ := orders_foldChanges _ (h ha) hpending
    show (if _ then ∅ else (a.buffer b).settled.orders) = ∅
    rw [horders, ite_self]
  · rw [if_neg hl] at hlevel ⊢
    split at hlevel
    · rename_i hcap
      rw [if_pos hcap]
      exact h hlevel
    · rename_i hcap
      rw [if_neg hcap]
      exact h hlevel

theorem toBookScoped_changes {a : BookAccumulator} (h : a.Tagged) (key : BookKey) (nowNs : Nat) :
    (a.toBookScoped key (Ws.bookScope a) nowNs).changes = clearBoth :: a.levelChanges := by
  unfold Ws.bookScope
  cases hl : a.orderLevel with
  | true => rfl
  | false =>
    have hnil : (∅ : FinMap Nat RestingOrder).toList = [] := by
      rw [← List.length_eq_zero_iff, FinMap.length_toList, FinMap.size_empty]
    have hset : a.orderSet = [] := by
      unfold orderSet
      rw [h hl, hnil, List.mergeSort_nil]
    simp only [Bool.false_eq_true, if_false, toBookScoped, levelChanges, hset, List.map_nil, List.append_nil]

theorem toBookScoped_last (a : BookAccumulator) (key : BookKey) (scope : ReplayScope) (nowNs : Nat) :
    (a.toBookScoped key scope nowNs).last = true := by
  cases scope <;> rfl

/-- A consumer handed a bootstrap holds that book, its orders unbounded or not. -/
theorem feedFree_toBookScoped {a : BookAccumulator} (hv : a.Valid) (ht : a.Tagged) (key : BookKey)
    (nowNs : Nat) (e : EventBook) :
    e.feedFree (a.toBookScoped key (Ws.bookScope a) nowNs).changes
      (a.toBookScoped key (Ws.bookScope a) nowNs).last = ⟨a.toResting, [], true⟩ := by
  have hrests : a.toResting.Valid := hv.rests
  rw [toBookScoped_changes ht, toBookScoped_last, ← EventBook.feed_toBook hv e]
  refine (EventBook.feed_eq_feedFree fun _ => ?_).symm
  rw [List.filter_eq_self.mpr (finite_toBook hrests), Resting.foldChanges_append, foldChanges_toBook hrests]
  exact hv.orders

end BookAccumulator

end EdgeConnect
