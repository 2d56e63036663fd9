import EdgeConnect.Ingest.Book
import EdgeConnect.Lib.Recent

/-!
# Removed orders stay removed

The book remembers the orders removed last (`removed`, `removed_order` in `src/ingest/book.rs`), and refuses an `Add` of
one of them, until a snapshot, a reset or the end of the session opens a new id space.

* `removals` — the orders that a run removed since the id space was opened;
* `Remembers` — what ties them to the memory of the book, kept by every call;
* `removed_orders_stay_removed` — no removed order rests again before `MAX_REMOVED_ORDERS` others were removed.
-/

set_option autoImplicit false

namespace EdgeConnect.Mbo

/-! ## The removals of a run -/

/-- The order that a delta may take out of the book. -/
def DeltaKind.takes : DeltaKind → Option Nat
  | .add .. => none
  | .cancel orderId => some orderId
  | .execute orderId .. => some orderId

/-- The order that a delta took out of the book, from the books before and after it. -/
def removedBy (kind : DeltaKind) (b b' : BookState) : List Nat :=
  kind.takes.toList.filter fun orderId => b.orders.contains orderId && !b'.orders.contains orderId

/-- The removals up to the end of a replay. -/
def replayRemovals (b : BookState) (log : List Nat) : List DeltaOp → List Nat
  | [] => log
  | op :: ops =>
    if (b.applyOrRecover op).1.state = .recovering then log ++ removedBy op.kind b (b.applyOrRecover op).1
    else replayRemovals (b.applyOrRecover op).1 (log ++ removedBy op.kind b (b.applyOrRecover op).1) ops

/-- The removals since the id space was opened, after one more call. -/
def removalsStep (b : BookState) (log : List Nat) : Call → List Nat
  | .delta op => log ++ removedBy op.kind b (b.onDeltaReporting op).1
  | .snapshotEnd anchor id =>
    match b.building with
    | none => log
    | some g => if (b.onSnapshotEnd anchor id).2 then replayRemovals (b.install g) [] (b.replayable g.anchorSeq) else log
  | .instrumentReset _ => []
  | .endOfSession => []
  | _ => log

/-- The removals of a run since the id space was opened last. -/
def removals (b : BookState) (log : List Nat) : List Call → List Nat
  | [] => log
  | c :: calls => removals (machine.step b c).1 (removalsStep b log c) calls

/-! ## The memory -/

open BookState

variable {b : BookState} {log : List Nat}

theorem trimRemoved_eq : ∀ {queue : List Nat}, queue.Nodup →
    trimRemoved queue.toFinset queue = ((queue.rtake MAX_REMOVED_ORDERS).toFinset, queue.rtake MAX_REMOVED_ORDERS)
  | [], _ => by simp [trimRemoved]
  | oldest :: rest, h => by
    obtain ⟨hout, hrest⟩ := List.nodup_cons.mp h
    unfold trimRemoved
    split
    · rename_i hlong
      have herase : (oldest :: rest).toFinset.erase oldest = rest.toFinset := by
        rw [List.toFinset_cons, Finset.erase_insert (by simpa using hout)]
      have hkept : (oldest :: rest).rtake MAX_REMOVED_ORDERS = rest.rtake MAX_REMOVED_ORDERS :=
        show ([oldest] ++ rest).rtake MAX_REMOVED_ORDERS = _ from
          Recent.rtake_append_of_le (by simpa using Nat.lt_succ_iff.mp hlong)
      rw [herase, hkept]
      exact trimRemoved_eq hrest
    · rename_i hshort
      rw [Recent.rtake_of_le (Nat.not_lt.mp hshort)]

/-- The book remembers the last removals, and none of them rests. -/
structure Remembers (log : List Nat) (b : BookState) : Prop where
  order : b.removedOrder = log.rtake MAX_REMOVED_ORDERS
  fresh : Recent.Fresh MAX_REMOVED_ORDERS log
  removed : b.removed = b.removedOrder.toFinset
  apart : ∀ id, b.orders.contains id = true → id ∉ b.removed

theorem Remembers.opened (horder : b.removedOrder = []) (hremoved : b.removed = ∅) : Remembers [] b :=
  ⟨by rw [horder]; simp, .nil, by rw [horder, hremoved]; rfl, fun id _ => by rw [hremoved]; simp⟩

/-- The memory is not touched, and no remembered order comes to rest. -/
theorem Remembers.keep {b' : BookState} (h : Remembers log b) (horder : b'.removedOrder = b.removedOrder)
    (hremoved : b'.removed = b.removed) (hrest : ∀ id, b'.orders.contains id = true →
      b.orders.contains id = true ∨ id ∉ b.removed) : Remembers log b' := by
  refine ⟨horder.trans h.order, h.fresh, by rw [hremoved, horder]; exact h.removed, fun id hid => ?_⟩
  rw [hremoved]
  exact (hrest id hid).elim (h.apart id) fun hout => hout

/-- An order leaves the book and is remembered. -/
theorem Remembers.note {b' : BookState} {orderId : Nat} (h : Remembers log b)
    (hresting : b.orders.contains orderId = true) (horder : b'.removedOrder = b.removedOrder)
    (hremoved : b'.removed = b.removed) (hrest : ∀ id, b'.orders.contains id = true →
      b.orders.contains id = true ∧ id ≠ orderId) : Remembers (log ++ [orderId]) (b'.noteRemoved orderId) := by
  have hout : orderId ∉ b.removed := h.apart orderId hresting
  have hqueue : orderId ∉ b.removedOrder := by
    rw [h.removed] at hout
    simpa using hout
  have hnodup : (b.removedOrder ++ [orderId]).Nodup := by
    refine List.nodup_append'.mpr ⟨?_, List.nodup_singleton _, List.disjoint_singleton.mpr hqueue⟩
    rw [h.order]
    exact h.fresh.nodup
  have hset : insert orderId b.removed = (b.removedOrder ++ [orderId]).toFinset := by
    rw [List.toFinset_append, h.removed]
    ext x
    simp
  have htrim := trimRemoved_eq hnodup
  have hmem : ∀ x ∈ (b.removedOrder ++ [orderId]).rtake MAX_REMOVED_ORDERS, x ∈ b.removedOrder ++ [orderId] :=
    fun x => Recent.mem_of_mem_rtake
  have hkept : (b.removedOrder ++ [orderId]).rtake MAX_REMOVED_ORDERS = (log ++ [orderId]).rtake MAX_REMOVED_ORDERS := by
    rw [h.order, Recent.rtake_note]
  rw [← hset] at htrim
  generalize (b.removedOrder ++ [orderId]).rtake MAX_REMOVED_ORDERS = kept at htrim hmem hkept
  have hnote : b'.noteRemoved orderId = { b' with removed := kept.toFinset, removedOrder := kept } := by
    unfold noteRemoved
    rw [hremoved, horder, if_neg hout, htrim]
  rw [hnote]
  refine ⟨hkept, h.fresh.note (h.order ▸ hqueue), rfl, fun id hid hin => ?_⟩
  obtain ⟨hwas, hne⟩ := hrest id hid
  rcases List.mem_append.mp (hmem id (List.mem_toFinset.mp hin)) with hold | hnew
  · exact h.apart id hwas (by rw [h.removed]; simpa using hold)
  · exact hne (List.mem_singleton.mp hnew)

/-! ## Every call keeps it -/

theorem removedBy_stays {kind : DeltaKind} {b b' : BookState}
    (h : ∀ id, kind.takes = some id → b.orders.contains id = true → b'.orders.contains id = true) :
    removedBy kind b b' = [] := by
  unfold removedBy
  rw [List.filter_eq_nil_iff]
  intro id hid
  have htakes : kind.takes = some id := by simpa using hid
  cases hin : b.orders.contains id with
  | false => simp
  | true => simp [h id htakes hin]

theorem removedBy_goes {kind : DeltaKind} {b b' : BookState} {id : Nat} (htakes : kind.takes = some id)
    (hin : b.orders.contains id = true) (hout : b'.orders.contains id = false) : removedBy kind b b' = [id] := by
  unfold removedBy
  rw [htakes]
  show List.filter _ [id] = [id]
  rw [List.filter_singleton, hin, hout]
  rfl

theorem contains_erase (orders : Orders) (id x : Nat) :
    (orders.erase id).contains x = true ↔ orders.contains x = true ∧ x ≠ id := by
  unfold FinMap.contains
  rw [FinMap.get_erase]
  by_cases hx : x = id <;> simp [hx]

theorem contains_insert (orders : Orders) (id x : Nat) (o : RestingOrder) :
    (orders.insert id o).contains x = true ↔ orders.contains x = true ∨ x = id := by
  unfold FinMap.contains
  rw [FinMap.get_insert]
  by_cases hx : x = id <;> simp [hx]

@[simp] theorem setLevels_removedOrder (b : BookState) (s : Bool) (l : Levels) :
    (b.setLevels s l).removedOrder = b.removedOrder := by
  cases s <;> rfl

/-- **One delta.** -/
theorem Remembers.apply (h : Remembers log b) (kind : DeltaKind) :
    Remembers (log ++ removedBy kind b (b.apply kind).1) (b.apply kind).1 := by
  cases kind with
  | add orderId isBid price qty =>
    have hnone : removedBy (.add orderId isBid price qty) b (b.apply (.add orderId isBid price qty)).1 = [] :=
      removedBy_stays nofun
    rw [hnone, List.append_nil]
    clear hnone
    unfold BookState.apply
    simp only
    split
    · exact h
    · rename_i hfree
      split
      · exact h.keep rfl rfl fun id hid => by cases hid
      · refine h.keep (by simp) (by simp) fun id hid => ?_
        rw [setLevels_orders, contains_insert] at hid
        rcases hid with hid | rfl
        · exact .inl hid
        · exact .inr hfree
  | cancel orderId =>
    cases hget : b.orders.get orderId with
    | none =>
      have heq : b.apply (.cancel orderId) = (b, [], true) := by
        unfold BookState.apply
        simp only
        rw [hget]
      rw [heq, removedBy_stays fun _ _ hin => hin, List.append_nil]
      exact h
    | some o =>
      have hin : b.orders.contains orderId = true := FinMap.contains_eq_true.mpr ⟨o, hget⟩
      unfold BookState.apply
      simp only
      rw [hget]
      simp only
      have hrest : ∀ (l : Levels) (id : Nat),
          (({ b with orders := b.orders.erase orderId } : BookState).setLevels o.isBid l).orders.contains id = true →
            b.orders.contains id = true ∧ id ≠ orderId := by
        intro l id hid
        rwa [setLevels_orders, contains_erase] at hid
      rw [removedBy_goes rfl hin]
      · exact h.note hin (by simp) (by simp) (hrest _)
      · rw [noteRemoved_orders, ← Bool.not_eq_true]
        exact fun hstill => (hrest _ _ hstill).2 rfl
  | execute orderId qty full =>
    cases hget : b.orders.get orderId with
    | none =>
      have heq : b.apply (.execute orderId qty full) = (b, [], true) := by
        unfold BookState.apply
        simp only
        rw [hget]
      rw [heq, removedBy_stays fun _ _ hin => hin, List.append_nil]
      exact h
    | some o =>
      have hin : b.orders.contains orderId = true := FinMap.contains_eq_true.mpr ⟨o, hget⟩
      unfold BookState.apply
      simp only
      rw [hget]
      simp only
      split
      · have hrest : ∀ (l : Levels) (id : Nat),
            (({ b with orders := b.orders.erase orderId } : BookState).setLevels o.isBid l).orders.contains id = true →
              b.orders.contains id = true ∧ id ≠ orderId := by
          intro l id hid
          rwa [setLevels_orders, contains_erase] at hid
        rw [removedBy_goes rfl hin]
        · exact h.note hin (by simp) (by simp) (hrest _)
        · rw [noteRemoved_orders, ← Bool.not_eq_true]
          exact fun hstill => (hrest _ _ hstill).2 rfl
      · rw [removedBy_stays fun id _ hid => ?_, List.append_nil]
        · refine h.keep (by simp) (by simp) fun id hid => ?_
          rw [setLevels_orders, contains_insert] at hid
          rcases hid with hid | rfl
          · exact .inl hid
          · exact .inl hin
        · rw [setLevels_orders, contains_insert]
          exact .inl hid

/-- A delta that leaves the orders and the memory alone. -/
theorem Remembers.idle {b' : BookState} (h : Remembers log b) (kind : DeltaKind) (horders : b'.orders = b.orders)
    (horder : b'.removedOrder = b.removedOrder) (hremoved : b'.removed = b.removed) :
    Remembers (log ++ removedBy kind b b') b' := by
  rw [removedBy_stays fun _ _ hin => by rw [horders]; exact hin, List.append_nil]
  exact h.keep horder hremoved fun id hid => .inl (by rwa [horders] at hid)

/-- One delta in or out of sequence. -/
theorem Remembers.applyOrRecover (h : Remembers log b) (op : DeltaOp) :
    Remembers (log ++ removedBy op.kind b (b.applyOrRecover op).1) (b.applyOrRecover op).1 := by
  rcases b.applyOrRecover_cases op with ⟨-, heq⟩ | ⟨-, heq⟩ | ⟨-, heq⟩ <;> rw [heq]
  · exact h.idle op.kind rfl rfl rfl
  · exact h.idle op.kind rfl rfl rfl
  · have hadvance : Remembers log (b.advance op) := h.keep rfl rfl fun _ => .inl
    exact hadvance.apply op.kind

theorem Remembers.replay : ∀ (ops : List DeltaOp) {b : BookState} {log : List Nat}, Remembers log b →
    Remembers (replayRemovals b log ops) (b.replay ops)
  | [], _, _, h => h
  | op :: ops, b, log, h => by
    have hstep := h.applyOrRecover op
    unfold replayRemovals BookState.replay
    split
    · exact hstep
    · exact Remembers.replay ops hstep

/-- **One call.** -/
theorem Remembers.step (h : Remembers log b) (c : Call) : Remembers (removalsStep b log c) (machine.step b c).1 := by
  cases c with
  | delta op =>
    show Remembers (log ++ removedBy op.kind b (b.onDeltaReporting op).1) (b.onDeltaReporting op).1
    unfold onDeltaReporting
    split
    · split <;> exact h.idle op.kind rfl rfl rfl
    · exact h.applyOrRecover op
  | snapshotBegin id anchor total last =>
    show Remembers log (b.onSnapshotBegin id anchor total last)
    unfold onSnapshotBegin
    split
    · exact h.keep rfl rfl fun _ => .inl
    · split <;> exact h.keep rfl rfl fun _ => .inl
  | snapshotOrder id order isBid price qty =>
    show Remembers log (b.onSnapshotOrder id order isBid price qty)
    unfold onSnapshotOrder
    split
    · exact h
    · split
      · exact h.keep rfl rfl fun _ => .inl
      · exact h
  | snapshotEnd anchor id =>
    show Remembers (removalsStep b log (.snapshotEnd anchor id)) (b.onSnapshotEnd anchor id).1
    unfold removalsStep
    simp only
    rcases b.onSnapshotEnd_cases anchor id with ⟨hb, heq⟩ | ⟨g, hb, heq⟩ | ⟨g, hb, -, heq⟩ <;> rw [heq, hb]
    · exact h
    · exact h.keep rfl rfl fun _ => .inl
    · exact Remembers.replay _ (.opened rfl rfl)
  | instrumentReset s => exact .opened rfl rfl
  | endOfSession => exact .opened rfl rfl

theorem remembers_run : ∀ (calls : List Call) {b : BookState} {log : List Nat}, Remembers log b →
    Remembers (removals b log calls) (machine.exec b calls)
  | [], _, _, h => h
  | c :: calls, _, _, h => remembers_run calls (h.step c)

/-- **Removed orders stay removed inside one id space.**  No order both rests and is remembered; the memory is its queue,
each id once and `MAX_REMOVED_ORDERS` at most; an order that was removed rests again, and is removed again, only after
that many others were removed; and an `Add` that is refused consumes its sequence number, so that the next delta in
sequence is applied. -/
theorem removed_orders_stay_removed (calls : List Call) :
    let b := machine.exec .new calls
    let log := removals .new [] calls
    (∀ id, b.orders.contains id = true → id ∉ b.removed) ∧
      (∀ id, id ∈ b.removed ↔ id ∈ b.removedOrder) ∧ b.removedOrder.Nodup ∧
      b.removed.card ≤ MAX_REMOVED_ORDERS ∧
      (∀ h₁ id h₂, log = h₁ ++ id :: h₂ → id ∉ h₂ → b.orders.contains id = true → ∃ others : List Nat,
        others.Nodup ∧ others.length = MAX_REMOVED_ORDERS ∧ others.Sublist h₂ ∧ id ∉ others) ∧
      (∀ h₁ id h₂ h₃, log = h₁ ++ id :: (h₂ ++ id :: h₃) → id ∉ h₂ → ∃ others : List Nat,
        others.Nodup ∧ others.length = MAX_REMOVED_ORDERS ∧ others.Sublist h₂ ∧ id ∉ others) ∧
      ∀ seq mktdataSeq ts id isBid price qty, b.state = .synced → seq = b.lastInstrSeq + 1 → id ∈ b.removed →
        let op : DeltaOp := ⟨seq, mktdataSeq, ts, .add id isBid price qty⟩
        b.onDeltaReporting op = (b.advance op, [], false) ∧ ∀ next : DeltaOp, next.seq = seq + 1 →
          (b.advance op).onDeltaReporting next = ((b.advance op).advance next).apply next.kind := by
  intro b log
  have h : Remembers log b := remembers_run calls (.opened rfl rfl)
  have hnodup : b.removedOrder.Nodup := by
    rw [h.order]
    exact h.fresh.nodup
  refine ⟨h.apart, fun id => by rw [h.removed, List.mem_toFinset], hnodup, ?_, ?_, ?_, ?_⟩
  · rw [h.removed, h.order]
    exact Nat.le_trans (List.toFinset_card_le _) Recent.length_rtake_le
  · intro h₁ id h₂ hlog hout hresting
    -- a resting order has left the memory, as if it were removed now
    have hfree : id ∉ log.rtake MAX_REMOVED_ORDERS := by
      have := h.apart id hresting
      rwa [h.removed, List.mem_toFinset, h.order] at this
    have hspaced := h.fresh.note hfree
    rw [hlog, List.append_assoc, List.cons_append] at hspaced
    exact hspaced.spaced hout
  · intro h₁ id h₂ h₃ hlog hout
    have hfresh := h.fresh
    rw [hlog] at hfresh
    exact hfresh.spaced hout
  · intro seq mktdataSeq ts id isBid price qty hsynced hseq hin op
    have hstate : (b.advance op).state = .synced := hsynced
    refine ⟨?_, fun next hnext => ?_⟩
    · unfold onDeltaReporting
      rw [hsynced]
      show b.applyOrRecover op = _
      unfold BookState.applyOrRecover
      rw [if_neg (by show ¬ seq ≤ _; omega), if_neg (by show ¬ seq ≠ _; omega)]
      show BookState.apply (b.advance op) (.add id isBid price qty) = _
      unfold BookState.apply
      exact if_pos hin
    · unfold onDeltaReporting
      rw [hstate]
      show (b.advance op).applyOrRecover next = _
      unfold BookState.applyOrRecover
      have hlast : (b.advance op).lastInstrSeq = seq := rfl
      rw [hlast, if_neg (by omega), if_neg (by omega)]

end EdgeConnect.Mbo
