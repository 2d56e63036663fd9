import EdgeConnect.Model.Accumulator
import Mathlib.Data.List.DropRight

/-!
# A baselined accumulator is complete

`BookAccumulator` drops what outgrows its caps.  It is compared with a book that has none.

* `EventBook.feedIdeal` — a book fed without the pending cap and without the order cap;
* `EventBook.KeepsIdeal` — while complete, the capped book rests the same and has the same event open; else
  its open event is the end of the ideal one's.  An event that clears both sides of a book forgets what
  was there, so the two agree again when the capped one is complete again;
* `Carried` — stamps that batches of a list carried;
* `baselined_book_is_complete` — the comparison for every sequence of batches, and where its stamps come
  from.
-/

set_option autoImplicit false

namespace EdgeConnect

/-! ## The ideal book -/

namespace EventBook

/-- Feed one batch to a book without caps. -/
def feedIdeal (e : EventBook) (changes : List BookChange) (last : Bool) : EventBook :=
  let pending := e.pending ++ changes.filter BookChange.isFinite
  if last then
    ⟨e.rests.foldChanges pending, [], e.complete || clearedSides pending = (true, true)⟩
  else ⟨e.rests, pending, e.complete⟩

/-- How a capped book stands to the ideal one fed the same batches. -/
structure KeepsIdeal (e ideal : EventBook) : Prop where
  pending : e.pending <:+ ideal.pending
  complete : e.complete = true → e.rests = ideal.rests ∧ e.pending = ideal.pending

variable {e ideal : EventBook}

/-- **One batch**: the capped book stays behind the ideal one, or is level with it. -/
theorem KeepsIdeal.feed (h : KeepsIdeal e ideal) (changes : List BookChange) (last : Bool) :
    KeepsIdeal (e.feed changes last) (ideal.feedIdeal changes last) := by
  obtain ⟨dropped, hdropped⟩ := h.pending
  have hsuffix : ideal.pending ++ changes.filter BookChange.isFinite =
      dropped ++ (e.pending ++ changes.filter BookChange.isFinite) := by
    rw [← hdropped, List.append_assoc]
  unfold EventBook.feed EventBook.feedIdeal
  simp only
  generalize e.pending ++ changes.filter BookChange.isFinite = own at hsuffix ⊢
  cases last with
  | true =>
    simp only [if_true]
    refine ⟨List.suffix_refl _, fun hcomplete => ⟨?_, rfl⟩⟩
    simp only [Bool.and_eq_true, Bool.or_eq_true, decide_eq_true_eq] at hcomplete
    obtain ⟨hwhy, hsize⟩ := hcomplete
    have hfold : e.rests.foldChanges own =
        ideal.rests.foldChanges (ideal.pending ++ changes.filter BookChange.isFinite) := by
      rcases hwhy with hwas | hclears
      · -- it was level with the ideal book and has the same event open
        obtain ⟨hrests, hpending⟩ := h.complete hwas
        have hnone : dropped = [] := by
          rw [hpending] at hdropped
          simpa using hdropped
        rw [hsuffix, hnone, List.nil_append, hrests]
      · -- what its part of the event clears, no earlier change matters for
        rw [hsuffix, Resting.foldChanges_append]
        exact Resting.foldChanges_eq_of_clears hclears
    show bound _ = _
    rw [bound, if_neg (by omega), hfold]
  | false =>
    simp only [Bool.false_eq_true, if_false]
    split
    · exact ⟨List.nil_suffix, nofun⟩
    · refine ⟨⟨dropped, hsuffix.symm⟩, fun hcomplete => ?_⟩
      obtain ⟨hrests, hpending⟩ := h.complete hcomplete
      have hnone : dropped = [] := by
        rw [hpending] at hdropped
        simpa using hdropped
      exact ⟨hrests, by rw [hsuffix, hnone, List.nil_append]⟩

end EventBook

/-- The ideal book after a sequence of batches. -/
def idealBook (batches : List NormalizedBook) : EventBook :=
  batches.foldl (fun e b => e.feedIdeal b.changes b.last) ⟨.empty, [], false⟩

/-! ## Stamps -/

/-- Each stamp is unset or was carried by a batch of the list. -/
structure Carried (batches : List NormalizedBook) (ts : Nat) (id : Option Nat) (wire : Nat) : Prop where
  ts : ts ≠ 0 → ∃ b ∈ batches, b.sourceTsNs = ts
  id : ∀ i, id = some i → ∃ b ∈ batches, b.batchId = some i
  wire : wire ≠ 0 → ∃ b ∈ batches, b.recvTsNs = wire

/-- The batches up to the last one that closed an event. -/
def foldedBatches (batches : List NormalizedBook) : List NormalizedBook :=
  batches.rdropWhile fun b => !b.last

variable {batches more : List NormalizedBook} {ts wire : Nat} {id : Option Nat}

theorem Carried.mono (h : Carried batches ts id wire) (hsub : batches ⊆ more) :
    Carried more ts id wire where
  ts := by
    intro hne
    obtain ⟨b, hb, hts⟩ := h.ts hne
    exact ⟨b, hsub hb, hts⟩
  id := by
    intro i hi
    obtain ⟨b, hb, hid⟩ := h.id i hi
    exact ⟨b, hsub hb, hid⟩
  wire := by
    intro hne
    obtain ⟨b, hb, hwire⟩ := h.wire hne
    exact ⟨b, hsub hb, hwire⟩

theorem foldedBatches_subset (batches : List NormalizedBook) : foldedBatches batches ⊆ batches :=
  (List.rdropWhile_prefix _ _).subset

namespace BookAccumulator

variable {a : BookAccumulator}

/-- The stamps of the open event once a batch has joined it. -/
theorem carried_buffer (h : Carried batches a.pendingTsNs a.pendingBatchId a.pendingWireTsNs)
    (b : NormalizedBook) :
    Carried (batches ++ [b]) (a.buffer b).pendingTsNs (a.buffer b).pendingBatchId
      (a.buffer b).pendingWireTsNs := by
  have hold := h.mono (List.subset_append_left batches [b])
  have hb : b ∈ batches ++ [b] := by simp
  refine ⟨fun hne => ?_, fun i hi => ?_, fun hne => ?_⟩
  · simp only [buffer] at hne ⊢
    by_cases hz : b.sourceTsNs = 0
    · simp only [hz, ne_eq, not_true_eq_false, if_false] at hne ⊢
      exact hold.ts hne
    · exact ⟨b, hb, by simp [hz]⟩
  · simp only [buffer] at hi
    split at hi
    · exact ⟨b, hb, hi⟩
    · exact hold.id i hi
  · simp only [buffer] at hne ⊢
    rcases Nat.le_total b.recvTsNs a.pendingWireTsNs with hle | hle
    · rw [Nat.max_eq_left hle] at hne ⊢
      exact hold.wire hne
    · exact ⟨b, hb, (Nat.max_eq_right hle).symm⟩

/-- What an unterminated batch leaves alone. -/
theorem apply_open (a : BookAccumulator) {b : NormalizedBook} (hlast : b.last = false) :
    (a.apply b).toResting = a.toResting ∧ (a.apply b).sourceTsNs = a.sourceTsNs ∧
      (a.apply b).batchId = a.batchId ∧ (a.apply b).wireTsNs = a.wireTsNs := by
  unfold apply
  simp only [hlast, Bool.false_eq_true, if_false]
  split <;> exact ⟨rfl, rfl, rfl, rfl⟩

/-- Where the stamps of an accumulator come from. -/
structure StampsOf (batches : List NormalizedBook) (a : BookAccumulator) : Prop where
  pending : Carried batches a.pendingTsNs a.pendingBatchId a.pendingWireTsNs
  folded : Carried (foldedBatches batches) a.sourceTsNs a.batchId a.wireTsNs

theorem StampsOf.apply (h : StampsOf batches a) (b : NormalizedBook) :
    StampsOf (batches ++ [b]) (a.apply b) := by
  have hopen := carried_buffer h.pending b
  cases hlast : b.last with
  | true =>
    have hall : foldedBatches (batches ++ [b]) = batches ++ [b] := by
      simp [foldedBatches, hlast]
    unfold BookAccumulator.apply
    simp only [hlast, if_true]
    exact ⟨hopen, by rw [hall]; exact hopen⟩
  | false =>
    have hsame : foldedBatches (batches ++ [b]) = foldedBatches batches := by
      simp [foldedBatches, hlast]
    unfold BookAccumulator.apply
    simp only [hlast, Bool.false_eq_true, if_false]
    split
    · -- the abandoned event's stamps go back to what is folded in
      refine ⟨h.folded.mono fun x hx => ?_, by rw [hsame]; exact h.folded⟩
      exact List.mem_append_left _ (foldedBatches_subset batches hx)
    · exact ⟨hopen, by rw [hsame]; exact h.folded⟩

/-- An accumulator after a sequence of batches. -/
def after (symbol : String) (batches : List NormalizedBook) : BookAccumulator :=
  batches.foldl apply (new symbol)

theorem stampsOf_after (symbol : String) (batches : List NormalizedBook) :
    StampsOf batches (after symbol batches) := by
  induction batches using List.reverseRecOn with
  | nil =>
    have hnone : Carried [] 0 none 0 := ⟨fun h => absurd rfl h, nofun, fun h => absurd rfl h⟩
    exact ⟨hnone, hnone⟩
  | append_singleton batches b ih =>
    unfold after
    rw [List.foldl_append]
    exact ih.apply b

theorem follows_after (symbol : String) (batches : List NormalizedBook) :
    EventBook.KeepsIdeal (after symbol batches).core (idealBook batches) := by
  induction batches using List.reverseRecOn with
  | nil => exact ⟨List.suffix_refl _, nofun⟩
  | append_singleton batches b ih =>
    unfold after idealBook
    rw [List.foldl_append, List.foldl_append]
    show EventBook.KeepsIdeal ((after symbol batches).apply b).core _
    rw [core_apply]
    exact ih.feed b.changes b.last

/-- **A baselined accumulator is complete.** After any batches: if it is baselined it rests exactly what a
book without caps rests; its stamps are unset or carried by batches up to the last that closed an event;
a batch that closes none leaves levels, orders and stamps alone; and one that outgrows the cap also takes
the open event's stamps back to the folded ones. -/
theorem baselined_book_is_complete (symbol : String) (batches : List NormalizedBook) :
    ((after symbol batches).baselined = true →
      (after symbol batches).toResting = (idealBook batches).rests) ∧
    Carried (foldedBatches batches) (after symbol batches).sourceTsNs (after symbol batches).batchId
      (after symbol batches).wireTsNs ∧
    ∀ b : NormalizedBook, b.last = false →
      ((after symbol (batches ++ [b])).toResting = (after symbol batches).toResting ∧
        (after symbol (batches ++ [b])).sourceTsNs = (after symbol batches).sourceTsNs ∧
        (after symbol (batches ++ [b])).batchId = (after symbol batches).batchId ∧
        (after symbol (batches ++ [b])).wireTsNs = (after symbol batches).wireTsNs) ∧
      (((after symbol batches).buffer b).pending.length > MAX_PENDING_CHANGES →
        (after symbol (batches ++ [b])).pending = [] ∧
        (after symbol (batches ++ [b])).baselined = false ∧
        (after symbol (batches ++ [b])).pendingTsNs = (after symbol batches).sourceTsNs ∧
        (after symbol (batches ++ [b])).pendingBatchId = (after symbol batches).batchId ∧
        (after symbol (batches ++ [b])).pendingWireTsNs = (after symbol batches).wireTsNs) := by
  refine ⟨fun hbase => ((follows_after symbol batches).complete hbase).1,
    (stampsOf_after symbol batches).folded, fun b hlast => ?_⟩
  have hstep : after symbol (batches ++ [b]) = (after symbol batches).apply b := by
    unfold after
    rw [List.foldl_append]
    rfl
  rw [hstep]
  refine ⟨apply_open _ hlast, fun hlen => ?_⟩
  unfold apply
  simp only [hlast, Bool.false_eq_true, if_false, if_pos hlen]
  exact ⟨rfl, rfl, rfl, rfl, rfl⟩

/-- A batch of one market. -/
def batchOf (changes : List BookChange) (last : Bool) (wire : Nat) : NormalizedBook where
  venue := "dz"
  sourceName := "dz"
  sourceId := 1
  symbol := "KXBTCPERP"
  channel := 1
  instrumentId := 41
  category := "book"
  orderLevel := false
  changes := changes
  batchId := none
  snapshot := false
  last := last
  sourceTsNs := wire
  recvTsNs := wire
  kernelRxTsNs := 0
  wsSendTsNs := 0

/-- A level, an open event with another, and the clear that closes it. -/
def clearedBatches : List NormalizedBook :=
  [batchOf [⟨.update, .bid, F64.zero, F64.zero, 0⟩] true 100,
    batchOf [⟨.update, .ask, F64.zero, F64.zero, 0⟩] false 200, batchOf [clearBoth] true 300]

theorem baselined_book_is_complete_clearedBatches :
    (after "KXBTCPERP" clearedBatches).baselined = true ∧
    (after "KXBTCPERP" clearedBatches).toResting = (idealBook clearedBatches).rests := by
  have hbase : (after "KXBTCPERP" clearedBatches).baselined = true := by decide
  exact ⟨hbase, (baselined_book_is_complete "KXBTCPERP" clearedBatches).1 hbase⟩

end BookAccumulator

end EdgeConnect
