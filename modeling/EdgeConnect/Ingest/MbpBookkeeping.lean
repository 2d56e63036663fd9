import EdgeConnect.Ingest.MbpSteps

/-!
# The bookkeeping of the Market-by-Price processor

Its maps, the queues that bound them and the buffer total are written by hand on every path.

* `Ledger` — what of a processor the bookkeeping is about; `Ledger.Kept` — it is in step;
* `enforced_kept`, `budget_met` — the loop over the largest buffers, and what it leaves;
* `onMessage_kept`, `begin_kept`, `emitPass_kept` — the parts of a datagram.
-/

set_option autoImplicit false

namespace EdgeConnect.Mbp

open Ingest

/-! ## The ledger -/

/-- The books with their buffers, and the keys of the maps that are kept beside them. -/
structure Ledger where
  books : FinMap PriceBookKey PriceBook
  booksOrder : List PriceBookKey
  bufferedTotal : Nat
  reported : Finset PriceBookKey
  channels : Finset ChannelKey
  channelOrder : List ChannelKey
  slots : Finset ChannelKey
  batching : Finset ChannelKey
  dropped : Finset ChannelKey
  droppedOrder : List ChannelKey

def MbpProcessor.ledger (p : MbpProcessor) : Ledger where
  books := p.books
  booksOrder := p.booksOrder
  bufferedTotal := p.bufferedTotal
  reported := p.healthReported.keys
  channels := p.lastReset.keys
  channelOrder := p.channelOrder
  slots := p.lastBatch.keys
  batching := p.batching.keys
  dropped := p.dropped.keys
  droppedOrder := p.droppedOrder

namespace Ledger

variable {l : Ledger} {key : PriceBookKey}

/-- The deltas buffered across the books. -/
def buffered (l : Ledger) : Nat := l.books.sumVals fun _ b => b.bufferedLen

structure Kept (l : Ledger) : Prop where
  total : l.bufferedTotal = l.buffered
  books : Lists l.booksOrder l.books.keys
  booksCap : l.books.size ≤ MAX_PRICE_BOOKS
  reported : l.reported ⊆ l.books.keys
  channels : Lists l.channelOrder l.channels
  channelsCap : l.channels.card ≤ MAX_CHANNEL_KEYS
  slots : l.slots ⊆ l.channels
  batching : l.batching ⊆ l.channels
  dropped : Lists l.droppedOrder l.dropped
  droppedCap : l.dropped.card ≤ MAX_CHANNEL_KEYS

theorem Kept.new : MbpProcessor.new.ledger.Kept where
  total := rfl
  books := .nil
  booksCap := Nat.zero_le _
  reported := Finset.Subset.refl _
  channels := .nil
  channelsCap := Nat.zero_le _
  slots := Finset.Subset.refl _
  batching := Finset.Subset.refl _
  dropped := .nil
  droppedCap := Nat.zero_le _

/-- A book that is there changes, and the total with it. -/
def setBook (l : Ledger) (key : PriceBookKey) (b b' : PriceBook) : Ledger :=
  { l with books := l.books.insert key b', bufferedTotal := l.bufferedTotal + b'.bufferedLen - b.bufferedLen }

theorem Kept.setBook {b : PriceBook} (h : l.Kept) (hb : l.books.get key = some b) (b' : PriceBook) :
    (l.setBook key b b').Kept := by
  have hkeys : (l.books.insert key b').keys = l.books.keys :=
    FinMap.keys_insert_of_contains (FinMap.contains_eq_true.mpr ⟨b, hb⟩) b'
  have hsum := FinMap.sumVals_insert l.books (fun _ b => b.bufferedLen) key b'
  rw [hb] at hsum
  refine { h with total := ?_, books := ?_, booksCap := ?_, reported := ?_ }
  · have htotal := h.total
    unfold buffered at htotal
    show l.bufferedTotal + b'.bufferedLen - b.bufferedLen = (l.books.insert key b').sumVals fun _ b => b.bufferedLen
    simp only [Option.elim_some] at hsum
    omega
  · show Lists l.booksOrder (l.books.insert key b').keys
    rw [hkeys]
    exact h.books
  · show (l.books.insert key b').keys.card ≤ _
    rw [hkeys]
    exact h.booksCap
  · show l.reported ⊆ (l.books.insert key b').keys
    rw [hkeys]
    exact h.reported

/-- The health of a book is filed. -/
def report (l : Ledger) (key : PriceBookKey) : Ledger := { l with reported := insert key l.reported }

theorem Kept.report (h : l.Kept) (hkey : key ∈ l.books.keys) : (l.report key).Kept :=
  { h with reported := Finset.insert_subset hkey h.reported }

/-- A book goes, with what was filed about it. -/
def forget (l : Ledger) (key : PriceBookKey) : Ledger :=
  { l with
    books := l.books.erase key
    bufferedTotal := l.bufferedTotal - (l.books.get key).elim 0 PriceBook.bufferedLen
    reported := l.reported.erase key }

/-- The queue of the books is another. -/
def relist (l : Ledger) (queue : List PriceBookKey) : Ledger := { l with booksOrder := queue }

/-- A book goes, and the queue after it is that of the rest. -/
theorem Kept.forget (h : l.Kept) {queue : List PriceBookKey} (hqueue : Lists queue (l.books.keys.erase key)) :
    ((l.forget key).relist queue).Kept := by
  have hsum : (l.books.erase key).sumVals (fun _ b => b.bufferedLen) +
      (l.books.get key).elim 0 PriceBook.bufferedLen = l.buffered := FinMap.sumVals_erase l.books _ key
  refine { h with total := ?_, books := hqueue, booksCap := ?_, reported := Finset.erase_subset_erase key h.reported }
  · show l.bufferedTotal - (l.books.get key).elim 0 PriceBook.bufferedLen = _
    rw [h.total, ← hsum, Nat.add_sub_cancel]
    rfl
  · exact (Finset.card_le_card (Finset.erase_subset _ _)).trans h.booksCap

theorem foldl_forget_relist (queue : List PriceBookKey) : ∀ (ks : List PriceBookKey) (l : Ledger),
    ks.foldl Ledger.forget (l.relist queue) = (ks.foldl Ledger.forget l).relist queue
  | [], _ => rfl
  | k :: ks, l => foldl_forget_relist queue ks (l.forget k)

/-- Some books go. -/
theorem Kept.forgetAll : ∀ {ks : List PriceBookKey} {l : Ledger} {queue : List PriceBookKey}, l.Kept →
    Lists queue (l.books.keys \ ks.toFinset) → ((ks.foldl Ledger.forget l).relist queue).Kept
  | [], l, queue, h, hqueue => by
    rw [List.toFinset_nil, Finset.sdiff_empty] at hqueue
    exact { h with books := hqueue }
  | k :: ks, l, queue, h, hqueue => by
    have hrest : Lists (l.booksOrder.filter fun x => x ≠ k) (l.books.keys.erase k) := by
      have hfilter := h.books.filter fun x => x ≠ k
      simpa [Finset.filter_ne'] using hfilter
    have hkeys : l.books.keys \ (k :: ks).toFinset = l.books.keys.erase k \ ks.toFinset := by
      rw [List.toFinset_cons, Finset.sdiff_insert, Finset.erase_sdiff_comm]
    rw [hkeys] at hqueue
    have hall := (h.forget hrest).forgetAll hqueue
    rwa [foldl_forget_relist] at hall

/-- A book of a new key is made, below the cap. -/
theorem Kept.admitBook (h : l.Kept) (hkey : key ∉ l.books.keys) (hroom : l.books.size < MAX_PRICE_BOOKS) :
    Kept { l with books := l.books.insert key .new, booksOrder := l.booksOrder ++ [key] } := by
  have hsum := FinMap.sumVals_insert l.books (fun _ b => b.bufferedLen) key .new
  rw [FinMap.notMem_keys_iff.mp hkey] at hsum
  refine { h with total := ?_, books := ?_, booksCap := ?_, reported := ?_ }
  · show l.bufferedTotal = (l.books.insert key .new).sumVals fun _ b => b.bufferedLen
    exact h.total.trans hsum.symm
  · show Lists _ (l.books.insert key .new).keys
    rw [FinMap.keys_insert]
    exact h.books.push hkey
  · show (l.books.insert key .new).keys.card ≤ _
    rw [FinMap.keys_insert, Finset.card_insert_of_notMem hkey]
    exact hroom
  · show l.reported ⊆ (l.books.insert key .new).keys
    rw [FinMap.keys_insert]
    exact h.reported.trans (Finset.subset_insert key _)

/-- The channels of the dropped groups change, in step with their queue. -/
theorem Kept.redrop (h : l.Kept) {queue : List ChannelKey} {keys : Finset ChannelKey} (hlists : Lists queue keys)
    (hcap : keys.card ≤ MAX_CHANNEL_KEYS) : Kept { l with dropped := keys, droppedOrder := queue } :=
  { h with dropped := hlists, droppedCap := hcap }

/-- The queue of the channels is another. -/
def rechannel (l : Ledger) (queue : List ChannelKey) : Ledger := { l with channelOrder := queue }

/-- A channel goes, with all that is kept for it. -/
def dropChannel (l : Ledger) (chan : ChannelKey) : Ledger :=
  { l with channels := l.channels.erase chan, slots := l.slots.erase chan, batching := l.batching.erase chan }

theorem Kept.dropChannel {old : ChannelKey} {queue : List ChannelKey} (h : (l.rechannel (old :: queue)).Kept) :
    ((l.dropChannel old).rechannel queue).Kept :=
  { h with
    channels := h.channels.pop
    channelsCap := (Finset.card_le_card (Finset.erase_subset _ _)).trans h.channelsCap
    slots := Finset.erase_subset_erase old h.slots
    batching := Finset.erase_subset_erase old h.batching }

/-- A new channel is noted, below the cap. -/
theorem Kept.noteChannel (h : l.Kept) {chan : ChannelKey} (hout : chan ∉ l.channels)
    (hroom : l.channels.card < MAX_CHANNEL_KEYS) :
    Kept { l with channels := insert chan l.channels, channelOrder := l.channelOrder ++ [chan] } :=
  { h with
    channels := h.channels.push hout
    channelsCap := by
      show (insert chan l.channels).card ≤ MAX_CHANNEL_KEYS
      rw [Finset.card_insert_of_notMem hout]
      exact hroom
    slots := h.slots.trans (Finset.subset_insert chan _)
    batching := h.batching.trans (Finset.subset_insert chan _) }

/-- All that is kept for a publisher goes, after its books. -/
theorem Kept.purge (h : l.Kept) (p : ChannelKey → Bool) (hgone : ∀ c ∈ l.batching, p c = true)
    (reported : Finset PriceBookKey) (hreported : reported ⊆ l.reported) :
    Kept { l with
      reported
      channels := l.channels.filter fun c => p c = true
      channelOrder := l.channelOrder.filter p
      slots := l.slots.filter fun c => p c = true
      dropped := l.dropped.filter fun c => p c = true
      droppedOrder := l.droppedOrder.filter p } where
  total := h.total
  books := h.books
  booksCap := h.booksCap
  reported := hreported.trans h.reported
  channels := h.channels.filter p
  channelsCap := (Finset.card_filter_le _ _).trans h.channelsCap
  slots := Finset.filter_subset_filter _ h.slots
  batching := fun c hc => Finset.mem_filter.mpr ⟨h.batching hc, hgone c hc⟩
  dropped := h.dropped.filter p
  droppedCap := (Finset.card_filter_le _ _).trans h.droppedCap

/-- Something is kept for a channel that is noted. -/
theorem Kept.openChannel (h : l.Kept) {chan : ChannelKey} (hchan : chan ∈ l.channels) {slots batching : Finset ChannelKey}
    (hslots : slots ⊆ insert chan l.slots) (hbatching : batching ⊆ insert chan l.batching) :
    Kept { l with slots, batching } :=
  { h with
    slots := hslots.trans (Finset.insert_subset hchan h.slots)
    batching := hbatching.trans (Finset.insert_subset hchan h.batching) }

end Ledger

/-! ## What the helpers do to it -/

section Helpers

variable {P S : Type} {rd : Render P S} {cx : Ctx P S} {channel : Nat} {r : Run P S} {key : PriceBookKey}

theorem reportHealth_ledger (rd : Render P S) (cx : Ctx P S) (r : Run P S) (key : PriceBookKey) (healthy : Bool) :
    (r.reportHealth rd cx key healthy).proc.ledger = r.proc.ledger ∨
      (r.reportHealth rd cx key healthy).proc.ledger = r.proc.ledger.report key := by
  unfold Run.reportHealth
  split
  · exact .inl rfl
  · split
    · exact .inl rfl
    · refine .inr ?_
      simp only
      split
      · split <;> rfl
      · rfl

theorem reportHealth_kept (rd : Render P S) (cx : Ctx P S) (h : r.proc.ledger.Kept) (hkey : key ∈ r.proc.books.keys) (healthy : Bool) :
    (r.reportHealth rd cx key healthy).proc.ledger.Kept := by
  rcases reportHealth_ledger rd cx r key healthy with heq | heq
  · rw [heq]
    exact h
  · rw [heq]
    exact h.report hkey

theorem withBook_ledger {R : Type} (f : PriceBook → PriceBook × R) {b : PriceBook}
    (hb : r.proc.books.get key = some b) :
    (r.withBook key f).1.proc.ledger = r.proc.ledger.setBook key b (f b).1 := by
  unfold Run.withBook
  rw [hb]
  rfl

theorem withBook_kept {R : Type} (h : r.proc.ledger.Kept) (f : PriceBook → PriceBook × R) :
    (r.withBook key f).1.proc.ledger.Kept := by
  cases hb : r.proc.books.get key with
  | none =>
    rw [withBook_none hb]
    exact h
  | some b =>
    rw [withBook_ledger f hb]
    exact h.setBook hb _

theorem withBook_keys {R : Type} (f : PriceBook → PriceBook × R) :
    (r.withBook key f).1.proc.books.keys = r.proc.books.keys := by
  cases hb : r.proc.books.get key with
  | none => rw [withBook_none hb]
  | some b =>
    have hbooks : (r.withBook key f).1.proc.books = r.proc.books.insert key (f b).1 :=
      congrArg Ledger.books (withBook_ledger f hb)
    rw [hbooks, FinMap.keys_insert_of_contains (FinMap.contains_eq_true.mpr ⟨b, hb⟩)]

theorem forgetBook_ledger : (r.forgetBook rd cx key).proc.ledger = r.proc.ledger.forget key := by
  unfold Run.forgetBook Run.forgetSourcePath
  simp only
  split <;> rfl

/-- What is filed about a book right before it goes leaves no trace. -/
theorem reportForget_ledger (healthy : Bool) :
    ((r.reportHealth rd cx key healthy).forgetBook rd cx key).proc.ledger = r.proc.ledger.forget key := by
  rw [forgetBook_ledger]
  rcases reportHealth_ledger rd cx r key healthy with heq | heq
  · rw [heq]
  · rw [heq]
    unfold Ledger.forget Ledger.report
    simp only [Finset.erase_insert_eq_erase]

theorem foldl_forget_ledger {step : Run P S → PriceBookKey → Run P S}
    (hstep : ∀ r k, (step r k).proc.ledger = r.proc.ledger.forget k) :
    ∀ (ks : List PriceBookKey) (r : Run P S), (ks.foldl step r).proc.ledger = ks.foldl Ledger.forget r.proc.ledger
  | [], _ => rfl
  | k :: ks, r => by
    rw [List.foldl_cons, List.foldl_cons, foldl_forget_ledger hstep ks, hstep]

/-- One round of the eviction. -/
theorem evictOldest_kept {old : PriceBookKey} {queue : List PriceBookKey}
    (h : (r.proc.ledger.relist (old :: queue)).Kept) (hkey : key ∉ r.proc.books.keys) :
    (((r.reportHealth rd cx old false).forgetBook rd cx old).proc.ledger.relist queue).Kept ∧
      key ∉ ((r.reportHealth rd cx old false).forgetBook rd cx old).proc.books.keys := by
  have hledger : ((r.reportHealth rd cx old false).forgetBook rd cx old).proc.ledger = r.proc.ledger.forget old :=
    reportForget_ledger false
  have hkeys : ((r.reportHealth rd cx old false).forgetBook rd cx old).proc.books.keys = r.proc.books.keys.erase old :=
    congrArg (fun l => l.books.keys) hledger
  rw [hledger, hkeys]
  exact ⟨h.forget h.books.pop, fun hin => hkey (Finset.mem_of_mem_erase hin)⟩

/-- **`ensure_book` keeps the ledger**, whatever it evicts. -/
theorem ensureBook_kept (h : r.proc.ledger.Kept) (id : Nat) :
    (r.ensureBook rd cx channel id).1.proc.ledger.Kept := by
  unfold Run.ensureBook
  split
  · exact h
  · simp only
    split
    · exact h
    · rename_i hnew
      have hout : (⟨cx.publisher, channel, id⟩ : PriceBookKey) ∉ r.proc.books.keys := by
        rw [FinMap.notMem_keys_iff]
        exact FinMap.contains_eq_false.mp (Bool.not_eq_true _ ▸ hnew)
      have hloop := evictWhile_queue (fun r : Run P S => decide (r.proc.books.size ≥ MAX_PRICE_BOOKS))
        (fun r old => (r.reportHealth rd cx old false).forgetBook rd cx old)
        (P := fun queue r => (r.proc.ledger.relist queue).Kept ∧ ⟨cx.publisher, channel, id⟩ ∉ r.proc.books.keys)
        (fun _ _ _ hr => evictOldest_kept hr.1 hr.2) r.proc.booksOrder r ⟨h, hout⟩
      generalize evictWhile _ _ r.proc.booksOrder r = x at hloop ⊢
      obtain ⟨⟨hkept, hfresh⟩, hroom⟩ := hloop
      refine hkept.admitBook hfresh ?_
      show x.2.proc.books.size < MAX_PRICE_BOOKS
      rcases hroom with hroom | hempty
      · simpa using hroom
      · have hlength := hkept.books.length
        rw [show (x.2.proc.ledger.relist x.1).booksOrder = [] from hempty] at hlength
        unfold FinMap.size
        exact hlength ▸ (by decide : 0 < MAX_PRICE_BOOKS)

end Helpers

/-! ## The channels -/

section Channels

variable {P S : Type} {rd : Render P S} {cx : Ctx P S} {channel : Nat} {r : Run P S}

theorem modifyBatching_ledger (chan : ChannelKey) (f : ChannelBatching → ChannelBatching) :
    (r.modifyBatching chan f).proc.ledger = r.proc.ledger := by
  unfold Run.modifyBatching
  split
  · rfl
  · rename_i b hb
    have hkeys : (r.proc.batching.insert chan (f b)).keys = r.proc.batching.keys :=
      FinMap.keys_insert_of_contains (FinMap.contains_eq_true.mpr ⟨b, hb⟩) (f b)
    unfold MbpProcessor.ledger
    simp only [hkeys]

theorem noteDroppedGroup_kept {f : Frame P S} (h : f.proc.ledger.Kept) (chan : ChannelKey) (snapshotId : Nat)
    (reason : DropReason) : (f.noteDroppedGroup chan snapshotId reason).proc.ledger.Kept := by
  unfold Frame.noteDroppedGroup
  simp only
  split
  · rename_i hold
    have hkeys := FinMap.keys_insert_of_contains hold (some (⟨snapshotId, reason⟩ : DroppedGroup))
    exact h.redrop (hkeys ▸ h.dropped) (hkeys ▸ h.droppedCap)
  · rename_i hnew
    have hout : chan ∉ f.proc.dropped.keys := by
      rw [FinMap.notMem_keys_iff]
      exact FinMap.contains_eq_false.mp (Bool.not_eq_true _ ▸ hnew)
    obtain ⟨hlists, hcap⟩ := h.dropped.evict FinMap.keys FinMap.erase (by decide : 0 < MAX_CHANNEL_KEYS)
      FinMap.keys_erase hout
    rw [← FinMap.keys_insert _ chan (some ⟨snapshotId, reason⟩)] at hlists hcap
    exact h.redrop hlists hcap

/-- **`note_reset_count` keeps the ledger**, whatever it evicts, and has the channel after it. -/
theorem noteResetCount_kept (h : r.proc.ledger.Kept) (chan : ChannelKey) (resetCount : Nat) :
    (noteResetCount r chan resetCount).1.proc.ledger.Kept := by
  unfold noteResetCount
  simp only
  split
  · rename_i hold
    have hkeys := FinMap.keys_insert_of_contains hold resetCount
    unfold MbpProcessor.ledger at h ⊢
    rw [← hkeys] at h
    exact h
  · rename_i hnew
    have hout : chan ∉ r.proc.lastReset.keys := by
      rw [FinMap.notMem_keys_iff]
      exact FinMap.contains_eq_false.mp (Bool.not_eq_true _ ▸ hnew)
    have hloop := evictWhile_queue (fun r : Run P S => decide (r.proc.lastReset.size ≥ MAX_CHANNEL_KEYS))
      (fun r old =>
        { r.dropBatching old with
          proc := { (r.dropBatching old).proc with
            lastReset := (r.dropBatching old).proc.lastReset.erase old
            lastBatch := (r.dropBatching old).proc.lastBatch.erase old
            «open» := (r.dropBatching old).proc.open.erase old } })
      (P := fun queue r => (r.proc.ledger.rechannel queue).Kept ∧ chan ∉ r.proc.lastReset.keys)
      (fun _ _ _ hr => ⟨hr.1.dropChannel, fun hin => hr.2 (Finset.mem_of_mem_erase hin)⟩)
      r.proc.channelOrder r ⟨h, hout⟩
    generalize evictWhile _ _ r.proc.channelOrder r = x at hloop ⊢
    obtain ⟨⟨hkept, hfresh⟩, hroom⟩ := hloop
    have hadded := hkept.noteChannel hfresh (by
      show x.2.proc.lastReset.keys.card < MAX_CHANNEL_KEYS
      rcases hroom with hroom | hempty
      · exact Nat.lt_of_not_le (of_decide_eq_false hroom)
      · have hlength := hkept.channels.length
        rw [show (x.2.proc.ledger.rechannel x.1).channelOrder = [] from hempty] at hlength
        exact hlength ▸ (by decide : 0 < MAX_CHANNEL_KEYS))
    have hkeys := FinMap.keys_insert x.2.proc.lastReset chan resetCount
    show Ledger.Kept { x.2.proc.ledger with
      channels := (x.2.proc.lastReset.insert chan resetCount).keys, channelOrder := x.1 ++ [chan] }
    rw [hkeys]
    exact hadded

/-- **`on_channel_reset` keeps the ledger.** -/
theorem onChannelReset_kept (h : r.proc.ledger.Kept) (resetCount : Nat) :
    (r.onChannelReset rd cx channel resetCount).proc.ledger.Kept := by
  unfold Run.onChannelReset
  simp only
  generalize hks : visit cx.order (r.proc.books.keys.filter fun k => k.chan = ⟨cx.publisher, channel⟩) = ks
  have hqueue : Lists (r.proc.booksOrder.filter fun k => k.chan ≠ ⟨cx.publisher, channel⟩)
      (r.proc.books.keys \ ks.toFinset) := by
    have hfilter := h.books.filter fun k => k.chan ≠ ⟨cx.publisher, channel⟩
    have hkeys : r.proc.books.keys \ ks.toFinset =
        r.proc.books.keys.filter fun k => decide (k.chan ≠ ⟨cx.publisher, channel⟩) = true := by
      ext k
      rw [← hks, Finset.mem_sdiff, List.mem_toFinset, mem_visit, Finset.mem_filter, Finset.mem_filter, decide_eq_true_iff]
      tauto
    rw [hkeys]
    exact hfilter
  have hall := h.forgetAll hqueue
  have hledger : (ks.foldl (fun r key => (r.reportHealth rd cx key false).forgetBook rd cx key) r).proc.ledger =
      ks.foldl Ledger.forget r.proc.ledger := foldl_forget_ledger (fun _ _ => reportForget_ledger false) ks r
  have hbooksOrder : ∀ (ks : List PriceBookKey) (l : Ledger), (ks.foldl Ledger.forget l).booksOrder = l.booksOrder :=
    foldl_keeps Ledger.booksOrder Ledger.forget fun _ _ => rfl
  generalize ks.foldl (fun r key => (r.reportHealth rd cx key false).forgetBook rd cx key) r = r₁ at hledger ⊢
  have horder : r₁.proc.booksOrder = r.proc.booksOrder :=
    (congrArg Ledger.booksOrder hledger).trans (hbooksOrder ks _)
  rw [← hledger] at hall
  have hall' : (r₁.proc.ledger.relist (r₁.proc.booksOrder.filter fun k => k.chan ≠ ⟨cx.publisher, channel⟩)).Kept := by
    rw [horder]
    exact hall
  exact { hall' with
    slots := (Finset.erase_subset _ _).trans hall'.slots
    batching := (Finset.erase_subset _ _).trans hall'.batching }

theorem foldl_dropBatching (chans : List ChannelKey) (r : Run P S) :
    (chans.foldl Run.dropBatching r).proc.ledger =
      { r.proc.ledger with batching := r.proc.ledger.batching \ chans.toFinset } := by
  induction chans generalizing r with
  | nil =>
    rw [List.toFinset_nil, Finset.sdiff_empty]
    rfl
  | cons chan chans ih =>
    rw [List.foldl_cons, ih]
    have hkeys : (r.dropBatching chan).proc.ledger.batching = r.proc.ledger.batching.erase chan := rfl
    rw [hkeys, List.toFinset_cons, Finset.sdiff_insert, Finset.erase_sdiff_comm]
    rfl

/-- **`forget_publisher` keeps the ledger.** -/
theorem forgetPublisher_kept (h : r.proc.ledger.Kept) (publisher : IpAddr) :
    (r.forgetPublisher rd cx publisher).proc.ledger.Kept := by
  unfold Run.forgetPublisher
  simp only
  generalize hks : visit cx.order (r.proc.books.keys.filter fun k => decide (k.publisher = publisher) = true) = ks
  have hqueue : Lists (r.proc.booksOrder.filter fun k => !decide (k.publisher = publisher))
      (r.proc.books.keys \ ks.toFinset) := by
    have hfilter := h.books.filter fun k => !decide (k.publisher = publisher)
    have hkeys : r.proc.books.keys \ ks.toFinset =
        r.proc.books.keys.filter fun k => (!decide (k.publisher = publisher)) = true := by
      ext k
      rw [← hks, Finset.mem_sdiff, List.mem_toFinset, mem_visit, Finset.mem_filter, Finset.mem_filter,
        decide_eq_true_iff, Bool.not_eq_true', decide_eq_false_iff_not]
      tauto
    rw [hkeys]
    exact hfilter
  have hall := h.forgetAll hqueue
  have hledger : (ks.foldl (Run.forgetBook rd cx) r).proc.ledger = ks.foldl Ledger.forget r.proc.ledger :=
    foldl_forget_ledger (fun _ _ => forgetBook_ledger) ks r
  have hbooksOrder : ∀ (ks : List PriceBookKey) (l : Ledger), (ks.foldl Ledger.forget l).booksOrder = l.booksOrder :=
    foldl_keeps Ledger.booksOrder Ledger.forget fun _ _ => rfl
  generalize ks.foldl (Run.forgetBook rd cx) r = r₁ at hledger ⊢
  have horder : r₁.proc.booksOrder = r.proc.booksOrder :=
    (congrArg Ledger.booksOrder hledger).trans (hbooksOrder ks _)
  rw [← hledger, ← horder] at hall
  generalize visit cx.order (r₁.proc.revealed.keys.filter fun k => decide (k.publisher = publisher) = true) = paths
  have hpaths : (paths.foldl (Run.forgetSourcePath rd cx) r₁).proc = r₁.proc :=
    foldl_keeps Run.proc _ (fun _ _ => forgetSourcePath_proc) _ _
  generalize paths.foldl (Run.forgetSourcePath rd cx) r₁ = r₂ at hpaths ⊢
  rw [← hpaths] at hall
  generalize hchans : visit [] (r₂.proc.batching.keys.filter fun k => k.publisher = publisher) = chans
  have hlanes := foldl_dropBatching chans r₂
  generalize chans.foldl Run.dropBatching r₂ = r₃ at hlanes ⊢
  have hgone : ∀ c ∈ r₃.proc.batching.keys, c.publisher ≠ publisher := by
    intro c hc hpub
    rw [show r₃.proc.batching.keys = r₂.proc.batching.keys \ chans.toFinset from congrArg Ledger.batching hlanes,
      ← hchans, Finset.mem_sdiff, List.mem_toFinset, mem_visit, Finset.mem_filter] at hc
    exact hc.2 ⟨hc.1, hpub⟩
  have hkept : (r₃.proc.ledger.relist (r₃.proc.booksOrder.filter fun k => !decide (k.publisher = publisher))).Kept := by
    rw [show r₃.proc.booksOrder = r₂.proc.booksOrder from congrArg Ledger.booksOrder hlanes, hlanes]
    exact { hall with batching := Finset.sdiff_subset.trans hall.batching }
  have hpurged := hkept.purge (fun c => decide (c.publisher ≠ publisher)) (fun c hc => decide_eq_true (hgone c hc))
    (r₃.proc.healthReported.keys.filter fun k => (!decide (k.publisher = publisher)) = true)
    (Finset.filter_subset _ _)
  unfold MbpProcessor.ledger at hpurged ⊢
  simp only [FinMap.keys_filter_key r₃.proc.healthReported fun k => !decide (k.publisher = publisher),
    FinMap.keys_filter_key r₃.proc.lastReset fun k => decide (k.publisher ≠ publisher),
    FinMap.keys_filter_key r₃.proc.lastBatch fun k => decide (k.publisher ≠ publisher),
    FinMap.keys_filter_key r₃.proc.dropped fun k => decide (k.publisher ≠ publisher)]
  exact hpurged

end Channels

/-! ## One message -/

section Messages

variable {P S : Type} {rd : Render P S} {cx : Ctx P S} {channel : Nat} {r : Run P S} {f : Frame P S}

theorem revealIfNeeded_ledger (key : PriceBookKey) (sourceId : Nat) :
    (r.revealIfNeeded rd cx key sourceId).1.proc.ledger = r.proc.ledger := by
  unfold Run.revealIfNeeded
  simp only
  split
  · rfl
  · split
    · rfl
    · split <;> rfl

theorem reveal_ledger (key : PriceBookKey) (sourceId : Nat) :
    (f.reveal rd cx key sourceId).proc.ledger = f.proc.ledger := by
  unfold Frame.reveal
  exact revealIfNeeded_ledger key sourceId

theorem onDelta_kept (h : f.proc.ledger.Kept) (id sourceId : Nat) (op : DeltaOp)
    (changes : List (UInt8 × Int) → List (Change P S)) :
    (f.onDelta rd cx channel id sourceId op changes).proc.ledger.Kept := by
  unfold Frame.onDelta
  have hbook : (f.toRun.ensureBook rd cx channel id).1.proc.ledger.Kept := ensureBook_kept h id
  generalize f.toRun.ensureBook rd cx channel id = x at hbook
  obtain ⟨r, key⟩ := x
  cases key with
  | none => exact hbook
  | some key =>
    simp only
    have hdelta : (r.withBook key fun b => ((b.onDelta op).1, (b.onDelta op).2)).1.proc.ledger.Kept :=
      withBook_kept hbook _
    generalize r.withBook key (fun b => ((b.onDelta op).1, (b.onDelta op).2)) = y at hdelta
    obtain ⟨r', outcome⟩ := y
    cases outcome with
    | none => exact hdelta
    | some outcome =>
      obtain ⟨removed, outcome⟩ := outcome
      have hreveal : ∀ f' : Frame P S, f'.toRun = r' → (f'.reveal rd cx key sourceId).proc.ledger.Kept := by
        intro f' heq
        rw [reveal_ledger, heq]
        exact hdelta
      simp only
      split
      · exact hreveal _ rfl
      · exact hreveal _ rfl

theorem onLevelUpdate_kept (h : f.proc.ledger.Kept) (sequence : Nat) (u : LevelUpdate) :
    (f.onLevelUpdate rd cx channel sequence u).proc.ledger.Kept := by
  unfold Frame.onLevelUpdate
  split
  · exact h
  · exact onDelta_kept h _ _ _ _

theorem onBookClear_kept (h : f.proc.ledger.Kept) (sequence : Nat) (c : BookClear) :
    (f.onBookClear rd cx channel sequence c).proc.ledger.Kept := by
  unfold Frame.onBookClear
  split
  · exact h
  · exact onDelta_kept h _ _ _ _

theorem onSnapshotBegin_kept (h : f.proc.ledger.Kept) (resetCount : Nat) (s : SnapshotBegin) :
    (f.onSnapshotBegin rd cx channel resetCount s).proc.ledger.Kept := by
  unfold Frame.onSnapshotBegin
  simp only
  have hclear : (if f.proc.dropped.contains ⟨cx.publisher, channel⟩ = true then
      { f with proc := { f.proc with dropped := f.proc.dropped.insert ⟨cx.publisher, channel⟩ none } }
      else f).proc.ledger.Kept := by
    split
    · rename_i hold
      have hkeys := FinMap.keys_insert_of_contains hold none
      exact h.redrop (hkeys ▸ h.dropped) (hkeys ▸ h.droppedCap)
    · exact h
  generalize (if f.proc.dropped.contains ⟨cx.publisher, channel⟩ = true then
      { f with proc := { f.proc with dropped := f.proc.dropped.insert ⟨cx.publisher, channel⟩ none } }
      else f) = f' at hclear
  split
  · exact noteDroppedGroup_kept hclear _ _ _
  · have hbook : (f'.toRun.ensureBook rd cx channel s.instrumentId).1.proc.ledger.Kept := ensureBook_kept hclear _
    generalize f'.toRun.ensureBook rd cx channel s.instrumentId = x at hbook
    obtain ⟨r, key⟩ := x
    cases key with
    | none => exact noteDroppedGroup_kept (f := { f' with toRun := r }) hbook _ _ _
    | some key =>
      simp only
      have hbegin : (r.withBook key fun b => b.onSnapshotBegin s.snapshotId s.anchorSeq s.totalLevels
          s.lastInstrumentSeq s.depthBound cx.recvTsNs).1.proc.ledger.Kept := withBook_kept hbook _
      generalize r.withBook key _ = y at hbegin ⊢
      split
      · exact hbegin
      · exact hbegin

theorem onSnapshotLevel_kept (h : f.proc.ledger.Kept) (s : SnapshotLevel) :
    (f.onSnapshotLevel cx channel s).proc.ledger.Kept := by
  unfold Frame.onSnapshotLevel
  split
  · exact h
  · split
    · exact withBook_kept h _
    · exact h

theorem onSnapshotEnd_kept (h : f.proc.ledger.Kept) (e : SnapshotEnd) :
    (f.onSnapshotEnd rd cx channel e).proc.ledger.Kept := by
  unfold Frame.onSnapshotEnd
  simp only
  split
  · exact h
  · rename_i g _
    split
    · have hend : (Run.withBook { f.toRun with
          proc := { f.proc with «open» := f.proc.open.erase ⟨cx.publisher, channel⟩ } }
          (Frame.bookKey cx channel e.instrumentId) fun b => b.onSnapshotEnd e.anchorSeq e.snapshotId).1.proc.ledger.Kept :=
        withBook_kept (by exact h) _
      generalize Run.withBook _ (Frame.bookKey cx channel e.instrumentId)
        (fun b => b.onSnapshotEnd e.anchorSeq e.snapshotId) = y at hend ⊢
      split
      · have hsent : (y.1.emitRebaseline rd cx channel e.instrumentId).1.proc.ledger.Kept := by
          rw [emitRebaseline_proc]
          exact hend
        generalize y.1.emitRebaseline rd cx channel e.instrumentId = z at hsent ⊢
        simp only
        split
        · show (z.1.noteBatch ⟨cx.publisher, channel⟩ e.instrumentId true).proc.ledger.Kept
          unfold Run.noteBatch
          rw [modifyBatching_ledger]
          exact hsent
        · exact hsent
      · exact hend
    · exact h

theorem onInstrumentReset_kept (h : f.proc.ledger.Kept) (id newAnchorSeq : Nat) :
    (f.onInstrumentReset rd cx channel id newAnchorSeq).proc.ledger.Kept := by
  unfold Frame.onInstrumentReset
  simp only
  have hreset : (f.toRun.withBook (Frame.bookKey cx channel id) fun b => (b.onInstrumentReset newAnchorSeq, ())).1.proc.ledger.Kept ∧
      ((f.toRun.withBook (Frame.bookKey cx channel id) fun b => (b.onInstrumentReset newAnchorSeq, ())).2 = some () →
        Frame.bookKey cx channel id ∈
          (f.toRun.withBook (Frame.bookKey cx channel id) fun b => (b.onInstrumentReset newAnchorSeq, ())).1.proc.books.keys) := by
    refine ⟨withBook_kept h _, fun hsome => ?_⟩
    rw [withBook_keys]
    cases hb : f.proc.books.get (Frame.bookKey cx channel id) with
    | none =>
      rw [withBook_none hb] at hsome
      cases hsome
    | some b => exact FinMap.mem_keys_iff.mpr ⟨b, hb⟩
  generalize (f.toRun.withBook (Frame.bookKey cx channel id) fun b => (b.onInstrumentReset newAnchorSeq, ())) = x
    at hreset
  obtain ⟨r, found⟩ := x
  cases found with
  | none =>
    split
    · exact h
    · exact noteDroppedGroup_kept (by exact h) _ _ _
  | some u =>
    have hreport := reportHealth_kept rd cx hreset.1 (hreset.2 rfl) false
    have hfiled : (Run.forgetSourcePath rd cx (r.reportHealth rd cx (Frame.bookKey cx channel id) false)
        (Frame.bookKey cx channel id)).proc.ledger.Kept := by
      rw [forgetSourcePath_proc]
      exact hreport
    split
    · exact hfiled
    · exact noteDroppedGroup_kept (by exact hfiled) _ _ _

theorem endOne_kept (rd : Render P S) (cx : Ctx P S) (h : f.proc.ledger.Kept) {key : PriceBookKey} (hkey : key ∈ f.proc.books.keys) :
    (f.endOne rd cx key).proc.ledger.Kept ∧ (f.endOne rd cx key).proc.books.keys = f.proc.books.keys := by
  unfold Frame.endOne
  simp only
  have hend : (f.toRun.withBook key fun b => (b.onEndOfSession, ())).1.proc.ledger.Kept := withBook_kept h _
  have hkeys : (f.toRun.withBook key fun b => (b.onEndOfSession, ())).1.proc.books.keys = f.proc.books.keys :=
    withBook_keys _
  generalize (f.toRun.withBook key fun b => (b.onEndOfSession, ())).1 = r at hend hkeys
  refine ⟨reportHealth_kept rd cx hend (hkeys ▸ hkey) false, ?_⟩
  have hbooks : (r.reportHealth rd cx key false).proc.ledger.books = r.proc.ledger.books := by
    rcases reportHealth_ledger rd cx r key false with heq | heq
    · rw [heq]
    · rw [heq]
      rfl
  exact (congrArg FinMap.keys hbooks).trans hkeys

theorem endOne_foldl_kept (rd : Render P S) (cx : Ctx P S) : ∀ (ks : List PriceBookKey) (f : Frame P S), f.proc.ledger.Kept →
    (∀ k ∈ ks, k ∈ f.proc.books.keys) → (ks.foldl (Frame.endOne rd cx) f).proc.ledger.Kept
  | [], _, h, _ => h
  | k :: ks, f, h, hks => by
    obtain ⟨hkept, hkeys⟩ := endOne_kept rd cx h (hks k List.mem_cons_self)
    refine endOne_foldl_kept rd cx ks _ hkept fun k' hk' => ?_
    rw [hkeys]
    exact hks k' (List.mem_cons_of_mem _ hk')

theorem onEndOfSession_kept (h : f.proc.ledger.Kept) : (f.onEndOfSession rd cx channel).proc.ledger.Kept := by
  unfold Frame.onEndOfSession
  simp only
  have hended := endOne_foldl_kept rd cx
    (visit cx.order (f.proc.books.keys.filter fun k => k.chan = ⟨cx.publisher, channel⟩)) f h fun k hk =>
      (Finset.mem_filter.mp (mem_visit.mp hk)).1
  generalize (visit cx.order _).foldl (Frame.endOne rd cx) f = f' at hended
  have hdropped : Ledger.Kept { f'.proc.ledger with
      slots := f'.proc.ledger.slots.erase ⟨cx.publisher, channel⟩
      batching := f'.proc.ledger.batching.erase ⟨cx.publisher, channel⟩ } :=
    { hended with
      slots := (Finset.erase_subset _ _).trans hended.slots
      batching := (Finset.erase_subset _ _).trans hended.batching }
  split
  · exact hdropped
  · exact noteDroppedGroup_kept (by exact hdropped) _ _ _

theorem closeOpenOne_foldl_proc (owed : Finset Nat) (ids : List Nat) (x : Run P S × Finset Nat) :
    (ids.foldl (Run.closeOpenOne rd cx channel owed) x).1.proc = x.1.proc :=
  foldl_keeps (fun x : Run P S × Finset Nat => x.1.proc) _ (fun x id => (closeOpenOne_proc owed x id).1) ids x

theorem closeOpen_ledger (owed : Finset Nat) : (r.closeOpen rd cx channel owed).proc.ledger = r.proc.ledger := by
  unfold Run.closeOpen
  simp only
  rw [modifyBatching_ledger, closeOpenOne_foldl_proc, modifyBatching_ledger]

theorem onBatchBoundary_kept (h : f.proc.ledger.Kept) (batchId : Nat) :
    (f.onBatchBoundary rd cx channel batchId).proc.ledger.Kept := by
  unfold Frame.onBatchBoundary
  simp only
  split
  · rename_i hera
    split
    · exact h
    · show (Run.modifyBatching _ _ _).proc.ledger.Kept
      rw [modifyBatching_ledger]
      have hproc : ∀ (openIds owed : Finset Nat) (ids : List Nat) (x : Frame P S × Finset Nat),
          (ids.foldl (Frame.closeOne rd cx channel openIds owed) x).1.proc = x.1.proc := fun openIds owed =>
        foldl_keeps (fun x : Frame P S × Finset Nat => x.1.proc) _ (closeOne_proc openIds owed)
      rw [hproc]
      have hchan : (⟨cx.publisher, channel⟩ : ChannelKey) ∈ f.proc.ledger.channels :=
        FinMap.mem_keys_iff.mpr (FinMap.contains_eq_true.mp hera.2)
      exact h.openChannel hchan (Finset.Subset.refl _) (Finset.Subset.refl _)
  · exact h

theorem onTrade_kept (h : f.proc.ledger.Kept) (t : Trade) : (f.onTrade rd cx channel t).proc.ledger.Kept := by
  unfold Frame.onTrade
  split
  · exact h
  · simp only
    have hbook : (f.toRun.ensureBook rd cx channel t.instrumentId).1.proc.ledger.Kept := ensureBook_kept h _
    generalize f.toRun.ensureBook rd cx channel t.instrumentId = x at hbook
    obtain ⟨r, key⟩ := x
    cases key with
    | none => split <;> exact hbook
    | some key =>
      have hreveal : (({ f with toRun := r } : Frame P S).reveal rd cx key t.sourceId).proc.ledger.Kept := by
        rw [reveal_ledger]
        exact hbook
      split <;> exact hreveal

theorem onInstrumentDefinition_kept (h : f.proc.ledger.Kept) (d : InstrumentDefinition) :
    (f.onInstrumentDefinition rd cx channel d).proc.ledger.Kept := by
  unfold Frame.onInstrumentDefinition
  simp only
  have hannounced : ∀ (r : Run P S) (id : Nat), r.proc.ledger.Kept → Ledger.Kept (if (d.sourceId.all fun s => s = id) = true
      then r.emit (.instrument (Frame.bookKey cx channel d.instrumentId)
        (Run.instrumentOf rd cx (Frame.bookKey cx channel d.instrumentId) id d)) else r).proc.ledger := by
    intro r id hr
    split <;> exact hr
  split
  · cases f.proc.revealed.get (Frame.bookKey cx channel d.instrumentId) with
    | none => exact h
    | some id => exact hannounced f.toRun id h
  · show (Run.revealIfNeeded _ _ _ _ _).1.proc.ledger.Kept
    rw [revealIfNeeded_ledger]
    cases f.proc.revealed.get (Frame.bookKey cx channel d.instrumentId) with
    | none => exact h
    | some id => exact hannounced f.toRun id h

/-- **A message keeps the ledger.** -/
theorem onMessage_kept (h : f.proc.ledger.Kept) (header : Header) (fresh : Bool) (m : Message) :
    (f.onMessage rd cx header fresh m).proc.ledger.Kept := by
  cases m with
  | manifestSummary valid manifestSeq instrumentCount =>
    unfold Frame.onMessage
    simp only
    split <;> exact h
  | instrumentDefinition d =>
    unfold Frame.onMessage
    simp only
    split
    · exact onInstrumentDefinition_kept h d
    · exact h
  | levelUpdate u => exact onLevelUpdate_kept h _ u
  | bookClear c => exact onBookClear_kept h _ c
  | snapshotBegin s => exact onSnapshotBegin_kept h _ s
  | snapshotLevel s => exact onSnapshotLevel_kept h s
  | snapshotEnd e => exact onSnapshotEnd_kept h e
  | instrumentReset id newAnchorSeq => exact onInstrumentReset_kept h id newAnchorSeq
  | endOfSession ts => exact onEndOfSession_kept h
  | batchBoundary batchId =>
    unfold Frame.onMessage
    simp only
    split
    · exact onBatchBoundary_kept h batchId
    · exact h
  | trade t => exact onTrade_kept h t
  | other => exact h

end Messages

/-! ## The buffer budget -/

section Budget

variable {P S : Type} {rd : Render P S} {cx : Ctx P S} {channel : Nat} {r : Run P S}

/-- The book that one round of `enforce_buffer_budget` drops the buffer of. -/
def overBudget (cx : Ctx P S) (p : MbpProcessor) : Option PriceBookKey :=
  (Run.largestBuffer p cx.order fun k => k.publisher = cx.publisher).or (Run.largestBuffer p cx.order fun _ => true)

/-- One round of `enforce_buffer_budget`. -/
def dropLargest (rd : Render P S) (cx : Ctx P S) (r : Run P S) (key : PriceBookKey) : Run P S :=
  (r.withBook key fun b => (b.dropBuffer, ())).1.reportHealth rd cx key false

/-- The books whose buffers `enforce_buffer_budget` drops, in order. -/
def overflowed (rd : Render P S) (cx : Ctx P S) : Nat → Run P S → List PriceBookKey
  | 0, _ => []
  | n + 1, r =>
    if r.proc.bufferedTotal > MAX_BUFFERED_DELTAS_ACROSS_BOOKS then
      match overBudget cx r.proc with
      | none => []
      | some key => key :: overflowed rd cx n (dropLargest rd cx r key)
    else []

/-- The loop drops these, one after the other. -/
theorem enforceBufferBudget_eq : ∀ (n : Nat) (r : Run P S),
    Run.enforceBufferBudget rd cx n r = (overflowed rd cx n r).foldl (dropLargest rd cx) r
  | 0, _ => rfl
  | n + 1, r => by
    unfold Run.enforceBufferBudget overflowed
    split
    · have hround : (Run.largestBuffer r.proc cx.order fun k => k.publisher = cx.publisher).or
          (Run.largestBuffer r.proc cx.order fun _ => true) = overBudget cx r.proc := rfl
      rw [hround]
      cases overBudget cx r.proc with
      | none => rfl
      | some key => exact enforceBufferBudget_eq n (dropLargest rd cx r key)
    · rfl

def bufferOf (p : MbpProcessor) (key : PriceBookKey) : Nat := (p.books.get key).elim 0 PriceBook.bufferedLen

theorem foldl_largest_mem (len : PriceBookKey → Nat) : ∀ (ks : List PriceBookKey) (best : Option PriceBookKey) (k : PriceBookKey),
    ks.foldl (fun best k => match best with
      | none => some k
      | some k' => if len k' ≤ len k then some k else some k') best = some k → k ∈ ks ∨ best = some k
  | [], _, _, h => .inr h
  | k :: ks, best, key, h => by
    rcases foldl_largest_mem len ks _ key h with hin | heq
    · exact .inl (List.mem_cons_of_mem k hin)
    · cases best with
      | none =>
        cases heq
        exact .inl List.mem_cons_self
      | some k' =>
        simp only at heq
        split at heq
        · cases heq
          exact .inl List.mem_cons_self
        · exact .inr heq

theorem foldl_largest_isSome (len : PriceBookKey → Nat) : ∀ (ks : List PriceBookKey) (best : Option PriceBookKey),
    ks ≠ [] ∨ best.isSome → (ks.foldl (fun best k => match best with
      | none => some k
      | some k' => if len k' ≤ len k then some k else some k') best).isSome
  | [], _, h => h.resolve_left (· rfl)
  | k :: ks, best, _ => by
    refine foldl_largest_isSome len ks _ (.inr ?_)
    cases best with
    | none => rfl
    | some k' =>
      simp only
      split <;> rfl

/-- What is picked holds a delta, and passes the test. -/
theorem largestBuffer_some {p : MbpProcessor} {order : List PriceBookKey} {pick : PriceBookKey → Bool} {key : PriceBookKey}
    (h : Run.largestBuffer p order pick = some key) : pick key = true ∧ 0 < bufferOf p key := by
  unfold Run.largestBuffer at h
  rcases foldl_largest_mem _ _ _ _ h with hin | hnone
  · have htest := (List.mem_filter.mp hin).2
    rw [Bool.and_eq_true, decide_eq_true_iff] at htest
    exact htest
  · cases hnone

/-- Nothing is picked only where nothing that passes the test holds a delta. -/
theorem largestBuffer_none {p : MbpProcessor} {order : List PriceBookKey} {pick : PriceBookKey → Bool}
    (h : Run.largestBuffer p order pick = none) (key : PriceBookKey) (hpick : pick key = true) : bufferOf p key = 0 := by
  by_contra hne
  have hpos : 0 < bufferOf p key := Nat.pos_of_ne_zero hne
  have hin : key ∈ p.books.keys := by
    by_contra hout
    unfold bufferOf at hne
    rw [FinMap.notMem_keys_iff.mp hout] at hne
    exact hne rfl
  have hsome : (Run.largestBuffer p order pick).isSome := by
    refine foldl_largest_isSome (bufferOf p) _ none (.inl ?_)
    refine List.ne_nil_of_mem (a := key) (List.mem_filter.mpr ⟨mem_visit.mpr hin, ?_⟩)
    rw [Bool.and_eq_true, decide_eq_true_iff]
    exact ⟨hpick, hpos⟩
  rw [h] at hsome
  cases hsome

/-- **The sender pays first.**  A book of another publisher is picked only where the sender holds no buffered delta. -/
theorem overBudget_sender {p : MbpProcessor} {key : PriceBookKey} (h : overBudget cx p = some key)
    (hother : key.publisher ≠ cx.publisher) (own : PriceBookKey) (hown : own.publisher = cx.publisher) :
    bufferOf p own = 0 := by
  unfold overBudget at h
  cases hmine : Run.largestBuffer p cx.order fun k => k.publisher = cx.publisher with
  | none => exact largestBuffer_none hmine own (decide_eq_true hown)
  | some k =>
    rw [hmine] at h
    cases h
    exact absurd (of_decide_eq_true (largestBuffer_some hmine).1) hother

theorem overBudget_pos {p : MbpProcessor} {key : PriceBookKey} (h : overBudget cx p = some key) : 0 < bufferOf p key := by
  unfold overBudget at h
  rcases Option.or_eq_some_iff.mp h with hmine | ⟨-, hany⟩
  · exact (largestBuffer_some hmine).2
  · exact (largestBuffer_some hany).2

theorem overBudget_none {p : MbpProcessor} (h : overBudget cx p = none) : p.ledger.buffered = 0 := by
  unfold overBudget at h
  obtain ⟨-, hany⟩ := Option.or_eq_none_iff.mp h
  by_contra hne
  obtain ⟨key, b, hb, hpos⟩ := FinMap.sumVals_pos_iff.mp (Nat.pos_of_ne_zero hne)
  have hzero := largestBuffer_none hany key rfl
  unfold bufferOf at hzero
  rw [show p.books.get key = some b from hb] at hzero
  exact absurd hzero (Nat.pos_iff_ne_zero.mp hpos)

theorem dropLargest_kept (rd : Render P S) (cx : Ctx P S) (h : r.proc.ledger.Kept) {key : PriceBookKey} (hkey : 0 < bufferOf r.proc key) :
    (dropLargest rd cx r key).proc.ledger.Kept ∧
      (dropLargest rd cx r key).proc.bufferedTotal < r.proc.bufferedTotal := by
  unfold bufferOf at hkey
  unfold dropLargest
  cases hb : r.proc.books.get key with
  | none =>
    rw [hb] at hkey
    exact absurd hkey (Nat.lt_irrefl 0)
  | some b =>
    rw [hb] at hkey
    have hdrop : (r.withBook key fun b => (b.dropBuffer, ())).1.proc.ledger.Kept := withBook_kept h _
    have hkeys : (r.withBook key fun b => (b.dropBuffer, ())).1.proc.books.keys = r.proc.books.keys := withBook_keys _
    have hledger := withBook_ledger (fun b => (b.dropBuffer, ())) hb
    generalize r.withBook key (fun b => (b.dropBuffer, ())) = x at hdrop hkeys hledger ⊢
    refine ⟨reportHealth_kept rd cx hdrop (hkeys ▸ FinMap.mem_keys_iff.mpr ⟨b, hb⟩) false, ?_⟩
    have htotal : x.1.proc.bufferedTotal = r.proc.bufferedTotal + 0 - b.bufferedLen :=
      congrArg Ledger.bufferedTotal hledger
    have hreport : (x.1.reportHealth rd cx key false).proc.bufferedTotal = x.1.proc.bufferedTotal := by
      rcases reportHealth_ledger rd cx x.1 key false with heq | heq
      · exact congrArg Ledger.bufferedTotal heq
      · exact congrArg Ledger.bufferedTotal heq
    have hle : b.bufferedLen ≤ r.proc.bufferedTotal := by
      have hsum := FinMap.sumVals_erase r.proc.books (fun _ b => b.bufferedLen) key
      rw [hb] at hsum
      have hkept := h.total
      unfold Ledger.buffered at hkept
      have hlen : b.bufferedLen ≤ r.proc.books.sumVals fun _ b => b.bufferedLen := by
        rw [← hsum]
        exact Nat.le_add_left _ _
      exact hlen.trans (le_of_eq hkept.symm)
    have hpos : 0 < b.bufferedLen := hkey
    omega

/-- **The loop keeps the ledger and meets the budget.** -/
theorem enforceBufferBudget_kept : ∀ (n : Nat) (r : Run P S), r.proc.ledger.Kept → r.proc.bufferedTotal ≤ n →
    (Run.enforceBufferBudget rd cx n r).proc.ledger.Kept ∧
      (Run.enforceBufferBudget rd cx n r).proc.bufferedTotal ≤ MAX_BUFFERED_DELTAS_ACROSS_BOOKS
  | 0, _, h, hn => ⟨h, hn.trans (Nat.zero_le _)⟩
  | n + 1, r, h, hn => by
    rw [enforceBufferBudget_eq]
    unfold overflowed
    split
    · rename_i hover
      cases hpick : overBudget cx r.proc with
      | none =>
        have hzero := h.total.trans (overBudget_none hpick)
        have hnone : r.proc.bufferedTotal = 0 := hzero
        rw [hnone] at hover
        exact absurd hover (Nat.not_lt_zero _)
      | some key =>
        obtain ⟨hkept, hless⟩ := dropLargest_kept rd cx h (overBudget_pos hpick)
        have hrest := enforceBufferBudget_kept n _ hkept (by omega)
        rw [enforceBufferBudget_eq] at hrest
        exact hrest
    · rename_i hunder
      exact ⟨h, Nat.not_lt.mp hunder⟩

end Budget

/-! ## A call -/

section Calls

variable {P S : Type} {rd : Render P S} {cx : Ctx P S} {channel : Nat} {r : Run P S} {f : Frame P S}
  {p : MbpProcessor}

/-- **What a header does keeps the ledger**, an eviction of a publisher or a change of era among it. -/
theorem begin_kept (h : p.ledger.Kept) (header : Header) : (begin rd cx header p).1.proc.ledger.Kept := by
  unfold begin
  simp only
  have hera : ∀ r : Run P S, r.proc.ledger.Kept →
      (if cx.role.handlesMktdata = true ∧ r.proc.state.states.contains cx.publisher = true then
        if ((noteResetCount r ⟨cx.publisher, header.channelId⟩ header.resetCount).2.any
            fun c => c ≠ header.resetCount) = true then
          (noteResetCount r ⟨cx.publisher, header.channelId⟩ header.resetCount).1.onChannelReset rd cx
            header.channelId header.resetCount
        else (noteResetCount r ⟨cx.publisher, header.channelId⟩ header.resetCount).1
      else r).proc.ledger.Kept := by
    intro r hr
    split
    · have hnote := noteResetCount_kept hr ⟨cx.publisher, header.channelId⟩ header.resetCount
      split
      · exact onChannelReset_kept hnote _
      · exact hnote
    · exact hr
  have hlane : ∀ r : Run P S, r.proc.ledger.Kept →
      Ledger.Kept (if cx.role.handlesMktdata = true ∧ r.proc.lastReset.contains ⟨cx.publisher, header.channelId⟩ = true then
        { r with
          proc := { r.proc with
            batching := r.proc.batching.insert ⟨cx.publisher, header.channelId⟩
              { (r.proc.batching.get ⟨cx.publisher, header.channelId⟩).getD .new with
                sinceBoundary := min
                  (((r.proc.batching.get ⟨cx.publisher, header.channelId⟩).getD .new).sinceBoundary + 1) (2 ^ 32 - 1) } } }
      else r).proc.ledger := by
    intro r hr
    split
    · rename_i hnoted
      have hchan : (⟨cx.publisher, header.channelId⟩ : ChannelKey) ∈ r.proc.ledger.channels :=
        FinMap.mem_keys_iff.mpr (FinMap.contains_eq_true.mp hnoted.2)
      exact hr.openChannel hchan (Finset.subset_insert _ _) (Finset.Subset.refl _)
    · exact hr
  refine hlane _ (hera _ ?_)
  split
  · split
    · exact h
    · exact forgetPublisher_kept (by exact h) _
  · exact h

theorem noteBatch_ledger (chan : ChannelKey) (id : Nat) (last : Bool) :
    (r.noteBatch chan id last).proc.ledger = r.proc.ledger := modifyBatching_ledger chan _

theorem emitOne_ledger (closes : Bool) (owed : Finset Nat) (f : Frame P S) (e : Nat × List (Change P S)) :
    (f.emitOne rd cx channel closes owed e).proc.ledger = f.proc.ledger := by
  unfold Frame.emitOne
  simp only
  split
  · have hproc : (f.toRun.emitRebaseline rd cx channel e.1).1.proc = f.proc := emitRebaseline_proc _ _
    generalize f.toRun.emitRebaseline rd cx channel e.1 = x at hproc
    split
    · rw [noteBatch_ledger, hproc]
    · rw [hproc]
  · split
    · have hproc : (f.toRun.sendBook rd cx channel e.1 e.2 false closes).1.proc = f.proc := sendBook_proc _ _ _ _ _
      generalize f.toRun.sendBook rd cx channel e.1 e.2 false closes = x at hproc
      split
      · rw [noteBatch_ledger, hproc]
      · rw [hproc]
    · rfl

theorem emitRevealed_ledger (accumKeys : Finset Nat) (f : Frame P S) (id : Nat) :
    (f.emitRevealed rd cx channel accumKeys id).proc.ledger = f.proc.ledger := by
  unfold Frame.emitRevealed
  simp only
  split
  · rfl
  · have hproc : (f.toRun.emitRebaseline rd cx channel id).1.proc = f.proc := emitRebaseline_proc _ _
    generalize f.toRun.emitRebaseline rd cx channel id = x at hproc
    split
    · rw [noteBatch_ledger, hproc]
    · rw [hproc]

/-- The ledger is in step and its buffers are inside the budget. -/
def Settled (p : MbpProcessor) : Prop := p.ledger.Kept ∧ p.bufferedTotal ≤ MAX_BUFFERED_DELTAS_ACROSS_BOOKS

theorem Settled.of_ledger {p' : MbpProcessor} (h : Settled p) (heq : p'.ledger = p.ledger) : Settled p' :=
  ⟨heq ▸ h.1, (congrArg Ledger.bufferedTotal heq).trans_le h.2⟩

theorem Settled.reportTouched (h : Settled f.proc) (id : Nat) : Settled (f.reportTouched rd cx channel id).proc := by
  unfold Frame.reportTouched
  simp only
  split
  · exact h
  · rename_i b hb
    refine ⟨reportHealth_kept rd cx h.1 (FinMap.mem_keys_iff.mpr ⟨b, hb⟩) _, ?_⟩
    rcases reportHealth_ledger rd cx f.toRun (Frame.bookKey cx channel id) (b.servesABook cx.recvTsNs) with heq | heq
    · exact (congrArg Ledger.bufferedTotal heq).trans_le h.2
    · exact (congrArg Ledger.bufferedTotal heq).trans_le h.2

/-- **The end of a datagram** changes nothing but what is filed about the books. -/
theorem Settled.emitPass (h : Settled f.proc) : Settled (f.emitPass rd cx channel).proc := by
  unfold Frame.emitPass
  simp only
  generalize (!Run.batchesEvents f.proc ⟨cx.publisher, channel⟩ cx.recvTsNs) = closes
  have hlapsed : Settled (if closes = true then
      { f with toRun := f.toRun.modifyBatching ⟨cx.publisher, channel⟩ fun b => { b with slotLapsed := true } }
      else f).proc := by
    split
    · exact h.of_ledger (modifyBatching_ledger _ _)
    · exact h
  generalize (if closes = true then _ else f) = f₁ at hlapsed
  generalize (if closes = true then f₁.toRun.rebaselinesOwed rd cx channel _ else ∅) = owed
  have hsent : Settled (f₁.accum.toList.foldl (Frame.emitOne rd cx channel closes owed) f₁).proc :=
    hlapsed.of_ledger (foldl_keeps (fun f : Frame P S => f.proc.ledger) _ (emitOne_ledger closes owed) _ _)
  generalize f₁.accum.toList.foldl (Frame.emitOne rd cx channel closes owed) f₁ = f₂ at hsent
  have hrevealed : Settled ((f₂.revealedNow.sort (· ≤ ·)).foldl (Frame.emitRevealed rd cx channel f₂.accum.keys) f₂).proc :=
    hsent.of_ledger (foldl_keeps (fun f : Frame P S => f.proc.ledger) _ (emitRevealed_ledger f₂.accum.keys) _ _)
  generalize (f₂.revealedNow.sort (· ≤ ·)).foldl (Frame.emitRevealed rd cx channel f₂.accum.keys) f₂ = f₃ at hrevealed
  have hclosed : Settled (if closes = true then { f₃ with toRun := f₃.toRun.closeOpen rd cx channel owed } else f₃).proc := by
    split
    · exact hrevealed.of_ledger (closeOpen_ledger owed)
    · exact hrevealed
  generalize (if closes = true then { f₃ with toRun := f₃.toRun.closeOpen rd cx channel owed } else f₃) = f₄ at hclosed
  generalize f₄.touched.sort (· ≤ ·) = ids
  induction ids generalizing f₄ with
  | nil => exact hclosed
  | cons id ids ih => exact ih _ (hclosed.reportTouched id)

theorem messages_kept (header : Header) (fresh : Bool) : ∀ (ms : List Message) (f : Frame P S), f.proc.ledger.Kept →
    (ms.foldl (Frame.onMessage rd cx header fresh) f).proc.ledger.Kept
  | [], _, h => h
  | m :: ms, _, h => messages_kept header fresh ms _ (onMessage_kept h header fresh m)

/-- **A datagram settles the ledger.** -/
theorem Settled.onDatagram (h : Settled p) (d : Datagram) : Settled (onDatagram rd cx p d).proc := by
  unfold Mbp.onDatagram
  simp only
  have hbegin : (begin rd cx d.header p).1.proc.ledger.Kept := begin_kept h.1 d.header
  generalize begin rd cx d.header p = x at hbegin
  have happlied : (d.messages.foldl (Frame.onMessage rd cx d.header x.2) x.1).proc.ledger.Kept :=
    messages_kept d.header x.2 d.messages x.1 hbegin
  generalize d.messages.foldl (Frame.onMessage rd cx d.header x.2) x.1 = f at happlied
  have hbudget : Settled (Run.enforceBufferBudget rd cx f.proc.bufferedTotal f.toRun).proc :=
    enforceBufferBudget_kept _ _ happlied (Nat.le_refl _)
  exact Settled.emitPass (f := { f with toRun := Run.enforceBufferBudget rd cx f.proc.bufferedTotal f.toRun }) hbudget

theorem tickOne_ledger (r : Run P S) (chan : ChannelKey) : (tickOne rd cx r chan).proc.ledger = r.proc.ledger := by
  unfold tickOne
  simp only
  rw [closeOpen_ledger, modifyBatching_ledger]

/-- **A tick** changes nothing of the ledger. -/
theorem Settled.onTick (h : Settled p) (order : List ChannelKey) : Settled (onTick rd cx order p).proc :=
  h.of_ledger (foldl_keeps (fun r : Run P S => r.proc.ledger) _ tickOne_ledger _ ⟨p, []⟩)

theorem Settled.new : Settled .new := ⟨.new, Nat.zero_le _⟩

theorem settled_run (rd : Render P S) (is : List (Input P S)) : Settled (after rd is) := by
  refine Machine.invariant_rule (fun p i h => ?_) is _ .new
  cases i with
  | datagram cx d => exact Settled.onDatagram h d
  | tick cx order => exact Settled.onTick h order

end Calls

/-! ## Every run -/

section Bookkeeping

variable {P S : Type} {rd : Render P S}

/-- The maps, the queues and the total are in step. -/
structure Bookkept (p : MbpProcessor) : Prop where
  bufferedTotal : p.bufferedTotal = p.books.sumVals fun _ b => b.bufferedLen
  budget : p.bufferedTotal ≤ MAX_BUFFERED_DELTAS_ACROSS_BOOKS
  booksOrder : Lists p.booksOrder p.books.keys
  booksCap : p.booksOrder.length ≤ MAX_PRICE_BOOKS
  channelOrder : Lists p.channelOrder p.lastReset.keys
  channelCap : p.channelOrder.length ≤ MAX_CHANNEL_KEYS
  droppedOrder : Lists p.droppedOrder p.dropped.keys
  droppedCap : p.droppedOrder.length ≤ MAX_CHANNEL_KEYS
  lastBatch : p.lastBatch.keys ⊆ p.lastReset.keys
  batching : p.batching.keys ⊆ p.lastReset.keys
  healthReported : p.healthReported.keys ⊆ p.books.keys

/-- The loop over the buffers is a series of drops, each of a buffer that is not empty, and of another publisher's only
where the sender's are. -/
def SenderPaysFirst (rd : Render P S) (cx : Ctx P S) (n : Nat) (r : Run P S) : Prop :=
  Run.enforceBufferBudget rd cx n r = (overflowed rd cx n r).foldl (dropLargest rd cx) r ∧
    ∀ u key v, overflowed rd cx n r = u ++ key :: v →
      0 < bufferOf (u.foldl (dropLargest rd cx) r).proc key ∧
        (key.publisher ≠ cx.publisher → ∀ own : PriceBookKey, own.publisher = cx.publisher →
          bufferOf (u.foldl (dropLargest rd cx) r).proc own = 0)

theorem overflowed_picks {cx : Ctx P S} {key : PriceBookKey} {v : List PriceBookKey} : ∀ (n : Nat) (r : Run P S)
    (u : List PriceBookKey), overflowed rd cx n r = u ++ key :: v →
      overBudget cx (u.foldl (dropLargest rd cx) r).proc = some key
  | 0, _, u, h => by
    unfold overflowed at h
    exact absurd h.symm (List.append_ne_nil_of_right_ne_nil u (List.cons_ne_nil key v))
  | n + 1, r, u, h => by
    unfold overflowed at h
    split at h
    · split at h
      · exact absurd h.symm (List.append_ne_nil_of_right_ne_nil u (List.cons_ne_nil key v))
      · rename_i picked hpick
        cases u with
        | nil =>
          rw [List.nil_append, List.cons.injEq] at h
          exact h.1 ▸ hpick
        | cons k u =>
          rw [List.cons_append, List.cons.injEq] at h
          obtain ⟨rfl, hrest⟩ := h
          exact overflowed_picks n _ u hrest
    · exact absurd h.symm (List.append_ne_nil_of_right_ne_nil u (List.cons_ne_nil key v))

theorem senderPaysFirst (rd : Render P S) (cx : Ctx P S) (n : Nat) (r : Run P S) : SenderPaysFirst rd cx n r := by
  refine ⟨enforceBufferBudget_eq n r, fun u key v h => ?_⟩
  have hpick := overflowed_picks n r u h
  exact ⟨overBudget_pos hpick, overBudget_sender hpick⟩

/-- **The bookkeeping is exact.**  After every call of every run the queues list the keys of their maps, the maps kept
beside others have no key of their own, the caps and the budget are met and the total is what the books buffer; and the
loop that meets the budget drops no other publisher's buffer while the sender holds a delta. -/
theorem processor_bookkeeping (rd : Render P S) (is : List (Input P S)) :
    Bookkept (after rd is) ∧ ∀ cx n r, SenderPaysFirst rd cx n r := by
  refine ⟨?_, senderPaysFirst rd⟩
  obtain ⟨h, hbudget⟩ := settled_run rd is
  exact
    { bufferedTotal := h.total
      budget := hbudget
      booksOrder := h.books
      booksCap := h.books.length.trans_le h.booksCap
      channelOrder := h.channels
      channelCap := h.channels.length.trans_le h.channelsCap
      droppedOrder := h.dropped
      droppedCap := h.dropped.length.trans_le h.droppedCap
      lastBatch := h.slots
      batching := h.batching
      healthReported := h.reported }

end Bookkeeping

end EdgeConnect.Mbp
