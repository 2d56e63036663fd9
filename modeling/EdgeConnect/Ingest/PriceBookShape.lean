import EdgeConnect.Ingest.PriceBookPrefix

/-!
# What every state of a price book has in common

The representation invariant of `PriceBook`: what every sequence of its calls leaves true, whatever
their arguments.

* `Begun`, `onSnapshotBegin_begun` — everything `on_snapshot_begin` can do with a rotation, one case
  for each way it returns;
* `Shape` — what the status says about the open group, the buffer and the trackers, and the caps;
* `shape_exec` — each call restores the shape, so every reachable book has it;
* `Full` — no live or assembling level has quantity zero.  Deltas keep it, since a delta of quantity
  zero removes its level; a snapshot level of quantity zero is stored and breaks it;
* `ready_book_is_well_formed` — the shape of every reachable book, and full levels in every run no
  snapshot level of which lands with quantity zero.
-/

set_option autoImplicit false

namespace EdgeConnect.Mbp

variable {b : PriceBook}

/-! ## What a begin can do -/

/-- How many levels a rotation declares above what the book holds. -/
def PriceBook.shortfall (b : PriceBook) (totalLevels : Nat) : Nat := totalLevels - b.levelsLen % 2 ^ 32

/-- The group an accepted begin opens. -/
def PriceBook.opened (b : PriceBook)
    (snapshotId anchorSeq totalLevels lastInstrumentSeq depthBound nowNs : Nat) : Building where
  snapshotId := snapshotId
  anchorSeq := anchorSeq
  totalLevels := totalLevels
  receivedLevels := 0
  lastInstrumentSeq := lastInstrumentSeq
  depthBound := depthBound
  overLiveBook := b.servesABook nowNs
  servingSinceNs :=
    match b.open with
    | some prev => if b.servesABook nowNs then prev.servingSinceNs else nowNs
    | none => nowNs
  bids := ∅
  asks := ∅

/-- Refused before the book is consulted: by a reset's anchor or by the level cap. -/
def PriceBook.refuses (b : PriceBook) (anchorSeq totalLevels : Nat) : Prop :=
  (∃ s, b.requiredAnchorSeq = some s ∧ anchorSeq < s) ∨ totalLevels > MAX_LEVELS_PER_BOOK

/-- Declined for being captured no later than the deltas applied. -/
def PriceBook.isPast (b : PriceBook) (lastInstrumentSeq : Nat) : Prop :=
  b.status = .ready ∧ lastInstrumentSeq ≤ b.lastAppliedInstrumentSeq

/-- Everything `on_snapshot_begin` can do with one rotation. -/
inductive Begun (b : PriceBook) (id anchor total last depth now : Nat) :
    PriceBook × BeginOutcome → Prop where
  | refused (h : b.refuses anchor total) : Begun b id anchor total last depth now (b, .declined none)
  | bounded (hcap : ¬ b.refuses anchor total) (h : b.isPast last) (hdepth : depth ≠ 0) :
    Begun b id anchor total last depth now (b, .declined none)
  | agrees (hcap : ¬ b.refuses anchor total) (h : b.isPast last) (hdepth : depth = 0)
      (hw : reanchorWarranted (b.shortfall total) total = false) :
    Begun b id anchor total last depth now
      ({ b with shortStrike := none }, .declined (some (b.shortfall total)))
  | strikes (hcap : ¬ b.refuses anchor total) (h : b.isPast last) (hdepth : depth = 0)
      (hw : reanchorWarranted (b.shortfall total) total = true) :
    Begun b id anchor total last depth now
      ({ b with shortStrike := some (b.shortStrike.getD id) },
        .declined (some (b.shortfall total)))
  | resyncs (hcap : ¬ b.refuses anchor total) (h : b.isPast last) (hdepth : depth = 0)
      (hw : reanchorWarranted (b.shortfall total) total = true)
      (hconfirmed : ∃ first, b.shortStrike = some first ∧ first ≠ id)
      (hallowed : b.reanchorAllowed now = true) :
    Begun b id anchor total last depth now (b.forceResync now, .resynced (b.shortfall total))
  | repeats (hcap : ¬ b.refuses anchor total) (h : ¬ b.isPast last)
      (hopen : ∃ g, b.open = some g ∧ g.repeats id anchor total last depth = true) :
    Begun b id anchor total last depth now (b, .declined none)
  | opens (hcap : ¬ b.refuses anchor total) (h : ¬ b.isPast last) :
    Begun b id anchor total last depth now
      ({ b with
          «open» := some (b.opened id anchor total last depth now),
          status := .buildingSnapshot }, .accepted)

theorem onSnapshotBegin_begun (b : PriceBook) (id anchor total last depth now : Nat) :
    Begun b id anchor total last depth now
      (b.onSnapshotBegin id anchor total last depth now) := by
  have hrefuses : (b.requiredAnchorSeq.any (fun s => decide (anchor < s)) ∨
      total > MAX_LEVELS_PER_BOOK) ↔ b.refuses anchor total := by
    simp [PriceBook.refuses, Option.any_eq_true]
  unfold PriceBook.onSnapshotBegin
  by_cases hcap : b.refuses anchor total
  · rw [if_pos (hrefuses.mpr hcap)]
    exact .refused hcap
  rw [if_neg (fun h => hcap (hrefuses.mp h))]
  by_cases hpast : b.status = .ready ∧ last ≤ b.lastAppliedInstrumentSeq
  · rw [if_pos hpast]
    by_cases hdepth : depth = 0
    · rw [if_neg (by simp [hdepth])]
      simp only
      by_cases hw : reanchorWarranted (b.shortfall total) total = true
      · rw [if_neg (by simpa [PriceBook.shortfall] using hw)]
        split
        · rename_i hc
          simp only [Bool.and_eq_true, Option.any_eq_true, bne_iff_ne] at hc
          exact .resyncs hcap hpast hdepth hw hc.1 hc.2
        · exact .strikes hcap hpast hdepth hw
      · rw [if_pos (by simpa [PriceBook.shortfall] using hw)]
        exact .agrees hcap hpast hdepth (by simpa using hw)
    · rw [if_pos hdepth]
      exact .bounded hcap hpast hdepth
  · rw [if_neg hpast]
    split
    · rename_i hrep
      exact .repeats hcap hpast (by simpa [Option.any_eq_true] using hrep)
    · exact .opens hcap hpast

/-! ## What deltas leave alone -/

/-- **Frame of the deltas**: the group under assembly, a reset's anchor and the re-anchor evidence are
not their business, and no delta makes a book ready or opens a group. -/
structure DeltaFrame (b b' : PriceBook) : Prop where
  group : b'.open = b.open
  required : b'.requiredAnchorSeq = b.requiredAnchorSeq
  reanchor : b'.lastReanchorNs = b.lastReanchorNs
  strike : b'.shortStrike = b.shortStrike
  status : b'.status = b.status ∨ b'.status = .gap ∨ b'.status = .awaitingSnapshot

theorem DeltaFrame.refl (b : PriceBook) : DeltaFrame b b := ⟨rfl, rfl, rfl, rfl, Or.inl rfl⟩

theorem DeltaFrame.trans {b₁ b₂ b₃ : PriceBook} (h : DeltaFrame b₁ b₂) (h' : DeltaFrame b₂ b₃) : DeltaFrame b₁ b₃ where
  group := h'.group.trans h.group
  required := h'.required.trans h.required
  reanchor := h'.reanchor.trans h.reanchor
  strike := h'.strike.trans h.strike
  status := by
    rcases h'.status with hs | hs
    · rw [hs]
      exact h.status
    · exact Or.inr hs

theorem DeltaFrame.ready {b' : PriceBook} (h : DeltaFrame b b') (hr : b'.status = .ready) :
    b.status = .ready := by
  rcases h.status with hs | hs | hs
  · rw [← hs]
    exact hr
  · rw [hs] at hr
    cases hr
  · rw [hs] at hr
    cases hr

theorem buffer_frame (b : PriceBook) (op : DeltaOp) : DeltaFrame b (b.buffer op).1 := by
  unfold PriceBook.buffer
  split
  · exact ⟨rfl, rfl, rfl, rfl, Or.inl rfl⟩
  · exact ⟨rfl, rfl, rfl, rfl, Or.inr (Or.inl rfl)⟩

theorem bufferAll_frame : ∀ (ops : List DeltaOp) (b : PriceBook), DeltaFrame b (b.bufferAll ops)
  | [], b => .refl b
  | op :: ops, b => (buffer_frame b op).trans (bufferAll_frame ops _)

theorem apply_frame (b : PriceBook) (op : DeltaOp) (removed : List (UInt8 × Int)) :
    DeltaFrame b (b.apply op removed).1 := by
  rcases apply_cases b op removed with he | ⟨r, d, he⟩ <;> rw [he]
  · exact ⟨rfl, rfl, rfl, rfl, Or.inr (Or.inr rfl)⟩
  · exact ⟨rfl, rfl, rfl, rfl, Or.inl rfl⟩

theorem replayOps_frame : ∀ (ops : List DeltaOp) (b : PriceBook), DeltaFrame b (b.replayOps ops)
  | [], b => .refl b
  | op :: ops, b => by
    unfold PriceBook.replayOps
    split
    · exact replayOps_frame ops b
    · split
      · have hgap : DeltaFrame b { b with status := .gap } := ⟨rfl, rfl, rfl, rfl, Or.inr (Or.inl rfl)⟩
        exact (hgap.trans (buffer_frame _ op)).trans (bufferAll_frame ops _)
      · have h := apply_frame b op []
        split
        · rename_i b' r he
          rw [he] at h
          exact h
        · rename_i b' r out hne he
          rw [he] at h
          exact h.trans (replayOps_frame ops b')

theorem onDelta_frame (b : PriceBook) (op : DeltaOp) : DeltaFrame b (b.onDelta op).1 := by
  unfold PriceBook.onDelta
  split
  · exact buffer_frame b op
  · split
    · exact .refl b
    · split
      · exact ⟨rfl, rfl, rfl, rfl, Or.inr (Or.inl rfl)⟩
      · exact apply_frame b op []

/-! ## The shape of a book -/

/-- What the status of a book says about the rest of it, and the caps. -/
structure Shape (b : PriceBook) : Prop where
  ready : b.status = .ready →
    b.open = none ∧ b.pending = [] ∧ b.requiredAnchorSeq = none ∧ b.depthBound ≠ none
  building : b.status = .buildingSnapshot → b.open ≠ none
  counted : ∀ g, b.open = some g → g.receivedLevels = g.len ∧ g.len ≤ MAX_LEVELS_PER_BOOK
  levels : b.levelsLen ≤ MAX_LEVELS_PER_BOOK
  buffered : b.bufferedLen ≤ MAX_BUFFERED_DELTAS

/-- A book in recovery with no group newly opened owes only the caps. -/
theorem Shape.of_idle {b' : PriceBook} (h : Shape b) (hr : b'.status ≠ .ready)
    (hb : b'.status ≠ .buildingSnapshot) (ho : ∀ g, b'.open = some g → b.open = some g)
    (hl : b'.levelsLen ≤ MAX_LEVELS_PER_BOOK) (hp : b'.bufferedLen ≤ MAX_BUFFERED_DELTAS) :
    Shape b' where
  ready := fun hs => absurd hs hr
  building := fun hs => absurd hs hb
  counted := fun g hg => h.counted g (ho g hg)
  levels := hl
  buffered := hp

theorem Shape.new : Shape PriceBook.new where
  ready := nofun
  building := nofun
  counted := nofun
  levels := Nat.zero_le _
  buffered := Nat.zero_le _

/-! ### Deltas -/

/-- A buffered delta leaves the status alone, or the buffer overflows into `Gap`. -/
theorem Shape.buffer (h : Shape b) (hs : b.status ≠ .ready) (op : DeltaOp) :
    Shape (b.buffer op).1 ∧ (b.buffer op).1.status ≠ .ready := by
  unfold PriceBook.buffer
  split
  · rename_i hlen
    refine ⟨⟨fun hr => absurd hr hs, h.building, h.counted, h.levels, ?_⟩, hs⟩
    simp only [PriceBook.bufferedLen, List.length_append, List.length_singleton]
    omega
  · refine ⟨h.of_idle (by simp) (by simp) (fun g hg => hg) h.levels ?_, by simp⟩
    simp [PriceBook.bufferedLen]

theorem Shape.bufferAll : ∀ (ops : List DeltaOp) {b : PriceBook}, Shape b → b.status ≠ .ready →
    Shape (b.bufferAll ops)
  | [], _, h, _ => h
  | op :: ops, b, h, hs => by
    obtain ⟨h', hs'⟩ := h.buffer hs op
    exact Shape.bufferAll ops h' hs'

/-- A level set at one price is at most one level more, and none where the price was held. -/
theorem size_setLevel_le (levels : Levels) (price : Int) (qty : Nat) (count : Option Nat)
    (flags : UInt8) :
    (setLevel levels price qty count flags).size ≤ levels.size + 1 ∧
    (levels.contains price = true ∨ qty = 0 →
      (setLevel levels price qty count flags).size ≤ levels.size) := by
  unfold setLevel
  by_cases hq : qty = 0
  · rw [if_pos hq, FinMap.size_erase]
    split <;> omega
  · rw [if_neg hq, FinMap.size_insert]
    cases hc : levels.contains price <;> simp [hq]

/-- A level delta adds a level only below the cap, and a clear adds none. -/
theorem levelsLen_apply_le (h : b.levelsLen ≤ MAX_LEVELS_PER_BOOK) (op : DeltaOp)
    (removed : List (UInt8 × Int)) : (b.apply op removed).1.levelsLen ≤ MAX_LEVELS_PER_BOOK := by
  obtain ⟨seq, mktdataSeq, ts, delta⟩ := op
  simp only [PriceBook.levelsLen] at h
  cases delta with
  | level side price qty count flags action =>
    obtain ⟨hbid, hbid'⟩ := size_setLevel_le b.bids price qty count flags
    obtain ⟨hask, hask'⟩ := size_setLevel_le b.asks price qty count flags
    unfold PriceBook.apply
    simp only
    by_cases hs : side = SIDE_ASK
    · simp only [if_pos hs]
      split
      · exact Nat.zero_le _
      · rename_i hcap
        show b.bids.size + (setLevel b.asks price qty count flags).size ≤ _
        by_cases hin : b.asks.contains price = true ∨ qty = 0
        · have := hask' hin
          omega
        · simp only [not_or, Bool.not_eq_true] at hin
          have : ¬ b.bids.size + b.asks.size ≥ MAX_LEVELS_PER_BOOK :=
            fun hge => hcap ⟨hin.1, hin.2, hge⟩
          omega
    · simp only [if_neg hs]
      split
      · exact Nat.zero_le _
      · rename_i hcap
        show (setLevel b.bids price qty count flags).size + b.asks.size ≤ _
        by_cases hin : b.bids.contains price = true ∨ qty = 0
        · have := hbid' hin
          omega
        · simp only [not_or, Bool.not_eq_true] at hin
          have : ¬ b.bids.size + b.asks.size ≥ MAX_LEVELS_PER_BOOK :=
            fun hge => hcap ⟨hin.1, hin.2, hge⟩
          omega
  | clear clearSide scope fromPrice =>
    have hbids := b.bids.size_filter_le fun p _ => survivesClear SIDE_BID scope fromPrice p
    have hasks := b.asks.size_filter_le fun p _ => survivesClear SIDE_ASK scope fromPrice p
    unfold PriceBook.apply
    simp only [PriceBook.advance, clearSideLevels]
    split
    · simpa [PriceBook.levelsLen] using h
    · split <;> split <;> simp only [PriceBook.levelsLen] <;> omega

/-- An in-sequence delta on a ready book keeps the shape; without an overflow it stays ready. -/
theorem Shape.apply (h : Shape b) (hr : b.status = .ready) (op : DeltaOp)
    (removed : List (UInt8 × Int)) :
    Shape (b.apply op removed).1 ∧
      ((b.apply op removed).2.2 ≠ .overflow → (b.apply op removed).1.status = .ready) := by
  have hcap := levelsLen_apply_le h.levels op removed
  rcases apply_cases b op removed with he | ⟨r, d, he⟩ <;> rw [he] at hcap ⊢
  · refine ⟨h.of_idle (by simp [PriceBook.overflow]) (by simp [PriceBook.overflow])
      (fun g hg => hg) hcap (Nat.zero_le _), fun hne => absurd rfl hne⟩
  · exact ⟨⟨fun _ => h.ready hr, fun hb => h.building hb, h.counted, hcap, h.buffered⟩,
      fun _ => hr⟩

theorem Shape.replayOps : ∀ (ops : List DeltaOp) {b : PriceBook}, Shape b → b.status = .ready →
    Shape (b.replayOps ops)
  | [], _, h, _ => h
  | op :: ops, b, h, hr => by
    unfold PriceBook.replayOps
    split
    · exact Shape.replayOps ops h hr
    · split
      · have hgap : Shape { b with status := .gap } :=
          h.of_idle (by simp) (by simp) (fun g hg => hg) h.levels h.buffered
        obtain ⟨h', hs'⟩ := hgap.buffer (by simp) op
        exact Shape.bufferAll ops h' hs'
      · obtain ⟨h', hr'⟩ := h.apply hr op []
        split
        · rename_i b' r he
          rw [he] at h'
          exact h'
        · rename_i b' r out hne he
          rw [he] at h' hr'
          exact Shape.replayOps ops h' (hr' fun ho => hne (by rw [← ho]))

theorem Shape.onDelta (h : Shape b) (op : DeltaOp) : Shape (b.onDelta op).1 := by
  unfold PriceBook.onDelta
  split
  · rename_i hs
    exact (h.buffer hs op).1
  · rename_i hs
    simp only [ne_eq, Decidable.not_not] at hs
    split
    · exact h
    · split
      · refine h.of_idle (by simp) (by simp) (fun g hg => hg) h.levels ?_
        simp [PriceBook.bufferedLen, MAX_BUFFERED_DELTAS]
      · exact (h.apply hs op []).1

/-! ### Snapshots and resets -/

theorem Shape.onSnapshotBegin (h : Shape b) (id anchor total last depth now : Nat) :
    Shape (b.onSnapshotBegin id anchor total last depth now).1 := by
  have hbegun := onSnapshotBegin_begun b id anchor total last depth now
  generalize b.onSnapshotBegin id anchor total last depth now = r at hbegun ⊢
  cases hbegun with
  | refused | bounded | repeats => exact h
  | agrees | strikes => exact ⟨h.ready, h.building, h.counted, h.levels, h.buffered⟩
  | resyncs => exact h.of_idle nofun nofun (fun g hg => hg) (Nat.zero_le _) h.buffered
  | opens =>
    refine ⟨nofun, nofun, fun g hg => ?_, h.levels, h.buffered⟩
    simp only [Option.some.injEq] at hg
    subst hg
    simp [PriceBook.opened, Building.len]

/-- A level of the group under assembly is counted exactly when its price is new to its side. -/
theorem Shape.onSnapshotLevel (h : Shape b) (id : Nat) (side : UInt8) (price : Int) (qty : Nat)
    (count : Option Nat) (flags : UInt8) :
    Shape (b.onSnapshotLevel id side price qty count flags) := by
  unfold PriceBook.onSnapshotLevel
  split
  · exact h
  · rename_i g hopen
    split
    · exact h
    · rename_i hok
      simp only [not_or, ge_iff_le, not_le] at hok
      obtain ⟨hcount, -⟩ := h.counted g hopen
      refine ⟨fun hr => ?_, nofun, fun g' hg' => ?_, h.levels, h.buffered⟩
      · have hnone := (h.ready hr).1
        rw [hopen] at hnone
        cases hnone
      · simp only [Option.some.injEq] at hg'
        subst hg'
        split <;> simp only [Building.len, FinMap.size_insert] at hcount hok ⊢ <;> split <;> omega

theorem Shape.onSnapshotEnd (h : Shape b) (anchor id : Nat) :
    Shape (b.onSnapshotEnd anchor id).1 := by
  unfold PriceBook.onSnapshotEnd
  split
  · exact h
  · rename_i g hopen
    split
    · exact h.of_idle (by simp) (by simp) nofun (Nat.zero_le _) h.buffered
    · refine Shape.replayOps _ ⟨?_, ?_, ?_, (h.counted g hopen).2, Nat.zero_le _⟩ rfl
      · simp
      · simp
      · simp

theorem Shape.onInstrumentReset (h : Shape b) (s : Nat) : Shape (b.onInstrumentReset s) := by
  unfold PriceBook.onInstrumentReset
  refine ⟨fun hr => ?_, fun hb => ?_, fun g hg => ?_, Nat.zero_le _, ?_⟩
  · simp only at hr
    split at hr <;> cases hr
  · simp only at hb ⊢
    split at hb
    · rename_i hk
      intro hn
      simp [hn] at hk
    · cases hb
  · simp only [Option.map_eq_some_iff, Option.filter_eq_some_iff] at hg
    obtain ⟨g', ⟨hopen, -⟩, rfl⟩ := hg
    exact h.counted g' hopen
  · exact le_trans (List.length_filter_le _ _) h.buffered

theorem Shape.step (h : Shape b) (c : Call) : Shape (step b c).1 := by
  cases c with
  | delta op => exact h.onDelta op
  | snapshotBegin id anchor total last depth now =>
    exact h.onSnapshotBegin id anchor total last depth now
  | snapshotLevel id side price qty count flags =>
    exact h.onSnapshotLevel id side price qty count flags
  | snapshotEnd anchor id => exact h.onSnapshotEnd anchor id
  | dropBuffer =>
    exact h.of_idle (by simp [Mbp.step, PriceBook.dropBuffer])
      (by simp [Mbp.step, PriceBook.dropBuffer]) (fun g hg => hg) h.levels (Nat.zero_le _)
  | instrumentReset s => exact h.onInstrumentReset s
  | endOfSession =>
    exact h.of_idle (by simp [Mbp.step, PriceBook.onEndOfSession])
      (by simp [Mbp.step, PriceBook.onEndOfSession]) (fun g hg => by cases hg) (Nat.zero_le _) (Nat.zero_le _)

/-- **Every reachable book has the shape.** -/
theorem shape_exec (calls : List Call) : Shape (machine.exec PriceBook.new calls) :=
  Machine.invariant_rule (fun _ c h => h.step c) calls _ Shape.new

/-! ## Quantities -/

/-- Every level of a side rests something. -/
def Full (levels : Levels) : Prop := ∀ price l, levels.get price = some l → l.qtyRaw ≠ 0

/-- The live sides and the group under assembly rest no empty level. -/
structure AllFull (b : PriceBook) : Prop where
  bids : Full b.bids
  asks : Full b.asks
  group : ∀ g, b.open = some g → Full g.bids ∧ Full g.asks

/-- A snapshot level of quantity zero that lands in the group under assembly. -/
def LandsEmpty (b : PriceBook) : Call → Prop
  | .snapshotLevel id _ _ qty _ _ =>
    qty = 0 ∧ ∃ g, b.open = some g ∧ g.snapshotId = id ∧ g.len < MAX_LEVELS_PER_BOOK
  | _ => False

theorem full_empty : Full ∅ := by
  intro price l hl
  cases hl

theorem Full.insert {levels : Levels} (h : Full levels) (price : Int) {l : LevelState}
    (hl : l.qtyRaw ≠ 0) : Full (levels.insert price l) := by
  intro p l' hp
  rw [FinMap.get_insert] at hp
  split at hp
  · cases hp
    exact hl
  · exact h p l' hp

theorem Full.erase {levels : Levels} (h : Full levels) (price : Int) : Full (levels.erase price) := by
  intro p l hp
  rw [FinMap.get_erase] at hp
  split at hp
  · cases hp
  · exact h p l hp

theorem Full.filter {levels : Levels} (h : Full levels) (keep : Int → LevelState → Bool) :
    Full (levels.filter keep) := by
  intro p l hp
  rw [FinMap.get_filter, Option.filter_eq_some_iff] at hp
  exact h p l hp.1

theorem Full.setLevel {levels : Levels} (h : Full levels) (price : Int) (qty : Nat)
    (count : Option Nat) (flags : UInt8) : Full (setLevel levels price qty count flags) := by
  unfold Mbp.setLevel
  split
  · exact h.erase price
  · rename_i hq
    exact h.insert price hq

/-- Quantity zero is a removal in every delta, so no delta rests an empty level. -/
theorem Full.on {s : Sides} (hb : Full s.bids) (ha : Full s.asks) (d : BookDelta) :
    Full (s.on d).bids ∧ Full (s.on d).asks := by
  cases d with
  | level side price qty count flags action =>
    simp only [Sides.on]
    split
    · exact ⟨hb, ha.setLevel price qty count flags⟩
    · exact ⟨hb.setLevel price qty count flags, ha⟩
  | clear clearSide scope fromPrice =>
    simp only [Sides.on]
    split
    · exact ⟨hb, ha⟩
    · constructor
      · simp only
        split
        · exact hb.filter _
        · exact hb
      · simp only
        split
        · exact ha.filter _
        · exact ha

theorem AllFull.of_frame {b' : PriceBook} (h : AllFull b) (hf : DeltaFrame b b') (hb : Full b'.bids)
    (ha : Full b'.asks) : AllFull b' := by
  refine ⟨hb, ha, fun g hg => ?_⟩
  rw [hf.group] at hg
  exact h.group g hg

theorem AllFull.buffer (h : AllFull b) (op : DeltaOp) : AllFull (b.buffer op).1 := by
  unfold PriceBook.buffer
  split <;> exact ⟨h.bids, h.asks, h.group⟩

theorem AllFull.bufferAll : ∀ (ops : List DeltaOp) {b : PriceBook}, AllFull b →
    AllFull (b.bufferAll ops)
  | [], _, h => h
  | op :: ops, _, h => AllFull.bufferAll ops (h.buffer op)

theorem AllFull.apply (h : AllFull b) (op : DeltaOp) (removed : List (UInt8 × Int)) :
    AllFull (b.apply op removed).1 := by
  have hf := apply_frame b op removed
  rcases apply_cases b op removed with he | ⟨r, d, he⟩ <;> rw [he] at hf ⊢
  · exact h.of_frame hf full_empty full_empty
  · obtain ⟨hb, ha⟩ := Full.on (s := b.sides) h.bids h.asks op.delta
    exact h.of_frame hf hb ha

theorem AllFull.replayOps : ∀ (ops : List DeltaOp) {b : PriceBook}, AllFull b →
    AllFull (b.replayOps ops)
  | [], _, h => h
  | op :: ops, b, h => by
    unfold PriceBook.replayOps
    split
    · exact AllFull.replayOps ops h
    · split
      · have hgap : AllFull { b with status := .gap } := ⟨h.bids, h.asks, h.group⟩
        exact AllFull.bufferAll ops (hgap.buffer op)
      · have h' := h.apply op []
        split
        · rename_i b' r he
          rw [he] at h'
          exact h'
        · rename_i b' r out hne he
          rw [he] at h'
          exact AllFull.replayOps ops h'

theorem AllFull.onDelta (h : AllFull b) (op : DeltaOp) : AllFull (b.onDelta op).1 := by
  unfold PriceBook.onDelta
  split
  · exact h.buffer op
  · split
    · exact h
    · split
      · exact ⟨h.bids, h.asks, h.group⟩
      · exact h.apply op []

theorem AllFull.onSnapshotBegin (h : AllFull b) (id anchor total last depth now : Nat) :
    AllFull (b.onSnapshotBegin id anchor total last depth now).1 := by
  have hbegun := onSnapshotBegin_begun b id anchor total last depth now
  generalize b.onSnapshotBegin id anchor total last depth now = r at hbegun ⊢
  cases hbegun with
  | refused | bounded | repeats => exact h
  | agrees | strikes => exact ⟨h.bids, h.asks, h.group⟩
  | resyncs => exact ⟨full_empty, full_empty, h.group⟩
  | opens =>
    refine ⟨h.bids, h.asks, fun g hg => ?_⟩
    simp only [Option.some.injEq] at hg
    subst hg
    exact ⟨full_empty, full_empty⟩

theorem AllFull.onSnapshotLevel (h : AllFull b) (id : Nat) (side : UInt8) (price : Int) (qty : Nat)
    (count : Option Nat) (flags : UInt8)
    (hok : ¬ LandsEmpty b (.snapshotLevel id side price qty count flags)) :
    AllFull (b.onSnapshotLevel id side price qty count flags) := by
  unfold PriceBook.onSnapshotLevel
  split
  · exact h
  · rename_i g hopen
    split
    · exact h
    · rename_i hin
      simp only [not_or, ne_eq, Decidable.not_not, ge_iff_le, not_le] at hin
      have hq : qty ≠ 0 := fun hq => hok ⟨hq, g, hopen, hin.1, hin.2⟩
      obtain ⟨hbids, hasks⟩ := h.group g hopen
      refine ⟨h.bids, h.asks, fun g' hg' => ?_⟩
      simp only [Option.some.injEq] at hg'
      subst hg'
      split
      · exact ⟨hbids, hasks.insert price hq⟩
      · exact ⟨hbids.insert price hq, hasks⟩

theorem AllFull.onSnapshotEnd (h : AllFull b) (anchor id : Nat) :
    AllFull (b.onSnapshotEnd anchor id).1 := by
  unfold PriceBook.onSnapshotEnd
  split
  · exact h
  · rename_i g hopen
    split
    · exact ⟨full_empty, full_empty, nofun⟩
    · obtain ⟨hbids, hasks⟩ := h.group g hopen
      exact AllFull.replayOps _ ⟨hbids, hasks, nofun⟩

theorem AllFull.onInstrumentReset (h : AllFull b) (s : Nat) : AllFull (b.onInstrumentReset s) := by
  refine ⟨full_empty, full_empty, fun g hg => ?_⟩
  simp only [PriceBook.onInstrumentReset, Option.map_eq_some_iff, Option.filter_eq_some_iff] at hg
  obtain ⟨g', ⟨hopen, -⟩, rfl⟩ := hg
  exact h.group g' hopen

theorem AllFull.step (h : AllFull b) {c : Call} (hok : ¬ LandsEmpty b c) : AllFull (step b c).1 := by
  cases c with
  | delta op => exact h.onDelta op
  | snapshotBegin id anchor total last depth now =>
    exact h.onSnapshotBegin id anchor total last depth now
  | snapshotLevel id side price qty count flags =>
    exact h.onSnapshotLevel id side price qty count flags hok
  | snapshotEnd anchor id => exact h.onSnapshotEnd anchor id
  | dropBuffer => exact ⟨h.bids, h.asks, h.group⟩
  | instrumentReset s => exact h.onInstrumentReset s
  | endOfSession => exact ⟨full_empty, full_empty, nofun⟩

/-! ## Every run -/

/-- **The representation invariant.** Every reachable book has the shape its status announces and stays
inside its caps; in a run no snapshot level of which lands with quantity zero, no level rests empty. -/
theorem ready_book_is_well_formed (calls : List Call) :
    Shape (machine.exec PriceBook.new calls) ∧
    (machine.Along (fun b c => ¬ LandsEmpty b c) PriceBook.new calls →
      (machine.exec PriceBook.new calls).status = .ready →
      ∀ price l, (machine.exec PriceBook.new calls).bids.get price = some l ∨
        (machine.exec PriceBook.new calls).asks.get price = some l → l.qtyRaw ≠ 0) := by
  refine ⟨shape_exec calls, fun hok _ price l hl => ?_⟩
  have hfull : AllFull (machine.exec PriceBook.new calls) :=
    Machine.along_rule (fun _ _ hc h => h.step hc) calls _ hok ⟨full_empty, full_empty, nofun⟩
  rcases hl with hl | hl
  · exact hfull.bids price l hl
  · exact hfull.asks price l hl

/-- A group whose one level carries quantity `qty`. -/
def oneLevelCalls (qty : Nat) : List Call :=
  [.snapshotBegin 7 11 1 1 0 5, .snapshotLevel 7 SIDE_BID 6200 qty (some 1) 0, .snapshotEnd 11 7]

theorem ready_book_is_well_formed_oneLevel :
    (machine.exec PriceBook.new (oneLevelCalls 150)).status = .ready ∧
    ∀ price l, (machine.exec PriceBook.new (oneLevelCalls 150)).bids.get price = some l ∨
      (machine.exec PriceBook.new (oneLevelCalls 150)).asks.get price = some l → l.qtyRaw ≠ 0 := by
  have hready : (machine.exec PriceBook.new (oneLevelCalls 150)).status = .ready := by decide
  have hok : machine.Along (fun b c => ¬ LandsEmpty b c) PriceBook.new (oneLevelCalls 150) :=
    ⟨id, fun h => absurd h.1 (by decide), id, trivial⟩
  exact ⟨hready, (ready_book_is_well_formed (oneLevelCalls 150)).2 hok hready⟩

/-- **A ready book with an empty level**: the snapshot level of quantity zero is installed. -/
theorem ready_book_rests_an_empty_level :
    (machine.exec PriceBook.new (oneLevelCalls 0)).status = .ready ∧
    ∃ l, (machine.exec PriceBook.new (oneLevelCalls 0)).bids.get 6200 = some l ∧ l.qtyRaw = 0 := by
  refine ⟨by decide, ⟨0, some 1, 0⟩, by decide, rfl⟩

end EdgeConnect.Mbp
