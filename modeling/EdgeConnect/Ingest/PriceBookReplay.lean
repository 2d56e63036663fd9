import EdgeConnect.Ingest.PriceBookShape
import EdgeConnect.Lib.Sequenced

/-!
# What an install does with the buffered deltas

`on_snapshot_end` installs the group and replays the buffered deltas past its anchor, in market-data
order.  Each of them is applied, skipped as already covered, or buffered again behind the first gap.

* `Sides.refuses`, `apply_overflow_iff` — when a delta runs into the level cap;
* `Replayed` — a walk of the deltas from the group's sequence, what it applied on the group's sides, and
  what is left buffered; `Overflowed` — the walk met the level cap;
* `replayOps_cases` — the replay loop does one or the other;
* `install_loses_no_delta` — the law for the installing end of every run.
-/

set_option autoImplicit false

namespace EdgeConnect.Mbp

open Sequenced

variable {b : PriceBook}

/-! ## The level cap -/

/-- A delta that would add a level to a book at the cap. -/
def Sides.refuses (s : Sides) : BookDelta → Prop
  | .level side price qty _ _ _ =>
    (if side = SIDE_ASK then s.asks.contains price else s.bids.contains price) = false ∧ qty ≠ 0 ∧
      s.size ≥ MAX_LEVELS_PER_BOOK
  | .clear .. => False

theorem apply_overflow_iff (b : PriceBook) (op : DeltaOp) (removed : List (UInt8 × Int)) :
    (b.apply op removed).2.2 = .overflow ↔ b.sides.refuses op.delta := by
  obtain ⟨seq, mktdataSeq, ts, delta⟩ := op
  cases delta with
  | level side price qty count flags action =>
    unfold PriceBook.apply
    simp only [Sides.refuses, PriceBook.sides, Sides.size]
    by_cases hs : side = SIDE_ASK
    · simp only [if_pos hs]
      split
      · rename_i h
        simpa using h
      · rename_i h
        simpa using h
    · simp only [if_neg hs]
      split
      · rename_i h
        simpa using h
      · rename_i h
        simpa using h
  | clear clearSide scope fromPrice =>
    unfold PriceBook.apply
    simp only [Sides.refuses, iff_false]
    split
    · simp
    · split <;> split <;> simp

/-! ## The replay loop -/

/-- The sides after a list of deltas. -/
def Sides.onAll (s : Sides) (ops : List DeltaOp) : Sides := ops.foldl (fun s op => s.on op.delta) s

/-- From sequence `k` and sides `s`, the deltas were walked: the taken ones applied in order, the rest of
the list, from the first forward gap on, buffered as it stands. -/
structure Replayed (k : Nat) (s : Sides) (ops : List DeltaOp) (steps : List (DeltaOp × Bool))
    (held : List DeltaOp) (b' : PriceBook) : Prop where
  split : ops = steps.map Prod.fst ++ held
  walk : Walk DeltaOp.seq k steps b'.lastAppliedInstrumentSeq
  gap : AtGap DeltaOp.seq b'.lastAppliedInstrumentSeq held
  applied : b'.sides = s.onAll (taken steps)
  pending : b'.pending = held
  status : b'.status = if held = [] then .ready else .gap

/-- The walk came to the next delta in sequence and that one ran into the level cap. -/
structure Overflowed (k : Nat) (s : Sides) (ops : List DeltaOp) (steps : List (DeltaOp × Bool))
    (op : DeltaOp) (later : List DeltaOp) (b' : PriceBook) : Prop where
  split : ops = steps.map Prod.fst ++ op :: later
  walk : ∃ m, Walk DeltaOp.seq k steps m ∧ op.seq = m + 1
  capped : (s.onAll (taken steps)).refuses op.delta
  dropped : b'.sides = Sides.empty ∧ b'.pending = [] ∧ b'.status = .awaitingSnapshot

/-- Buffering within the cap appends. -/
theorem bufferAll_eq : ∀ (ops : List DeltaOp) (b : PriceBook),
    b.pending.length + ops.length ≤ MAX_BUFFERED_DELTAS →
    b.bufferAll ops = { b with pending := b.pending ++ ops }
  | [], b, _ => by simp [PriceBook.bufferAll]
  | op :: ops, b, hlen => by
    rw [List.length_cons] at hlen
    have hroom : b.pending.length < MAX_BUFFERED_DELTAS := by omega
    have hstep : (b.buffer op).1 = { b with pending := b.pending ++ [op] } := by
      unfold PriceBook.buffer
      rw [if_pos hroom]
    show (b.buffer op).1.bufferAll ops = _
    rw [hstep, bufferAll_eq ops _ (by simp only [List.length_append, List.length_singleton]; omega)]
    simp

theorem Replayed.skip {k : Nat} {s : Sides} {ops held : List DeltaOp}
    {steps : List (DeltaOp × Bool)} {b' : PriceBook} (h : Replayed k s ops steps held b')
    {op : DeltaOp} (hseq : op.seq ≤ k) : Replayed k s (op :: ops) ((op, false) :: steps) held b' where
  split := by rw [h.split]; rfl
  walk := .skip hseq h.walk
  gap := h.gap
  applied := h.applied
  pending := h.pending
  status := h.status

theorem Replayed.take {k : Nat} {s : Sides} {ops held : List DeltaOp} {op : DeltaOp}
    {steps : List (DeltaOp × Bool)} {b' : PriceBook}
    (h : Replayed op.seq (s.on op.delta) ops steps held b') (hseq : op.seq = k + 1) :
    Replayed k s (op :: ops) ((op, true) :: steps) held b' where
  split := by rw [h.split]; rfl
  walk := by
    have hwalk := h.walk
    rw [hseq] at hwalk
    exact .take hseq hwalk
  gap := h.gap
  applied := h.applied
  pending := h.pending
  status := h.status

theorem Overflowed.skip {k : Nat} {s : Sides} {ops later : List DeltaOp} {hit : DeltaOp}
    {steps : List (DeltaOp × Bool)} {b' : PriceBook} (h : Overflowed k s ops steps hit later b')
    {op : DeltaOp} (hseq : op.seq ≤ k) :
    Overflowed k s (op :: ops) ((op, false) :: steps) hit later b' where
  split := by rw [h.split]; rfl
  walk := by
    obtain ⟨m, hwalk, hhit⟩ := h.walk
    exact ⟨m, .skip hseq hwalk, hhit⟩
  capped := h.capped
  dropped := h.dropped

theorem Overflowed.take {k : Nat} {s : Sides} {ops later : List DeltaOp} {op hit : DeltaOp}
    {steps : List (DeltaOp × Bool)} {b' : PriceBook}
    (h : Overflowed op.seq (s.on op.delta) ops steps hit later b') (hseq : op.seq = k + 1) :
    Overflowed k s (op :: ops) ((op, true) :: steps) hit later b' where
  split := by rw [h.split]; rfl
  walk := by
    obtain ⟨m, hwalk, hhit⟩ := h.walk
    rw [hseq] at hwalk
    exact ⟨m, .take hseq hwalk, hhit⟩
  capped := h.capped
  dropped := h.dropped

/-- **The replay loop** on a ready book with an empty buffer: the list is walked to its end or to its
first gap, unless a delta runs into the level cap. -/
theorem replayOps_cases : ∀ (ops : List DeltaOp) (b : PriceBook), b.status = .ready →
    b.pending = [] → ops.length ≤ MAX_BUFFERED_DELTAS →
    (∃ steps held, Replayed b.lastAppliedInstrumentSeq b.sides ops steps held (b.replayOps ops)) ∨
    ∃ steps op later, Overflowed b.lastAppliedInstrumentSeq b.sides ops steps op later
      (b.replayOps ops)
  | [], b, hready, hpending, _ => by
    refine Or.inl ⟨[], [], rfl, .nil _, by simp [AtGap], rfl, hpending, ?_⟩
    simp [PriceBook.replayOps, hready]
  | op :: ops, b, hready, hpending, hlen => by
    rw [List.length_cons] at hlen
    unfold PriceBook.replayOps
    by_cases hold : op.seq ≤ b.lastAppliedInstrumentSeq
    · rw [if_pos hold]
      rcases replayOps_cases ops b hready hpending (by omega) with
        ⟨steps, held, h⟩ | ⟨steps, hit, later, h⟩
      · exact Or.inl ⟨_, held, h.skip hold⟩
      · exact Or.inr ⟨_, hit, later, h.skip hold⟩
    rw [if_neg hold]
    by_cases hnext : op.seq = b.lastAppliedInstrumentSeq + 1
    · rw [if_neg (by simpa using hnext)]
      have hcap := apply_overflow_iff b op []
      rcases apply_cases b op [] with he | ⟨r, d, he⟩ <;> rw [he] at hcap ⊢
      · refine Or.inr ⟨[], op, ops, rfl, ⟨_, .nil _, hnext⟩, hcap.mp rfl, ?_⟩
        exact ⟨rfl, rfl, rfl⟩
      · simp only
        have hrec := replayOps_cases ops { b.advance op.seq op.ts with
          bids := (b.sides.on op.delta).bids, asks := (b.sides.on op.delta).asks } hready hpending
          (by omega)
        rcases hrec with ⟨steps, held, h⟩ | ⟨steps, hit, later, h⟩
        · exact Or.inl ⟨_, held, h.take hnext⟩
        · exact Or.inr ⟨_, hit, later, h.take hnext⟩
    · -- a forward gap: this delta and all later ones are buffered
      rw [if_pos hnext]
      have hall : ({ b with status := .gap }.buffer op).1.bufferAll ops =
          { b with status := .gap, pending := op :: ops } := by
        show ({ b with status := .gap } : PriceBook).bufferAll (op :: ops) = _
        rw [bufferAll_eq (op :: ops) _ (by simp [hpending]; omega)]
        simp [hpending]
      rw [hall]
      refine Or.inl ⟨[], op :: ops, rfl, .nil _, ?_, rfl, rfl, rfl⟩
      intro a ha
      simp only [List.head?_cons, Option.mem_some_iff] at ha
      subst ha
      simp only
      omega

/-! ## The installing end -/

/-- The buffered deltas past an anchor, in market-data order (a stable sort). -/
def PriceBook.replayable (b : PriceBook) (anchor : Nat) : List DeltaOp :=
  (b.pending.filter fun d => decide (d.mktdataSeq > anchor)).insertionSort
    fun x y => x.mktdataSeq ≤ y.mktdataSeq

theorem length_replayable_le (b : PriceBook) (anchor : Nat) :
    (b.replayable anchor).length ≤ b.pending.length := by
  unfold PriceBook.replayable
  rw [List.length_insertionSort]
  exact List.length_filter_le _ _

/-- The book with a complete group installed and nothing replayed yet. -/
def PriceBook.install (b : PriceBook) (g : Building) : PriceBook :=
  { b with
    «open» := none, bids := g.bids, asks := g.asks,
    lastAppliedInstrumentSeq := g.lastInstrumentSeq, depthBound := some g.depthBound,
    requiredAnchorSeq := none, shortStrike := none, status := .ready, pending := [] }

/-- What `on_snapshot_end` does when it installs. -/
theorem onSnapshotEnd_installs {anchor id : Nat} (h : (b.onSnapshotEnd anchor id).2 = true) :
    ∃ g, b.open = some g ∧ g.anchorSeq = anchor ∧ g.snapshotId = id ∧
      (b.onSnapshotEnd anchor id).1 =
        (b.install g).replayOps (b.replayable g.anchorSeq) := by
  unfold PriceBook.onSnapshotEnd at h ⊢
  split at h
  · cases h
  · rename_i g hopen
    split at h
    · cases h
    · rename_i hin
      simp only [not_or, ne_eq, Decidable.not_not] at hin
      refine ⟨g, hopen, hin.2.1, hin.1, ?_⟩
      rw [if_neg (by simpa using hin)]
      rfl

/-- **No buffered delta is lost.** When an end installs a group in a reachable book, the buffered deltas
past the anchor, in market-data order, are walked from the group's sequence: each is applied as the next
one or skipped as had, up to a first gap, and from there on all are buffered as they stand; the book is
ready with an empty buffer exactly when there is no gap, and it has reached every number offered in
order.  The only other way out is the level cap. -/
theorem install_loses_no_delta (calls : List Call) (anchor id : Nat)
    (hend : ((machine.exec PriceBook.new calls).onSnapshotEnd anchor id).2 = true) :
    ∃ g, (machine.exec PriceBook.new calls).open = some g ∧ g.anchorSeq = anchor ∧
      ((∃ steps op later, Overflowed g.lastInstrumentSeq ⟨g.bids, g.asks⟩
          ((machine.exec PriceBook.new calls).replayable anchor) steps op later
          ((machine.exec PriceBook.new calls).onSnapshotEnd anchor id).1) ∨
        ∃ steps held, Replayed g.lastInstrumentSeq ⟨g.bids, g.asks⟩
          ((machine.exec PriceBook.new calls).replayable anchor) steps held
          ((machine.exec PriceBook.new calls).onSnapshotEnd anchor id).1 ∧
        ((((machine.exec PriceBook.new calls).onSnapshotEnd anchor id).1.status = .ready ∧
          ((machine.exec PriceBook.new calls).onSnapshotEnd anchor id).1.pending = []) ↔ held = []) ∧
        ∀ m, InOrder DeltaOp.seq ((machine.exec PriceBook.new calls).replayable anchor)
            g.lastInstrumentSeq m → m ≤
          ((machine.exec PriceBook.new calls).onSnapshotEnd anchor id).1.lastAppliedInstrumentSeq) := by
  have hbuffered := (shape_exec calls).buffered
  generalize machine.exec PriceBook.new calls = b at hbuffered hend ⊢
  obtain ⟨g, hopen, rfl, -, hresult⟩ := onSnapshotEnd_installs hend
  refine ⟨g, hopen, rfl, ?_⟩
  rw [hresult]
  have hlen := le_trans (length_replayable_le b g.anchorSeq) hbuffered
  generalize b.replayable g.anchorSeq = ops at hlen ⊢
  rcases replayOps_cases ops (b.install g) rfl rfl hlen with ⟨steps, held, h⟩ | ⟨steps, op, later, h⟩
  · refine Or.inr ⟨steps, held, h, ?_, fun m hm => ?_⟩
    · rw [h.status, h.pending]
      by_cases hheld : held = []
      · simp [hheld]
      · simp [hheld]
    · rw [h.split] at hm
      exact h.walk.reaches h.gap hm
  · exact Or.inl ⟨steps, op, later, h⟩

/-- Deltas buffered beside a group at sequence `1`: one it covers, a duplicated one, and two around a
lost one, delivered late first. -/
def bufferedCalls : List Call :=
  [.snapshotBegin 7 11 1 1 0 5, .snapshotLevel 7 SIDE_BID 6200 150 (some 1) 0] ++
    [(1, 10), (5, 15), (2, 12), (2, 12), (3, 13)].map fun d =>
      .delta ⟨d.1, d.2, 50, .level SIDE_BID 6200 d.2 (some 1) 0 ACTION_CHANGE⟩

theorem install_loses_no_delta_bufferedCalls :
    ((machine.exec PriceBook.new bufferedCalls).onSnapshotEnd 11 7).2 = true ∧
    ∃ g steps held, (machine.exec PriceBook.new bufferedCalls).open = some g ∧
      Replayed g.lastInstrumentSeq ⟨g.bids, g.asks⟩
        ((machine.exec PriceBook.new bufferedCalls).replayable 11) steps held
        ((machine.exec PriceBook.new bufferedCalls).onSnapshotEnd 11 7).1 ∧ held ≠ [] := by
  have hend : ((machine.exec PriceBook.new bufferedCalls).onSnapshotEnd 11 7).2 = true := by decide
  have hstatus : ((machine.exec PriceBook.new bufferedCalls).onSnapshotEnd 11 7).1.status = .gap := by
    decide
  obtain ⟨g, hopen, -, h⟩ := install_loses_no_delta bufferedCalls 11 7 hend
  refine ⟨hend, g, ?_⟩
  rcases h with ⟨steps, op, later, h⟩ | ⟨steps, held, h, hgap, -⟩
  · have hdropped := h.dropped.2.2
    rw [hstatus] at hdropped
    cases hdropped
  · refine ⟨steps, held, hopen, h, fun hheld => ?_⟩
    have hready := (hgap.mpr hheld).1
    rw [hstatus] at hready
    cases hready

end EdgeConnect.Mbp
