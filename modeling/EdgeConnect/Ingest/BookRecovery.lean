import EdgeConnect.Ingest.BookRewind
import EdgeConnect.Lib.Sequenced

/-!
# What recovery keeps and what it forgets in an order-level book

Two promises of `BookState` around a snapshot.

* A reset at `s` drops the book and awaits a snapshot anchored at `s`.  The book keeps no trace of `s`,
  so a group captured before the reset and begun after it installs
  (`stale_group_reinstates_the_book`).  `BeginsBefore` names those begins; without them no group
  anchored before `s` installs (`reset_holds_without_late_begins`).
* An install replays the buffered deltas past its anchor until one of them opens a gap.  The gap's own
  delta starts the new buffer and what came after it is gone (`deltas_after_the_gap_are_lost`).
  `KeepsAll` says that nothing came after it, and is exactly when no delta is lost
  (`replay_keeps_all_iff`).
-/

set_option autoImplicit false

namespace EdgeConnect.Mbo

variable {b : BookState}

/-! ## The reset -/

/-- A group anchored before `s` is opened. -/
def BeginsBefore (s : Nat) (b : BookState) (c : Call) : Prop :=
  ∃ id anchor total last, c = .snapshotBegin id anchor total last ∧ b.Opens anchor total ∧ anchor < s

/-- The group under assembly is anchored at or past `s`. -/
def Anchored (s : Nat) (b : BookState) : Prop := ∀ g, b.building = some g → s ≤ g.anchorSeq

theorem onDeltaReporting_building (b : BookState) (op : DeltaOp) :
    (b.onDeltaReporting op).1.building = b.building := by
  unfold BookState.onDeltaReporting
  split
  · split <;> rfl
  · exact b.applyOrRecover_building op

theorem Anchored.step {s : Nat} (h : Anchored s b) {c : Call} (hc : ¬ BeginsBefore s b c)
    (hreset : ¬ c.Resets) : Anchored s (step b c).1 := by
  cases c with
  | delta op =>
    intro g hg
    rw [show (Mbo.step b (.delta op)).1.building = b.building from
      onDeltaReporting_building b op] at hg
    exact h g hg
  | snapshotBegin id anchor total last =>
    intro g hg
    rcases onSnapshotBegin_cases b id anchor total last with he | ⟨hopens, g', -, hanchor, he⟩ <;>
      simp only [Mbo.step, he] at hg
    · cases hg
    · cases hg
      by_contra hlt
      exact hc ⟨id, anchor, total, last, rfl, hopens, by omega⟩
  | snapshotOrder id order isBid price qty =>
    intro g hg
    rcases onSnapshotOrder_cases b id order isBid price qty with
      he | ⟨g₀, g', hopen, -, hanchor, he⟩ <;> simp only [Mbo.step, he] at hg
    · exact h g hg
    · cases hg
      rw [hanchor]
      exact h g₀ hopen
  | snapshotEnd anchor id =>
    intro g hg
    rw [show (Mbo.step b (.snapshotEnd anchor id)).1.building = none from
      onSnapshotEnd_building b anchor id] at hg
    cases hg
  | instrumentReset => exact absurd trivial hreset
  | endOfSession => exact absurd trivial hreset

/-- **A reset holds when no late group is begun.** After a reset at `s`, in every run that opens no group
anchored before `s`, short of another reset or the end of the session, an end that installs closes a
group anchored at or past `s`. -/
theorem reset_holds_without_late_begins (b : BookState) (s : Nat) (calls : List Call)
    (hrun : machine.Along (fun b c => ¬ BeginsBefore s b c ∧ ¬ c.Resets) (b.onInstrumentReset s) calls)
    (anchor id : Nat)
    (hend : ((machine.exec (b.onInstrumentReset s) calls).onSnapshotEnd anchor id).2 = true) :
    ∃ g, (machine.exec (b.onInstrumentReset s) calls).building = some g ∧ g.anchorSeq = anchor ∧
      s ≤ g.anchorSeq := by
  have hanchored : Anchored s (machine.exec (b.onInstrumentReset s) calls) :=
    Machine.along_rule (fun _ _ hc h => h.step hc.1 hc.2) calls _ hrun nofun
  generalize machine.exec (b.onInstrumentReset s) calls = b' at hanchored hend ⊢
  unfold BookState.onSnapshotEnd at hend
  split at hend
  · cases hend
  · rename_i g hopen
    split at hend
    · cases hend
    · rename_i hin
      simp only [not_or, ne_eq, Decidable.not_not] at hin
      exact ⟨g, hopen, hin.2.1, hanchored g hopen⟩

/-- A group of one order, anchored at `anchor`, up to its end. -/
def oneOrderGroup (id anchor : Nat) : List Call :=
  [.snapshotBegin id anchor 1 1, .snapshotOrder id 900 true 6200 5]

theorem reset_holds_without_late_begins_oneOrderGroup :
    ((machine.exec (BookState.new.onInstrumentReset 20) (oneOrderGroup 8 20)).onSnapshotEnd 20
      8).2 = true ∧
    ∃ g, (machine.exec (BookState.new.onInstrumentReset 20) (oneOrderGroup 8 20)).building = some g ∧
      g.anchorSeq = 20 ∧ 20 ≤ g.anchorSeq := by
  have hend : ((machine.exec (BookState.new.onInstrumentReset 20) (oneOrderGroup 8 20)).onSnapshotEnd
      20 8).2 = true := by decide
  refine ⟨hend, reset_holds_without_late_begins BookState.new 20 (oneOrderGroup 8 20) ?_ 20 8 hend⟩
  refine ⟨⟨?_, id⟩, ⟨?_, id⟩, trivial⟩
  · rintro ⟨i, anchor, total, last, hc, -, hlt⟩
    simp only [Call.snapshotBegin.injEq] at hc
    omega
  · rintro ⟨i, anchor, total, last, hc, -⟩
    cases hc

/-- **A stale group reinstates the book**: captured at `11`, begun after the reset at `20` of a synced
book, it installs. -/
theorem stale_group_reinstates_the_book :
    (machine.exec BookState.new (oneOrderGroup 6 10 ++ [.snapshotEnd 10 6])).isSynced = true ∧
    ((machine.exec ((machine.exec BookState.new
      (oneOrderGroup 6 10 ++ [.snapshotEnd 10 6])).onInstrumentReset 20)
        (oneOrderGroup 7 11)).onSnapshotEnd 11 7).2 = true ∧
    ((machine.exec ((machine.exec BookState.new
      (oneOrderGroup 6 10 ++ [.snapshotEnd 10 6])).onInstrumentReset 20)
        (oneOrderGroup 7 11)).onSnapshotEnd 11 7).1.isSynced = true := by
  refine ⟨by decide, by decide, by decide⟩

/-! ## The replay -/

/-- The loop of the replay takes the book through these deltas, synced after each. -/
inductive Replays : BookState → List DeltaOp → BookState → Prop where
  | nil (b : BookState) : Replays b [] b
  | cons {b b' : BookState} {op : DeltaOp} {ops : List DeltaOp}
      (hsynced : (b.applyOrRecover op).1.state = .synced)
      (hrest : Replays (b.applyOrRecover op).1 ops b') : Replays b (op :: ops) b'

/-- The delta leaves a hole before it. -/
def OpensGap (b : BookState) (op : DeltaOp) : Prop := b.lastInstrSeq + 1 < op.seq

/-- The next delta in sequence adds a new order to a book at the cap, which drops the book. -/
def HitsCap (b : BookState) (op : DeltaOp) : Prop :=
  op.seq = b.lastInstrSeq + 1 ∧ ∃ id isBid price qty, op.kind = .add id isBid price qty ∧
    id ∉ b.removed ∧ b.orders.size ≥ MAX_ORDERS_PER_BOOK ∧ b.orders.contains id = false

/-- A delta takes a synced book out of sync exactly at a gap or at the order cap. -/
theorem applyOrRecover_recovering_iff (hs : b.state = .synced) (op : DeltaOp) :
    (b.applyOrRecover op).1.state = .recovering ↔ OpensGap b op ∨ HitsCap b op := by
  rcases b.applyOrRecover_cases op with ⟨hold, he⟩ | ⟨hgap, he⟩ | ⟨hseq, he⟩
  · rw [he]
    simp only [hs, OpensGap, HitsCap]
    constructor
    · intro h
      cases h
    · rintro (h | ⟨h, -⟩) <;> omega
  · rw [he]
    exact ⟨fun _ => Or.inl hgap, fun _ => rfl⟩
  · rw [he]
    have hnogap : ¬ OpensGap b op := by
      unfold OpensGap
      omega
    simp only [hnogap, false_or, HitsCap, hseq, true_and]
    cases hk : op.kind with
    | add id isBid price qty =>
      unfold BookState.apply
      simp only [DeltaKind.add.injEq]
      by_cases hrem : id ∈ b.removed
      · rw [if_pos (show id ∈ (b.advance op).removed from hrem)]
        simp only [BookState.advance, hs]
        constructor
        · intro h
          cases h
        · rintro ⟨_, _, _, _, ⟨rfl, -⟩, hnot, -⟩
          exact absurd hrem hnot
      · rw [if_neg (show id ∉ (b.advance op).removed from hrem)]
        by_cases hcap : b.orders.size ≥ MAX_ORDERS_PER_BOOK ∧ b.orders.contains id = false
        · rw [if_pos (show (b.advance op).orders.size ≥ MAX_ORDERS_PER_BOOK ∧
            (b.advance op).orders.contains id = false from hcap)]
          exact ⟨fun _ => ⟨id, isBid, price, qty, ⟨rfl, rfl, rfl, rfl⟩, hrem, hcap⟩, fun _ => rfl⟩
        · rw [if_neg (show ¬ ((b.advance op).orders.size ≥ MAX_ORDERS_PER_BOOK ∧
            (b.advance op).orders.contains id = false) from hcap)]
          constructor
          · intro h
            simp only [BookState.setLevels_state, BookState.advance, hs] at h
            cases h
          · rintro ⟨_, _, _, _, ⟨rfl, -⟩, -, hfull⟩
            exact absurd hfull hcap
    | cancel id =>
      unfold BookState.apply
      simp only [reduceCtorEq, false_and, exists_false, iff_false]
      split <;> simp [BookState.advance, hs]
    | execute id qty full =>
      unfold BookState.apply
      simp only [reduceCtorEq, false_and, exists_false, iff_false]
      split
      · simp [BookState.advance, hs]
      · split <;> simp [BookState.advance, hs]

theorem synced_of_ne {s : SyncState} (h : s ≠ .recovering) : s = .synced := by
  cases s
  · exact absurd rfl h
  · rfl

/-- The state after the same deltas is the same. -/
theorem Replays.det {ops : List DeltaOp} {b' b'' : BookState} (h : Replays b ops b')
    (h' : Replays b ops b'') : b' = b'' := by
  induction h with
  | nil => cases h'; rfl
  | cons _ _ ih =>
    cases h' with
    | cons _ hrest => exact ih hrest

theorem Replays.split {ops later : List DeltaOp} {b'' : BookState} :
    Replays b (ops ++ later) b'' → ∃ b', Replays b ops b' ∧ Replays b' later b'' := by
  induction ops generalizing b with
  | nil => exact fun h => ⟨b, .nil b, h⟩
  | cons op ops ih =>
    intro h
    cases h with
    | cons hsynced hrest =>
      obtain ⟨b', h', hlater⟩ := ih hrest
      exact ⟨b', .cons hsynced h', hlater⟩

theorem Replays.synced {ops : List DeltaOp} {b' : BookState} (h : Replays b ops b')
    (hs : b.state = .synced) : b'.state = .synced := by
  induction h with
  | nil => exact hs
  | cons hsynced _ ih => exact ih hsynced

/-- A delta that leaves the book synced leaves the buffer alone. -/
theorem applyOrRecover_pending {op : DeltaOp} (h : (b.applyOrRecover op).1.state = .synced) :
    (b.applyOrRecover op).1.pending = b.pending := by
  rcases b.applyOrRecover_cases op with ⟨-, he⟩ | ⟨-, he⟩ | ⟨-, he⟩ <;> rw [he] at h ⊢
  · cases h
  · exact ((b.advance op).apply_frame op.kind).pending

theorem Replays.pending {ops : List DeltaOp} {b' : BookState} (h : Replays b ops b') :
    b'.pending = b.pending := by
  induction h with
  | nil => rfl
  | cons hsynced _ ih => rw [ih, applyOrRecover_pending hsynced]

/-- The replay stops where the deltas before have taken the book and the next one drops it. -/
theorem replay_of_stop {ops later : List DeltaOp} {op : DeltaOp} {s : BookState}
    (h : Replays b ops s) (hstop : (s.applyOrRecover op).1.state = .recovering) :
    b.replay (ops ++ op :: later) = (s.applyOrRecover op).1 := by
  induction h with
  | nil =>
    rw [List.nil_append, BookState.replay, if_pos hstop]
  | cons hsynced _ ih =>
    rw [List.cons_append, BookState.replay, if_neg (by rw [hsynced]; simp)]
    exact ih hstop

/-- The replay comes to the end of its list, or a delta of the list stops it. -/
theorem replay_cases : ∀ (ops : List DeltaOp) (b : BookState),
    Replays b ops (b.replay ops) ∨
    ∃ u op v s, ops = u ++ op :: v ∧ Replays b u s ∧
      (s.applyOrRecover op).1.state = .recovering
  | [], b => Or.inl (.nil b)
  | op :: ops, b => by
    unfold BookState.replay
    by_cases hstop : (b.applyOrRecover op).1.state = .recovering
    · exact Or.inr ⟨[], op, ops, b, rfl, .nil b, hstop⟩
    · rw [if_neg hstop]
      have hsynced := synced_of_ne hstop
      rcases replay_cases ops (b.applyOrRecover op).1 with h | ⟨u, op', v, s, rfl, hu, hs⟩
      · exact Or.inl (.cons hsynced h)
      · exact Or.inr ⟨op :: u, op', v, s, rfl, .cons hsynced hu, hs⟩

/-- Each delta of the list is, once the book gets to it, the next one or one it has had, or it is still
in the buffer. -/
def NothingLost (start : BookState) (ops : List DeltaOp) (b' : BookState) : Prop :=
  ∀ u op v, ops = u ++ op :: v →
    (∃ s, Replays start u s ∧ (op.seq = s.lastInstrSeq + 1 ∨ op.seq ≤ s.lastInstrSeq)) ∨
    op ∈ b'.pending

/-- Where the deltas before have taken the book, a gap has only copies of its own delta after it, and an
add at the order cap has nothing. -/
def KeepsAll (start : BookState) (ops : List DeltaOp) : Prop :=
  ∀ u op v s, ops = u ++ op :: v → Replays start u s →
    (OpensGap s op → ∀ d ∈ v, d = op) ∧ (HitsCap s op → v = [])

/-- A delta behind the one that stops the replay is never reached. -/
theorem not_reached {ops u' : List DeltaOp} {op : DeltaOp} {s s' : BookState}
    (h : Replays b ops s) (hstop : (s.applyOrRecover op).1.state = .recovering) :
    ¬ Replays b (ops ++ op :: u') s' := by
  intro h'
  obtain ⟨s₁, h₁, hrest⟩ := h'.split
  obtain rfl := h.det h₁
  cases hrest with
  | cons hsynced _ =>
    rw [hstop] at hsynced
    cases hsynced

/-- A delta the replay passes is the next one or one it has had. -/
theorem passed_seq {op : DeltaOp} (h : (b.applyOrRecover op).1.state = .synced) :
    op.seq = b.lastInstrSeq + 1 ∨ op.seq ≤ b.lastInstrSeq := by
  rcases b.applyOrRecover_cases op with ⟨hold, -⟩ | ⟨-, he⟩ | ⟨hnext, -⟩
  · exact Or.inr hold
  · rw [he] at h
    cases h
  · exact Or.inl hnext

theorem replay_keeps_all_iff (hs : b.state = .synced) (hpending : b.pending = [])
    (ops : List DeltaOp) : NothingLost b ops (b.replay ops) ↔ KeepsAll b ops := by
  constructor
  · intro hall u op v s hsplit hu
    have hlater : ∀ d ∈ v, (s.applyOrRecover op).1.state = .recovering →
        d ∈ (s.applyOrRecover op).1.pending := by
      intro d hd hstop
      obtain ⟨v₁, v₂, rfl⟩ := List.append_of_mem hd
      rw [hsplit, replay_of_stop hu hstop] at hall
      rcases hall (u ++ op :: v₁) d v₂ (by simp) with ⟨s', hs', -⟩ | hmem
      · exact absurd hs' (not_reached hu hstop)
      · exact hmem
    have hss := hu.synced hs
    constructor
    · intro hgap d hd
      have hmem := hlater d hd ((applyOrRecover_recovering_iff hss op).mpr (Or.inl hgap))
      rcases s.applyOrRecover_cases op with ⟨hold, -⟩ | ⟨-, he⟩ | ⟨hnext, -⟩
      · unfold OpensGap at hgap
        omega
      · rw [he] at hmem
        exact List.mem_singleton.mp hmem
      · unfold OpensGap at hgap
        omega
    · intro hcap
      cases v with
      | nil => rfl
      | cons d v =>
        have hmem := hlater d List.mem_cons_self
          ((applyOrRecover_recovering_iff hss op).mpr (Or.inr hcap))
        rcases s.applyOrRecover_cases op with ⟨hold, -⟩ | ⟨hgap, -⟩ | ⟨-, he⟩
        · have := hcap.1
          omega
        · have := hcap.1
          omega
        · rw [he, ((s.advance op).apply_frame op.kind).pending] at hmem
          rw [show (s.advance op).pending = [] from hu.pending.trans hpending] at hmem
          cases hmem
  · intro hkeeps
    rcases replay_cases ops b with hthrough | ⟨u₀, op₀, v₀, s₀, rfl, hu₀, hstop⟩
    · intro u op v hsplit
      rw [hsplit] at hthrough
      obtain ⟨s, hu, hrest⟩ := hthrough.split
      cases hrest with
      | cons hsynced _ => exact Or.inl ⟨s, hu, passed_seq hsynced⟩
    · rw [replay_of_stop hu₀ hstop]
      obtain ⟨hgap₀, hcap₀⟩ := hkeeps u₀ op₀ v₀ s₀ rfl hu₀
      -- the stopping delta itself: a gap keeps it, the cap consumes it
      have hself : (op₀.seq = s₀.lastInstrSeq + 1 ∧ v₀ = []) ∨
          ((s₀.applyOrRecover op₀).1.pending = [op₀] ∧ ∀ d ∈ v₀, d = op₀) := by
        rcases (applyOrRecover_recovering_iff (hu₀.synced hs) op₀).mp hstop with hgap | hcap
        · refine Or.inr ⟨?_, hgap₀ hgap⟩
          rcases s₀.applyOrRecover_cases op₀ with ⟨hold, -⟩ | ⟨-, he⟩ | ⟨hnext, -⟩
          · unfold OpensGap at hgap
            omega
          · rw [he]
          · unfold OpensGap at hgap
            omega
        · exact Or.inl ⟨hcap.1, hcap₀ hcap⟩
      intro u op v hsplit
      rcases Sequenced.cut_cases hsplit with ⟨c, -, hv⟩ | ⟨rfl, rfl⟩ | ⟨c, hu⟩
      · have hmem : op ∈ v₀ := by rw [hv]; simp
        rcases hself with ⟨-, hnone⟩ | ⟨hpend, hcopies⟩
        · rw [hnone] at hmem
          cases hmem
        · right
          rw [hpend, hcopies op hmem]
          exact List.mem_singleton_self _
      · rcases hself with ⟨hnext, -⟩ | ⟨hpend, -⟩
        · exact Or.inl ⟨s₀, hu₀, Or.inl hnext⟩
        · right
          rw [hpend]
          exact List.mem_singleton_self _
      · rw [hu] at hu₀
        obtain ⟨s, hu', hrest⟩ := hu₀.split
        cases hrest with
        | cons hsynced _ => exact Or.inl ⟨s, hu', passed_seq hsynced⟩

/-- **When an install loses no delta.** The buffered deltas past the anchor are each applied, skipped or
buffered again exactly when nothing but copies of it follows the delta that opens a gap, and nothing
an add at the order cap. -/
theorem install_loses_nothing_iff (b : BookState) (anchor id : Nat)
    (hend : (b.onSnapshotEnd anchor id).2 = true) :
    ∃ g, b.building = some g ∧ g.anchorSeq = anchor ∧
      (NothingLost (b.install g) (b.replayable anchor) (b.onSnapshotEnd anchor id).1 ↔
        KeepsAll (b.install g) (b.replayable anchor)) := by
  unfold BookState.onSnapshotEnd at hend ⊢
  split at hend
  · cases hend
  · rename_i g hopen
    split at hend
    · cases hend
    · rename_i hin
      simp only [not_or, ne_eq, Decidable.not_not] at hin
      obtain ⟨hid, rfl, hfull⟩ := hin
      refine ⟨g, hopen, rfl, ?_⟩
      simp only [hid, hfull, ne_eq, not_true_eq_false, or_self, if_false]
      exact replay_keeps_all_iff rfl rfl _

/-- A group at sequence `1` with a delta buffered behind the lost number `2`, and perhaps one more. -/
def gapCalls (more : List DeltaOp) : List Call :=
  oneOrderGroup 7 11 ++ (⟨3, 13, 50, .cancel 900⟩ :: more).map .delta

theorem install_loses_nothing_iff_gapCalls :
    ((machine.exec BookState.new (gapCalls [])).onSnapshotEnd 11 7).2 = true ∧
    ∃ g, (machine.exec BookState.new (gapCalls [])).building = some g ∧ g.anchorSeq = 11 ∧
      (NothingLost ((machine.exec BookState.new (gapCalls [])).install g)
        ((machine.exec BookState.new (gapCalls [])).replayable 11)
        ((machine.exec BookState.new (gapCalls [])).onSnapshotEnd 11 7).1 ↔
      KeepsAll ((machine.exec BookState.new (gapCalls [])).install g)
        ((machine.exec BookState.new (gapCalls [])).replayable 11)) := by
  have hend : ((machine.exec BookState.new (gapCalls [])).onSnapshotEnd 11 7).2 = true := by decide
  exact ⟨hend, install_loses_nothing_iff _ 11 7 hend⟩

/-- **The deltas after the gap are lost**: number `4`, buffered past the anchor behind number `3`, is
neither reached nor in the buffer. -/
theorem deltas_after_the_gap_are_lost :
    ((machine.exec BookState.new (gapCalls [⟨4, 14, 60, .cancel 901⟩])).onSnapshotEnd 11 7).2 = true ∧
    ((machine.exec BookState.new (gapCalls [⟨4, 14, 60, .cancel 901⟩])).onSnapshotEnd 11
      7).1.pending = [⟨3, 13, 50, .cancel 900⟩] ∧
    ∃ g, (machine.exec BookState.new (gapCalls [⟨4, 14, 60, .cancel 901⟩])).building = some g ∧
      ¬ NothingLost ((machine.exec BookState.new (gapCalls [⟨4, 14, 60, .cancel 901⟩])).install g)
        ((machine.exec BookState.new (gapCalls [⟨4, 14, 60, .cancel 901⟩])).replayable 11)
        ((machine.exec BookState.new (gapCalls [⟨4, 14, 60, .cancel 901⟩])).onSnapshotEnd 11 7).1 := by
  have hpending : ((machine.exec BookState.new (gapCalls [⟨4, 14, 60, .cancel 901⟩])).onSnapshotEnd 11
      7).1.pending = [⟨3, 13, 50, .cancel 900⟩] := by decide
  refine ⟨by decide, hpending, _, rfl, fun hall => ?_⟩
  rcases hall [⟨3, 13, 50, .cancel 900⟩] ⟨4, 14, 60, .cancel 901⟩ [] (by decide) with ⟨s, hs, -⟩ | hmem
  · cases hs with
    | cons hsynced _ => exact absurd hsynced (by decide)
  · rw [hpending] at hmem
    exact absurd hmem (by decide)

end EdgeConnect.Mbo
