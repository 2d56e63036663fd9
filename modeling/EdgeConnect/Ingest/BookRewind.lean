import EdgeConnect.Ingest.Book

/-!
# When installing a snapshot rewinds an order-level book

A group anchored ahead of a synced book opens without leaving `Synced`, and the deltas applied while
it assembles are neither buffered nor part of it: installing it takes the book back to the group's
sequence (`synced_book_rewinds`).

* `Opens` — the begin passes both checks of `on_snapshot_begin`;
* `Ahead` — a step opens no group behind the book and applies no delta past the open group;
* `synced_book_never_rewinds` — in a run of such steps no install on a synced book takes its sequence
  back, and a delta that was applied stays applied until a reset.
-/

set_option autoImplicit false

namespace EdgeConnect.Mbo

/-! ## The condition on a step -/

/-- A begin with these fields starts a group. -/
def BookState.Opens (b : BookState) (anchorSeq totalOrders : Nat) : Prop :=
  ¬ (b.state = .synced ∧ anchorSeq ≤ b.lastAppliedMktdataSeq) ∧ totalOrders ≤ MAX_ORDERS_PER_BOOK

/-- A group opened on a synced book states a sequence no lower than the book's, and a delta applied
while a group is under assembly is part of that group. -/
def Ahead (b : BookState) : Call → Prop
  | .snapshotBegin _ anchor total last =>
      b.state = .synced → b.Opens anchor total → b.lastInstrSeq ≤ last
  | .delta op => b.state = .synced → op.seq = b.lastInstrSeq + 1 →
      ∀ g, b.building = some g → op.seq ≤ g.lastInstrumentSeq
  | _ => True

/-- `Ahead`, with the begin held to it also on a recovering book. -/
def AlwaysAhead (b : BookState) : Call → Prop
  | .snapshotBegin _ anchor total last => b.Opens anchor total → b.lastInstrSeq ≤ last
  | .delta op => Ahead b (.delta op)
  | _ => True

/-- The call ends the session's or the instrument's book. -/
def Call.Resets : Call → Prop
  | .instrumentReset _ | .endOfSession => True
  | _ => False

/-! ## Replay -/

variable {b : BookState}

theorem applyOrRecover_seq_le (b : BookState) (op : DeltaOp) :
    b.lastInstrSeq ≤ (b.applyOrRecover op).1.lastInstrSeq := by
  rcases b.applyOrRecover_cases op with ⟨-, he⟩ | ⟨-, he⟩ | ⟨hseq, he⟩ <;> rw [he]
  rw [((b.advance op).apply_frame op.kind).lastInstrSeq]
  show b.lastInstrSeq ≤ op.seq
  omega

theorem replay_seq_le : ∀ (ops : List DeltaOp) (b : BookState),
    b.lastInstrSeq ≤ (b.replay ops).lastInstrSeq
  | [], _ => Nat.le_refl _
  | op :: ops, b => by
    have h := applyOrRecover_seq_le b op
    unfold BookState.replay
    split
    · exact h
    · exact Nat.le_trans h (replay_seq_le ops _)

/-! ## What the condition keeps -/

/-- An open group is not behind a synced book. -/
def GroupAhead (b : BookState) : Prop :=
  b.state = .synced → ∀ g, b.building = some g → b.lastInstrSeq ≤ g.lastInstrumentSeq

/-- A synced delta that is part of the open group, or opens a gap, leaves it ahead. -/
theorem group_ahead_delta {op : DeltaOp}
    (hgroup : ∀ g, b.building = some g → b.lastInstrSeq ≤ g.lastInstrumentSeq)
    (hpart : op.seq = b.lastInstrSeq + 1 → ∀ g, b.building = some g → op.seq ≤ g.lastInstrumentSeq) :
    ∀ g, (b.applyOrRecover op).1.building = some g →
      (b.applyOrRecover op).1.lastInstrSeq ≤ g.lastInstrumentSeq := by
  intro g hg
  rw [b.applyOrRecover_building] at hg
  rcases b.applyOrRecover_cases op with ⟨-, he⟩ | ⟨-, he⟩ | ⟨hseq, he⟩ <;> rw [he]
  · exact hgroup g hg
  · exact hgroup g hg
  · rw [((b.advance op).apply_frame op.kind).lastInstrSeq]
    exact hpart hseq g hg

/-- What `on_snapshot_begin` leaves under assembly: nothing, or the group it opened. -/
theorem onSnapshotBegin_cases (b : BookState) (id anchor total last : Nat) :
    b.onSnapshotBegin id anchor total last = { b with building := none } ∨
    (b.Opens anchor total ∧ ∃ g : Building, g.lastInstrumentSeq = last ∧ g.anchorSeq = anchor ∧
      b.onSnapshotBegin id anchor total last = { b with building := some g }) := by
  unfold BookState.onSnapshotBegin
  split
  · exact Or.inl rfl
  · rename_i hstale
    split
    · exact Or.inl rfl
    · rename_i hsize
      exact Or.inr ⟨⟨hstale, Nat.le_of_not_lt hsize⟩, _, rfl, rfl, rfl⟩

/-- What `on_snapshot_order` leaves under assembly still states the same sequence and anchor. -/
theorem onSnapshotOrder_cases (b : BookState) (id order : Nat) (isBid : Bool) (price : Int)
    (qty : Nat) :
    b.onSnapshotOrder id order isBid price qty = b ∨
    ∃ g g' : Building, b.building = some g ∧ g'.lastInstrumentSeq = g.lastInstrumentSeq ∧
      g'.anchorSeq = g.anchorSeq ∧ b.onSnapshotOrder id order isBid price qty = { b with building := some g' } := by
  unfold BookState.onSnapshotOrder
  split
  · exact Or.inl rfl
  · rename_i g hopen
    split
    · exact Or.inr ⟨g, g.add order isBid price qty, hopen, rfl, rfl, rfl⟩
    · exact Or.inl rfl

theorem onSnapshotEnd_building (b : BookState) (anchor id : Nat) :
    (b.onSnapshotEnd anchor id).1.building = none := by
  rcases b.onSnapshotEnd_cases anchor id with ⟨hn, he⟩ | ⟨g, -, he⟩ | ⟨g, -, -, he⟩ <;> rw [he]
  · exact hn
  · exact BookState.replay_building _ _

/-- **One step of `Ahead` leaves no group behind a synced book.** -/
theorem GroupAhead.step (h : GroupAhead b) {c : Call} (hc : Ahead b c) :
    GroupAhead (step b c).1 := by
  cases c with
  | delta op =>
    intro hs g hg
    cases hst : b.state with
    | synced =>
      have he : (b.onDeltaReporting op) = b.applyOrRecover op := by
        unfold BookState.onDeltaReporting; rw [hst]
      simp only [Mbo.step, he] at hg ⊢
      exact group_ahead_delta (h hst) (hc hst) g hg
    | recovering =>
      -- a buffered delta does not sync the book
      simp only [Mbo.step, BookState.onDeltaReporting, hst] at hs
      split at hs
      · cases hs
      · rw [hst] at hs; cases hs
  | snapshotBegin id anchor total last =>
    intro hs g hg
    rcases onSnapshotBegin_cases b id anchor total last with he | ⟨hopens, g', hlast, -, he⟩ <;>
      simp only [Mbo.step, he] at hs hg ⊢
    · cases hg
    · cases hg
      rw [hlast]; exact hc hs hopens
  | snapshotOrder id order isBid price qty =>
    intro hs g hg
    rcases onSnapshotOrder_cases b id order isBid price qty with he | ⟨g₀, g', hopen, hlast, -, he⟩ <;>
      simp only [Mbo.step, he] at hs hg ⊢
    · exact h hs g hg
    · cases hg
      rw [hlast]; exact h hs g₀ hopen
  | snapshotEnd anchor id =>
    intro _ g hg
    rw [show (Mbo.step b (.snapshotEnd anchor id)).1.building = none from
      onSnapshotEnd_building b anchor id] at hg
    cases hg
  | instrumentReset s => exact nofun
  | endOfSession => exact nofun

/-- An install leaves the book at the group's sequence or past it. -/
theorem onSnapshotEnd_seq_le {anchor id : Nat}
    (h : ∀ g, b.building = some g → b.lastInstrSeq ≤ g.lastInstrumentSeq) :
    b.lastInstrSeq ≤ (b.onSnapshotEnd anchor id).1.lastInstrSeq := by
  rcases b.onSnapshotEnd_cases anchor id with ⟨-, he⟩ | ⟨g, -, he⟩ | ⟨g, hopen, -, he⟩ <;> rw [he]
  exact Nat.le_trans (h g hopen) (replay_seq_le _ (b.install g))

/-- The open group is ahead whatever the book's state. -/
def AlwaysGroupAhead (b : BookState) : Prop :=
  ∀ g, b.building = some g → b.lastInstrSeq ≤ g.lastInstrumentSeq

/-- **One step of `AlwaysAhead`** leaves no group behind the book and, short of a reset, takes its
sequence nowhere back. -/
theorem AlwaysGroupAhead.step (h : AlwaysGroupAhead b) {c : Call} (hc : AlwaysAhead b c) :
    AlwaysGroupAhead (step b c).1 ∧ (¬ c.Resets → b.lastInstrSeq ≤ (step b c).1.lastInstrSeq) := by
  cases c with
  | delta op =>
    cases hst : b.state with
    | synced =>
      have he : (b.onDeltaReporting op) = b.applyOrRecover op := by
        unfold BookState.onDeltaReporting; rw [hst]
      simp only [Mbo.step, he]
      exact ⟨group_ahead_delta h (hc hst), fun _ => applyOrRecover_seq_le b op⟩
    | recovering =>
      simp only [Mbo.step, BookState.onDeltaReporting, hst]
      split <;> exact ⟨h, fun _ => Nat.le_refl _⟩
  | snapshotBegin id anchor total last =>
    rcases onSnapshotBegin_cases b id anchor total last with he | ⟨hopens, g', hlast, -, he⟩ <;>
      simp only [Mbo.step, he]
    · exact ⟨fun g hg => (by cases hg), fun _ => Nat.le_refl _⟩
    · refine ⟨fun g hg => ?_, fun _ => Nat.le_refl _⟩
      cases hg
      rw [hlast]; exact hc hopens
  | snapshotOrder id order isBid price qty =>
    rcases onSnapshotOrder_cases b id order isBid price qty with he | ⟨g₀, g', hopen, hlast, -, he⟩ <;>
      simp only [Mbo.step, he]
    · exact ⟨h, fun _ => Nat.le_refl _⟩
    · refine ⟨fun g hg => ?_, fun _ => Nat.le_refl _⟩
      cases hg
      rw [hlast]; exact h g₀ hopen
  | snapshotEnd anchor id =>
    refine ⟨fun g hg => ?_, fun _ => onSnapshotEnd_seq_le h⟩
    rw [show (Mbo.step b (.snapshotEnd anchor id)).1.building = none from
      onSnapshotEnd_building b anchor id] at hg
    cases hg
  | instrumentReset s => exact ⟨fun g hg => (by cases hg), fun hr => absurd trivial hr⟩
  | endOfSession => exact ⟨fun g hg => (by cases hg), fun hr => absurd trivial hr⟩

/-- Short of a reset, a run of `AlwaysAhead` takes the book's sequence nowhere back. -/
theorem exec_seq_le : ∀ (calls : List Call) {b : BookState}, AlwaysGroupAhead b →
    machine.Along AlwaysAhead b calls → (∀ c ∈ calls, ¬ c.Resets) →
    b.lastInstrSeq ≤ (machine.exec b calls).lastInstrSeq
  | [], _, _, _, _ => Nat.le_refl _
  | c :: cs, _, h, hok, hr => by
    obtain ⟨h', hle⟩ := h.step hok.1
    exact Nat.le_trans (hle (hr c List.mem_cons_self))
      (exec_seq_le cs h' hok.2 fun c' hc' => hr c' (List.mem_cons_of_mem _ hc'))

/-- A delta that applied is the book's sequence. -/
theorem applied_seq {op : DeltaOp} (h : (b.onDeltaReporting op).2.2 = true) :
    (b.onDeltaReporting op).1.lastInstrSeq = op.seq := by
  unfold BookState.onDeltaReporting at h ⊢
  split at h
  · cases h
  · rcases b.applyOrRecover_cases op with ⟨-, he⟩ | ⟨-, he⟩ | ⟨-, he⟩ <;> rw [he] at h ⊢
    · cases h
    · cases h
    · exact ((b.advance op).apply_frame op.kind).lastInstrSeq

/-! ## Every run -/

/-- **A synced book never rewinds**, in every run that opens no group behind it and applies no delta
past the open group; and with no group opened behind a recovering book either, a delta that was
applied stays applied until a reset. -/
theorem synced_book_never_rewinds (calls : List Call) :
    (machine.Along Ahead BookState.new calls → ∀ anchor id,
      (machine.exec BookState.new calls).isSynced = true →
      ((machine.exec BookState.new calls).onSnapshotEnd anchor id).2 = true →
      (machine.exec BookState.new calls).lastInstrSeq ≤
        ((machine.exec BookState.new calls).onSnapshotEnd anchor id).1.lastInstrSeq) ∧
    (machine.Along AlwaysAhead BookState.new calls → ∀ pre op post, calls = pre ++ .delta op :: post →
      ((machine.exec BookState.new pre).onDeltaReporting op).2.2 = true →
      (∀ c ∈ post, ¬ c.Resets) →
      op.seq ≤ (machine.exec BookState.new calls).lastInstrSeq) := by
  constructor
  · intro hok anchor id hsync _
    have hinv : GroupAhead (machine.exec BookState.new calls) :=
      Machine.along_rule (fun _ _ hc h => h.step hc) calls _ hok nofun
    exact onSnapshotEnd_seq_le (hinv (by simpa [BookState.isSynced] using hsync))
  · intro hok pre op post heq happ hpost
    subst heq
    rw [Machine.along_append] at hok
    obtain ⟨hpre, hop, hrest⟩ := hok
    have hinv : AlwaysGroupAhead (machine.exec BookState.new pre) :=
      Machine.along_rule (fun _ _ hc h => (h.step hc).1) pre _ hpre nofun
    have hle := exec_seq_le post (hinv.step hop).1 hrest hpost
    rw [Machine.exec_append, Machine.exec_cons]
    rwa [show (step (machine.exec BookState.new pre) (.delta op)).1.lastInstrSeq = op.seq from
      applied_seq happ] at hle

/-- A group anchored ahead opens on the synced book; the next delta overtakes its end. -/
def overtakingCalls : List Call :=
  [.snapshotBegin 1 5 0 0, .snapshotEnd 5 1, .snapshotBegin 2 10 0 0,
    .delta ⟨1, 11, 100, .add 1 true 6200 5⟩]

/-- **A delta that overtakes the end of an open group is undone by its install.** -/
theorem synced_book_rewinds :
    (machine.exec BookState.new overtakingCalls).isSynced = true ∧
    (machine.exec BookState.new overtakingCalls).lastInstrSeq = 1 ∧
    ((machine.exec BookState.new overtakingCalls).onSnapshotEnd 10 2).2 = true ∧
    ((machine.exec BookState.new overtakingCalls).onSnapshotEnd 10 2).1.lastInstrSeq = 0 ∧
    ((machine.exec BookState.new overtakingCalls).onSnapshotEnd 10 2).1.orders.contains 1 = false := by
  decide

/-- The same group with the delta it contains, then its end. -/
def containedCalls : List Call :=
  [.snapshotBegin 1 5 0 0, .snapshotEnd 5 1, .snapshotBegin 2 12 1 1,
    .snapshotOrder 2 1 true 6200 5, .delta ⟨1, 11, 100, .add 1 true 6200 5⟩]

theorem synced_book_never_rewinds_contained :
    1 ≤ ((machine.exec BookState.new containedCalls).onSnapshotEnd 12 2).1.lastInstrSeq ∧
    1 ≤ (machine.exec BookState.new (containedCalls ++ [.snapshotEnd 12 2])).lastInstrSeq := by
  have hok : machine.Along AlwaysAhead BookState.new (containedCalls ++ [.snapshotEnd 12 2]) := by
    refine ⟨fun _ => ?_, trivial, fun _ => ?_, trivial, fun _ _ g hg => ?_, trivial, trivial⟩
    · exact Nat.zero_le _
    · exact Nat.zero_le _
    · cases hg
      decide
  have hok' : machine.Along Ahead BookState.new containedCalls := by
    refine ⟨fun hs => ?_, trivial, fun _ _ => ?_, trivial, fun _ _ g hg => ?_, trivial⟩
    · cases hs
    · exact Nat.zero_le _
    · cases hg
      decide
  have h := (synced_book_never_rewinds containedCalls).1 hok' 12 2 (by decide) (by decide)
  rw [show (machine.exec BookState.new containedCalls).lastInstrSeq = 1 by decide] at h
  have h' := (synced_book_never_rewinds (containedCalls ++ [.snapshotEnd 12 2])).2 hok
    (containedCalls.take 4) ⟨1, 11, 100, .add 1 true 6200 5⟩ [.snapshotEnd 12 2] rfl (by decide)
    fun c hc => by
      rw [List.mem_singleton.mp hc]; exact fun hr => hr
  exact ⟨h, h'⟩

end EdgeConnect.Mbo
