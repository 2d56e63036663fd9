import EdgeConnect.Ingest.PriceBookShape

/-!
# When a price book may be reported as served

`serves_a_book` is true of a ready book and of a group assembling over one.  Two promises bound the
second case.

* `Standing P` — the group under assembly is over a live book only since a time in `P`; no call on a
  book that is not `Ready` breaks it, since a group that replaces another inherits its clock;
* `rebuild_is_not_served_forever` — a chain of rotations that began over a live book stops being
  served past its bound, and one that began over nothing is never served;
* `Barred s` — a reset at `s` has been taken and nothing installed since;
* `reset_holds_until_a_newer_group` — until a group anchored at or past `s` installs, the book is neither
  ready nor served, whatever arrives.
-/

set_option autoImplicit false

namespace EdgeConnect.Mbp

variable {b : PriceBook}

/-! ## The standing of a group -/

/-- If the group under assembly is over a live book, its clock started at a time in `P`. -/
def Standing (P : Nat → Prop) (b : PriceBook) : Prop :=
  ∀ g, b.open = some g → g.overLiveBook = true → P g.servingSinceNs

/-- A book that is not ready is served only by the standing of its group. -/
theorem servesABook_of_not_ready (hs : b.status ≠ .ready) {now : Nat}
    (h : b.servesABook now = true) :
    ∃ g, b.open = some g ∧ g.overLiveBook = true ∧ rebuildExpired g.servingSinceNs now = false := by
  unfold PriceBook.servesABook at h
  split at h
  · contradiction
  · split at h
    · rename_i g hg
      simp only [Bool.and_eq_true, Bool.not_eq_true'] at h
      exact ⟨g, hg, h.1, h.2⟩
    · cases h
  · cases h
  · cases h

theorem Standing.of_open {P : Nat → Prop} {b' : PriceBook} (h : Standing P b)
    (ho : b'.open = b.open) : Standing P b' := by
  intro g hg
  rw [ho] at hg
  exact h g hg

theorem Standing.of_none {P : Nat → Prop} (ho : b.open = none) : Standing P b := by
  intro g hg
  rw [ho] at hg
  cases hg

/-- The replacing group is over a live book only if the replaced one was, and then takes its clock. -/
theorem Standing.opened {P : Nat → Prop} (h : Standing P b) (hs : b.status ≠ .ready)
    (id anchor total last depth now : Nat)
    (hover : (b.opened id anchor total last depth now).overLiveBook = true) :
    P (b.opened id anchor total last depth now).servingSinceNs := by
  have hserves : b.servesABook now = true := hover
  obtain ⟨prev, hprev, hlive, -⟩ := servesABook_of_not_ready hs hserves
  simp only [PriceBook.opened, hprev, hserves, if_true]
  exact h prev hprev hlive

theorem Standing.step {P : Nat → Prop} (h : Standing P b) (hs : b.status ≠ .ready) (c : Call) :
    Standing P (step b c).1 := by
  cases c with
  | delta op => exact h.of_open (onDelta_frame b op).group
  | snapshotBegin id anchor total last depth now =>
    have hbegun := onSnapshotBegin_begun b id anchor total last depth now
    simp only [Mbp.step]
    generalize b.onSnapshotBegin id anchor total last depth now = r at hbegun ⊢
    cases hbegun with
    | refused | bounded | repeats | agrees | strikes | resyncs => exact h.of_open rfl
    | opens =>
      intro g hg hover
      simp only [Option.some.injEq] at hg
      subst hg
      exact h.opened hs id anchor total last depth now hover
  | snapshotLevel id side price qty count flags =>
    intro g hg hover
    simp only [Mbp.step, PriceBook.onSnapshotLevel] at hg
    split at hg
    · exact h g hg hover
    · rename_i g₀ hopen
      split at hg
      · exact h g hg hover
      · simp only [Option.some.injEq] at hg
        subst hg
        split at hover <;> split <;> exact h g₀ hopen hover
  | snapshotEnd anchor id =>
    simp only [Mbp.step, PriceBook.onSnapshotEnd]
    split
    · exact h
    · split
      · exact .of_none rfl
      · exact .of_none ((replayOps_frame _ _).group)
  | dropBuffer => exact h.of_open rfl
  | instrumentReset s =>
    intro g hg hover
    simp only [Mbp.step, PriceBook.onInstrumentReset, Option.map_eq_some_iff] at hg
    obtain ⟨g', -, rfl⟩ := hg
    cases hover
  | endOfSession => exact .of_none rfl

/-- The standing lasts as long as the book does not become ready. -/
theorem Standing.exec {P : Nat → Prop} : ∀ (calls : List Call) {b : PriceBook}, Standing P b →
    b.status ≠ .ready → machine.Along (fun b c => (Mbp.step b c).1.status ≠ .ready) b calls →
    Standing P (machine.exec b calls) ∧ (machine.exec b calls).status ≠ .ready
  | [], _, h, hs, _ => ⟨h, hs⟩
  | c :: calls, _, h, hs, hnever => Standing.exec calls (h.step hs c) hnever.1 hnever.2

/-! ## A rebuild over a live book -/

/-- **A rebuild is not served forever.** From an accepted begin on, as long as the book does not become
ready, whatever is begun, declined, duplicated, lost, reset or dropped: if the book was ready at the
begin, it is not served past the begin's clock plus the bound; if it was not served at the begin, it
is never served. -/
theorem rebuild_is_not_served_forever (before calls : List Call)
    (id anchor total last depth t₀ : Nat)
    (haccepted : ((machine.exec PriceBook.new before).onSnapshotBegin id anchor total last depth
      t₀).2 = .accepted)
    (hnever : machine.Along (fun b c => (step b c).1.status ≠ .ready)
      ((machine.exec PriceBook.new before).onSnapshotBegin id anchor total last depth t₀).1 calls) :
    ((machine.exec PriceBook.new before).status = .ready → t₀ ≠ 0 →
      ∀ now, now > t₀ + MAX_REBUILD_SERVE_NS →
        (machine.exec ((machine.exec PriceBook.new before).onSnapshotBegin id anchor total last depth
          t₀).1 calls).servesABook now = false) ∧
    ((machine.exec PriceBook.new before).servesABook t₀ = false →
      ∀ now, (machine.exec ((machine.exec PriceBook.new before).onSnapshotBegin id anchor total last
        depth t₀).1 calls).servesABook now = false) := by
  have hshape := shape_exec before
  generalize machine.exec PriceBook.new before = b at hshape haccepted hnever ⊢
  have hbegun := onSnapshotBegin_begun b id anchor total last depth t₀
  generalize b.onSnapshotBegin id anchor total last depth t₀ = r at hbegun haccepted hnever ⊢
  cases hbegun with
  | refused | bounded | repeats | agrees | strikes | resyncs => cases haccepted
  | opens =>
    constructor
    · intro hready ht now hnow
      have hstart : Standing (fun t => t = t₀)
          { b with
            «open» := some (b.opened id anchor total last depth t₀),
            status := .buildingSnapshot } := by
        intro g hg _
        simp only [Option.some.injEq] at hg
        subst hg
        simp [PriceBook.opened, (hshape.ready hready).1]
      obtain ⟨hstanding, hidle⟩ := hstart.exec calls (fun hs => by cases hs) hnever
      by_contra hserves
      simp only [Bool.not_eq_false] at hserves
      obtain ⟨g, hg, hover, hfresh⟩ := servesABook_of_not_ready hidle hserves
      have hsince : g.servingSinceNs = t₀ := hstanding g hg hover
      have hexpired : rebuildExpired t₀ now = true := by
        simp only [rebuildExpired, Bool.and_eq_true, decide_eq_true_eq]
        exact ⟨⟨by simpa using ht, by simp; omega⟩, by omega⟩
      rw [hsince, hexpired] at hfresh
      cases hfresh
    · intro hcold now
      have hstart : Standing (fun _ => False)
          { b with
            «open» := some (b.opened id anchor total last depth t₀),
            status := .buildingSnapshot } := by
        intro g hg hover
        simp only [Option.some.injEq] at hg
        subst hg
        simp only [PriceBook.opened, hcold] at hover
        cases hover
      obtain ⟨hstanding, hidle⟩ := hstart.exec calls (fun hs => by cases hs) hnever
      by_contra hserves
      simp only [Bool.not_eq_false] at hserves
      obtain ⟨g, hg, hover, -⟩ := servesABook_of_not_ready hidle hserves
      exact hstanding g hg hover

/-- A rotation captured ahead of a ready book opens at clock 100; its end is lost, a second rotation
replaces it, and that one loses a level. -/
def lostRotations : List Call :=
  [.snapshotLevel 8 SIDE_BID 6200 90 (some 1) 0, .snapshotBegin 9 30 2 3 0 2000000000,
    .snapshotBegin 9 30 2 3 0 2500000000, .snapshotLevel 9 SIDE_BID 6200 90 (some 1) 0]

theorem rebuild_is_not_served_forever_lostRotations :
    (machine.exec ((machine.exec PriceBook.new (oneLevelCalls 150)).onSnapshotBegin 8 20 2 2 0
      100).1 lostRotations).servesABook 3000000100 = true ∧
    ∀ now, now > 3000000100 →
      (machine.exec ((machine.exec PriceBook.new (oneLevelCalls 150)).onSnapshotBegin 8 20 2 2 0
        100).1 lostRotations).servesABook now = false := by
  refine ⟨by decide, ?_⟩
  exact (rebuild_is_not_served_forever (oneLevelCalls 150) lostRotations 8 20 2 2 0 100 (by decide)
    ⟨by decide, by decide, by decide, by decide, trivial⟩).1 (by decide) (by decide)

/-! ## A reset -/

/-- What may follow a reset before the next one. -/
def Continues : Call → Prop
  | .instrumentReset _ | .endOfSession => False
  | _ => True

/-- A reset at `s` has been taken and nothing has installed since. -/
structure Barred (s : Nat) (b : PriceBook) : Prop where
  idle : b.status ≠ .ready
  required : b.requiredAnchorSeq = some s
  anchored : ∀ g, b.open = some g → s ≤ g.anchorSeq
  standing : Standing (fun _ => False) b

theorem Barred.reset (b : PriceBook) (s : Nat) : Barred s (b.onInstrumentReset s) where
  idle := by
    simp only [PriceBook.onInstrumentReset]
    split <;> simp
  required := rfl
  anchored := by
    intro g hg
    simp only [PriceBook.onInstrumentReset, Option.map_eq_some_iff, Option.filter_eq_some_iff] at hg
    obtain ⟨g', ⟨-, hle⟩, rfl⟩ := hg
    simpa using hle
  standing := by
    intro g hg hover
    simp only [PriceBook.onInstrumentReset, Option.map_eq_some_iff] at hg
    obtain ⟨g', -, rfl⟩ := hg
    cases hover

theorem Barred.servesABook {s : Nat} (h : Barred s b) (now : Nat) : b.servesABook now = false := by
  by_contra hserves
  simp only [Bool.not_eq_false] at hserves
  obtain ⟨g, hg, hover, -⟩ := servesABook_of_not_ready h.idle hserves
  exact h.standing g hg hover

theorem Barred.of_frame {s : Nat} {b' : PriceBook} (h : Barred s b) (hf : DeltaFrame b b') :
    Barred s b' where
  idle := by
    rcases hf.status with hs | hs | hs <;> rw [hs]
    · exact h.idle
    · simp
    · simp
  required := hf.required.trans h.required
  anchored := by
    intro g hg
    rw [hf.group] at hg
    exact h.anchored g hg
  standing := h.standing.of_open hf.group

/-- Every call but an installing end keeps the bar. -/
theorem Barred.step {s : Nat} (h : Barred s b) {c : Call} (hc : Continues c)
    (hnot : (step b c).2 ≠ .ended true) : Barred s (step b c).1 := by
  have hstanding := h.standing.step h.idle c
  cases c with
  | delta op => exact h.of_frame (onDelta_frame b op)
  | snapshotBegin id anchor total last depth now =>
    have hbegun := onSnapshotBegin_begun b id anchor total last depth now
    simp only [Mbp.step] at hstanding ⊢
    generalize b.onSnapshotBegin id anchor total last depth now = r at hbegun hstanding ⊢
    cases hbegun with
    | refused | bounded | repeats => exact h
    | agrees hcap hpast | strikes hcap hpast | resyncs hcap hpast => exact absurd hpast.1 h.idle
    | opens hcap =>
      refine ⟨fun hs => (by cases hs), h.required, fun g hg => ?_, hstanding⟩
      simp only [Option.some.injEq] at hg
      subst hg
      -- a begin anchored before `s` would have been refused
      by_contra hlt
      exact hcap (Or.inl ⟨s, h.required, not_le.mp hlt⟩)
  | snapshotLevel id side price qty count flags =>
    simp only [Mbp.step] at hstanding ⊢
    unfold PriceBook.onSnapshotLevel at hstanding ⊢
    split
    · exact h
    · rename_i g₀ hopen
      split
      · exact h
      · rename_i hin
        simp only [hopen, if_neg hin] at hstanding
        refine ⟨h.idle, h.required, fun g hg => ?_, hstanding⟩
        simp only [Option.some.injEq] at hg
        subst hg
        split <;> exact h.anchored g₀ hopen
  | snapshotEnd anchor id =>
    simp only [Mbp.step] at hnot hstanding ⊢
    unfold PriceBook.onSnapshotEnd at hnot hstanding ⊢
    split
    · exact h
    · rename_i g hopen
      split
      · exact ⟨by simp, h.required, fun g hg => (by cases hg), .of_none rfl⟩
      · rename_i hin
        simp only [hopen, if_neg hin] at hnot
        exact absurd rfl hnot
  | dropBuffer => exact h.of_frame ⟨rfl, rfl, rfl, rfl, Or.inr (Or.inl rfl)⟩
  | instrumentReset => exact hc.elim
  | endOfSession => exact hc.elim

theorem Barred.exec {s : Nat} : ∀ (calls : List Call) {b : PriceBook}, Barred s b →
    (∀ c ∈ calls, Continues c) → (∀ e ∈ machine.trace b calls, e.2 ≠ .ended true) →
    Barred s (machine.exec b calls)
  | [], _, h, _, _ => h
  | c :: calls, b, h, hcont, hnone => by
    refine Barred.exec calls (h.step (hcont c List.mem_cons_self) ?_) ?_ ?_
    · exact hnone (c, (Mbp.step b c).2) List.mem_cons_self
    · intro c' hc'
      exact hcont c' (List.mem_cons_of_mem _ hc')
    · intro e he
      exact hnone e (List.mem_cons_of_mem _ he)

/-- **The reset barrier.** After a reset at `s`, whatever follows it short of another reset or the end of
the session: until an end installs, the book is neither ready nor served, and the end that installs
first closes a group anchored at or past `s`. -/
theorem reset_holds_until_a_newer_group (b : PriceBook) (s : Nat) (calls : List Call)
    (hcont : ∀ c ∈ calls, Continues c)
    (hnone : ∀ e ∈ machine.trace (b.onInstrumentReset s) calls, e.2 ≠ .ended true) :
    (machine.exec (b.onInstrumentReset s) calls).status ≠ .ready ∧
    (∀ now, (machine.exec (b.onInstrumentReset s) calls).servesABook now = false) ∧
    ∀ anchor id, ((machine.exec (b.onInstrumentReset s) calls).onSnapshotEnd anchor id).2 = true →
      ∃ g, (machine.exec (b.onInstrumentReset s) calls).open = some g ∧ g.snapshotId = id ∧
        g.anchorSeq = anchor ∧ s ≤ g.anchorSeq := by
  have hbarred := (Barred.reset b s).exec calls hcont hnone
  refine ⟨hbarred.idle, hbarred.servesABook, fun anchor id hend => ?_⟩
  unfold PriceBook.onSnapshotEnd at hend
  split at hend
  · cases hend
  · rename_i g hopen
    split at hend
    · cases hend
    · rename_i hin
      simp only [not_or, ne_eq, Decidable.not_not] at hin
      exact ⟨g, hopen, hin.1, hin.2.1, hbarred.anchored g hopen⟩

/-- The group assembling over the live book when a reset at `20` arrives, then a begin captured before
the reset, a failed end and the recovery group. -/
def afterReset : List Call :=
  [.snapshotBegin 8 15 1 2 0 200, .snapshotEnd 20 8, .snapshotBegin 9 20 1 3 0 300,
    .snapshotLevel 9 SIDE_BID 6200 90 (some 1) 0]

theorem reset_holds_until_a_newer_group_afterReset :
    ((machine.exec ((machine.exec PriceBook.new (oneLevelCalls 150 ++ [.snapshotBegin 8 20 1 2 0
      100])).onInstrumentReset 20) afterReset).onSnapshotEnd 20 9).2 = true ∧
    ∃ g, (machine.exec ((machine.exec PriceBook.new (oneLevelCalls 150 ++ [.snapshotBegin 8 20 1 2 0
      100])).onInstrumentReset 20) afterReset).open = some g ∧ g.snapshotId = 9 ∧
        g.anchorSeq = 20 ∧ 20 ≤ g.anchorSeq := by
  have hend : ((machine.exec ((machine.exec PriceBook.new (oneLevelCalls 150 ++ [.snapshotBegin 8 20 1
      2 0 100])).onInstrumentReset 20) afterReset).onSnapshotEnd 20 9).2 = true := by decide
  refine ⟨hend, ?_⟩
  refine (reset_holds_until_a_newer_group _ 20 afterReset ?_ ?_).2.2 20 9 hend
  · intro c hc
    simp only [afterReset, List.mem_cons, List.not_mem_nil, or_false] at hc
    rcases hc with rfl | rfl | rfl | rfl <;> exact trivial
  · intro e he
    have hreplies : (machine.trace ((machine.exec PriceBook.new (oneLevelCalls 150 ++
        [.snapshotBegin 8 20 1 2 0 100])).onInstrumentReset 20) afterReset).map Prod.snd =
        [.begun (.declined none), .ended false, .begun .accepted, .unit] := by decide
    have hmem := List.mem_map_of_mem (f := Prod.snd) he
    rw [hreplies] at hmem
    intro heq
    rw [heq] at hmem
    simp at hmem

end EdgeConnect.Mbp
