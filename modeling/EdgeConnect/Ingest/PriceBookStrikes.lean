import EdgeConnect.Ingest.PriceBookShape

/-!
# Forced re-anchors

A ready book that declines a complete rotation for declaring materially more levels keeps the
rotation's id as a strike, and a second rotation with another id confirms it.  The results are about
the trace of a run, the calls with what they answered.

* `Strike`, `Agreement` — a complete rotation declined past the bound, or within it;
* `Evidence` — a strike with no agreement after it;
* `Told` — what the strike and the re-anchor clock of a book say about its trace, kept by every call;
* `forced_reanchor_is_confirmed` — a forced re-anchor is the second strike since the last install and
  far enough from any other, a refused begin changes nothing, and the `u32` arithmetic is exact.
-/

set_option autoImplicit false

namespace EdgeConnect.Mbp

variable {b : PriceBook} {t recent : List (Call × Reply)}

/-! ## Evidence in a trace -/

/-- The shortfall is above the floor and above the percentage of the declared total. -/
def PastBound (shortfall total : Nat) : Prop :=
  shortfall > REANCHOR_MIN_SHORTFALL_LEVELS ∧ total * REANCHOR_SHORTFALL_PERCENT < shortfall * 100

theorem reanchorWarranted_iff (shortfall total : Nat) :
    reanchorWarranted shortfall total = true ↔ PastBound shortfall total := by
  simp only [reanchorWarranted, decide_eq_true_eq, PastBound, gt_iff_lt, Nat.max_lt]
  rw [Nat.div_lt_iff_lt_mul (by omega)]

/-- The complete rotation `id` was declined with a shortfall past the bound. -/
def Strike (id : Nat) (e : Call × Reply) : Prop :=
  ∃ anchor total last now shortfall,
    e = (.snapshotBegin id anchor total last 0 now, .begun (.declined (some shortfall))) ∧
      PastBound shortfall total

/-- A complete rotation was declined with a shortfall within the bound. -/
def Agreement (e : Call × Reply) : Prop :=
  ∃ id anchor total last now shortfall,
    e = (.snapshotBegin id anchor total last 0 now, .begun (.declined (some shortfall))) ∧
      ¬ PastBound shortfall total

/-- The last install of a trace, and what came after it. -/
def SinceInstall (t recent : List (Call × Reply)) : Prop :=
  ∃ older install, t = older ++ install :: recent ∧ install.2 = .ended true ∧
    ∀ e ∈ recent, e.2 ≠ .ended true

/-- The rotation `id` struck and no complete rotation has agreed since. -/
def Evidence (id : Nat) (recent : List (Call × Reply)) : Prop :=
  ∃ u e v, recent = u ++ e :: v ∧ Strike id e ∧ ∀ x ∈ v, ¬ Agreement x

/-- The clock of a forced re-anchor. -/
def resyncedAt : Call × Reply → Option Nat
  | (.snapshotBegin _ _ _ _ _ now, .begun (.resynced _)) => some now
  | _ => none

/-- The later of two forced re-anchors is more than the interval after the earlier. -/
def Spaced (e e' : Call × Reply) : Prop :=
  ∀ now now', resyncedAt e = some now → resyncedAt e' = some now' →
    now + REANCHOR_MIN_INTERVAL_NS < now'

theorem SinceInstall.install {e : Call × Reply} (he : e.2 = .ended true) :
    SinceInstall (t ++ [e]) [] :=
  ⟨t, e, rfl, he, by simp⟩

theorem SinceInstall.snoc (h : SinceInstall t recent) {e : Call × Reply} (he : e.2 ≠ .ended true) :
    SinceInstall (t ++ [e]) (recent ++ [e]) := by
  obtain ⟨older, install, rfl, hinstall, hnone⟩ := h
  refine ⟨older, install, by simp, hinstall, fun x hx => ?_⟩
  rcases List.mem_append.mp hx with hx | hx
  · exact hnone x hx
  · rw [List.mem_singleton.mp hx]
    exact he

theorem Evidence.snoc {id : Nat} (h : Evidence id recent) {e : Call × Reply} (he : ¬ Agreement e) :
    Evidence id (recent ++ [e]) := by
  obtain ⟨u, s, v, rfl, hs, hv⟩ := h
  refine ⟨u, s, v ++ [e], by simp, hs, fun x hx => ?_⟩
  rcases List.mem_append.mp hx with hx | hx
  · exact hv x hx
  · rw [List.mem_singleton.mp hx]
    exact he

theorem Evidence.strike {id : Nat} {e : Call × Reply} (he : Strike id e) :
    Evidence id (recent ++ [e]) :=
  ⟨recent, e, [], rfl, he, by simp⟩

/-! ## What the book remembers -/

/-- What the strike and the re-anchor clock say about the calls so far. -/
structure Told (t : List (Call × Reply)) (b : PriceBook) : Prop where
  struck : b.status = .ready → ∃ recent, SinceInstall t recent ∧
    ∀ id, b.shortStrike = some id → Evidence id recent
  clock : ∀ e ∈ t, ∀ now, resyncedAt e = some now → ∃ last, b.lastReanchorNs = some last ∧ now ≤ last
  spaced : t.Pairwise Spaced

theorem Told.new : Told [] PriceBook.new where
  struck := nofun
  clock := nofun
  spaced := .nil

/-- An answer that is no forced re-anchor keeps the clock and the spacing. -/
theorem Told.quiet {b' : PriceBook} {e : Call × Reply} (h : Told t b)
    (hclock : b'.lastReanchorNs = b.lastReanchorNs) (he : resyncedAt e = none)
    (hstruck : b'.status = .ready → ∃ recent, SinceInstall (t ++ [e]) recent ∧
      ∀ id, b'.shortStrike = some id → Evidence id recent) : Told (t ++ [e]) b' where
  struck := hstruck
  clock := by
    intro x hx now hnow
    rcases List.mem_append.mp hx with hx | hx
    · rw [hclock]
      exact h.clock x hx now hnow
    · rw [List.mem_singleton.mp hx, he] at hnow
      cases hnow
  spaced := by
    rw [List.pairwise_append]
    refine ⟨h.spaced, List.pairwise_singleton _ _, fun x _ y hy now now' _ hnow' => ?_⟩
    rw [List.mem_singleton.mp hy, he] at hnow'
    cases hnow'

/-- A call that neither makes the book ready nor touches the strike leaves the evidence as it was. -/
theorem Told.keep {b' : PriceBook} {e : Call × Reply} (h : Told t b)
    (hclock : b'.lastReanchorNs = b.lastReanchorNs) (hstrike : b'.shortStrike = b.shortStrike)
    (hready : b'.status = .ready → b.status = .ready) (he : resyncedAt e = none)
    (hend : e.2 ≠ .ended true) (hagree : ¬ Agreement e) : Told (t ++ [e]) b' := by
  refine h.quiet hclock he fun hr => ?_
  obtain ⟨recent, hsince, hevidence⟩ := h.struck (hready hr)
  refine ⟨recent ++ [e], hsince.snoc hend, fun id hid => ?_⟩
  rw [hstrike] at hid
  exact (hevidence id hid).snoc hagree

/-- A book that is not ready afterwards owes no evidence. -/
theorem Told.of_idle {b' : PriceBook} {e : Call × Reply} (h : Told t b)
    (hclock : b'.lastReanchorNs = b.lastReanchorNs) (he : resyncedAt e = none)
    (hidle : b'.status ≠ .ready) : Told (t ++ [e]) b' :=
  h.quiet hclock he fun hready => absurd hready hidle

theorem not_agreement_of_none {c : Call} : ¬ Agreement (c, .begun (.declined none)) := by
  rintro ⟨id, anchor, total, last, now, shortfall, he, -⟩
  simp at he

/-- The step lemma for a begin. -/
theorem Told.onSnapshotBegin (h : Told t b) (id anchor total last depth now : Nat) :
    Told (t ++ [(.snapshotBegin id anchor total last depth now,
        .begun (b.onSnapshotBegin id anchor total last depth now).2)])
      (b.onSnapshotBegin id anchor total last depth now).1 := by
  have hbegun := onSnapshotBegin_begun b id anchor total last depth now
  generalize b.onSnapshotBegin id anchor total last depth now = r at hbegun ⊢
  cases hbegun with
  | refused | bounded | repeats =>
    exact h.keep rfl rfl (fun hr => hr) rfl (by simp) not_agreement_of_none
  | agrees hcap hpast =>
    obtain ⟨recent, hsince, -⟩ := h.struck hpast.1
    exact h.quiet rfl rfl fun _ => ⟨_, hsince.snoc (by simp), nofun⟩
  | strikes hcap hpast hdepth hw =>
    obtain ⟨recent, hsince, hevidence⟩ := h.struck hpast.1
    rw [reanchorWarranted_iff] at hw
    subst hdepth
    refine h.quiet rfl rfl fun _ => ⟨_, hsince.snoc (by simp), fun first hfirst => ?_⟩
    cases hs : b.shortStrike with
    | none =>
      -- the first strike is this rotation's own
      simp only [hs, Option.getD_none, Option.some.injEq] at hfirst
      subst hfirst
      exact .strike ⟨anchor, total, last, now, _, rfl, hw⟩
    | some kept =>
      simp only [hs, Option.getD_some, Option.some.injEq] at hfirst
      subst hfirst
      refine (hevidence kept hs).snoc ?_
      rintro ⟨id', anchor', total', last', now', shortfall', he, hnot⟩
      simp only [Prod.mk.injEq, Call.snapshotBegin.injEq, Reply.begun.injEq,
        BeginOutcome.declined.injEq, Option.some.injEq] at he
      obtain ⟨⟨-, -, rfl, -⟩, rfl⟩ := he
      exact hnot hw
  | resyncs hcap hpast hdepth hw hconfirmed hallowed =>
    have hlater : ∀ e ∈ t, ∀ past, resyncedAt e = some past →
        past + REANCHOR_MIN_INTERVAL_NS < now := by
      intro e he past hpast'
      obtain ⟨since, hsince, hle⟩ := h.clock e he past hpast'
      simp only [PriceBook.reanchorAllowed, hsince, decide_eq_true_eq] at hallowed
      omega
    refine ⟨nofun, ?_, ?_⟩
    · intro e he now' hnow'
      refine ⟨now, rfl, ?_⟩
      rcases List.mem_append.mp he with he | he
      · have := hlater e he now' hnow'
        omega
      · rw [List.mem_singleton.mp he] at hnow'
        simp only [resyncedAt, Option.some.injEq] at hnow'
        omega
    · rw [List.pairwise_append]
      refine ⟨h.spaced, List.pairwise_singleton _ _, fun e he e' he' past now' hpast' hnow' => ?_⟩
      rw [List.mem_singleton.mp he'] at hnow'
      simp only [resyncedAt, Option.some.injEq] at hnow'
      rw [← hnow']
      exact hlater e he past hpast'
  | opens => exact h.of_idle rfl rfl nofun

theorem Told.step (h : Told t b) (c : Call) : Told (t ++ [(c, (step b c).2)]) (step b c).1 := by
  cases c with
  | delta op =>
    have hf := onDelta_frame b op
    exact h.keep hf.reanchor hf.strike hf.ready rfl (by simp [Mbp.step]) (by simp [Agreement])
  | snapshotBegin id anchor total last depth now =>
    exact h.onSnapshotBegin id anchor total last depth now
  | snapshotLevel id side price qty count flags =>
    simp only [Mbp.step]
    unfold PriceBook.onSnapshotLevel
    split
    · exact h.keep rfl rfl (fun hr => hr) rfl (by simp) (by simp [Agreement])
    · split <;> exact h.keep rfl rfl (fun hr => hr) rfl (by simp) (by simp [Agreement])
  | snapshotEnd anchor id =>
    simp only [Mbp.step]
    unfold PriceBook.onSnapshotEnd
    split
    · exact h.keep rfl rfl (fun hr => hr) rfl (by simp) (by simp [Agreement])
    · split
      · exact h.of_idle rfl rfl fun hr => by cases hr
      · -- the install clears the strike, and its replay sets none
        refine h.quiet (replayOps_frame _ _).reanchor rfl fun _ => ⟨[], .install rfl, ?_⟩
        intro first hfirst
        simp only [PriceBook.replay] at hfirst
        rw [(replayOps_frame _ _).strike] at hfirst
        cases hfirst
  | dropBuffer => exact h.of_idle rfl rfl fun hr => by cases hr
  | instrumentReset s =>
    refine h.of_idle rfl rfl ?_
    simp only [Mbp.step, PriceBook.onInstrumentReset]
    split <;> simp
  | endOfSession => exact h.of_idle rfl rfl fun hr => by cases hr

/-- Every run tells the truth about its trace. -/
theorem told_exec (calls : List Call) :
    Told (machine.trace PriceBook.new calls) (machine.exec PriceBook.new calls) :=
  Machine.history_rule Told.new (fun _ _ c h => h.step c) calls

/-! ## Every run -/

/-- **Forced re-anchors.** In every run: a begin answered `Resynced` meets a ready book and carries a
shortfall past the bound, and since the last install a complete rotation with another id was declined
past the bound with no agreeing one after it; any two such answers are more than the interval apart;
a begin refused by the cap or by a reset's anchor changes nothing; and the declared total times the
percentage, like the book's level count, fits `u32`. -/
theorem forced_reanchor_is_confirmed (calls : List Call) (id anchor total last depth now : Nat) :
    (∀ shortfall, ((machine.exec PriceBook.new calls).onSnapshotBegin id anchor total last depth
        now).2 = .resynced shortfall →
      (machine.exec PriceBook.new calls).status = .ready ∧ depth = 0 ∧ PastBound shortfall total ∧
      ∃ recent first, SinceInstall (machine.trace PriceBook.new calls) recent ∧ first ≠ id ∧
        Evidence first recent) ∧
    (machine.trace PriceBook.new calls).Pairwise Spaced ∧
    ((machine.exec PriceBook.new calls).refuses anchor total →
      (machine.exec PriceBook.new calls).onSnapshotBegin id anchor total last depth now =
        (machine.exec PriceBook.new calls, .declined none)) ∧
    (∀ shortfall,
      ((machine.exec PriceBook.new calls).onSnapshotBegin id anchor total last depth now).2 =
          .declined (some shortfall) ∨
        ((machine.exec PriceBook.new calls).onSnapshotBegin id anchor total last depth now).2 =
          .resynced shortfall →
      total * REANCHOR_SHORTFALL_PERCENT < 2 ^ 32 ∧
      (machine.exec PriceBook.new calls).levelsLen < 2 ^ 32 ∧
      shortfall = total - (machine.exec PriceBook.new calls).levelsLen) := by
  have htold := told_exec calls
  have hlevels := (shape_exec calls).levels
  generalize machine.exec PriceBook.new calls = b at htold hlevels ⊢
  have hbegun := onSnapshotBegin_begun b id anchor total last depth now
  generalize b.onSnapshotBegin id anchor total last depth now = r at hbegun ⊢
  have hsmall : b.levelsLen < 2 ^ 32 := by
    simp only [MAX_LEVELS_PER_BOOK] at hlevels
    omega
  have hexact : ¬ b.refuses anchor total → total * REANCHOR_SHORTFALL_PERCENT < 2 ^ 32 ∧
      b.levelsLen < 2 ^ 32 ∧ b.shortfall total = total - b.levelsLen := by
    intro hcap
    have htotal : total ≤ MAX_LEVELS_PER_BOOK := by
      by_contra hlt
      exact hcap (Or.inr (not_le.mp hlt))
    simp only [MAX_LEVELS_PER_BOOK] at htotal
    refine ⟨by simp only [REANCHOR_SHORTFALL_PERCENT]; omega, hsmall, ?_⟩
    rw [PriceBook.shortfall, Nat.mod_eq_of_lt hsmall]
  refine ⟨fun shortfall hr => ?_, htold.spaced, fun href => ?_, fun shortfall hr => ?_⟩
  · cases hbegun with
    | resyncs hcap hpast hdepth hw hconfirmed =>
      obtain rfl : b.shortfall total = shortfall := by simpa using hr
      obtain ⟨first, hfirst, hne⟩ := hconfirmed
      obtain ⟨recent, hsince, hevidence⟩ := htold.struck hpast.1
      exact ⟨hpast.1, hdepth, (reanchorWarranted_iff _ _).mp hw, recent, first, hsince, hne,
        hevidence first hfirst⟩
    | _ => cases hr
  · cases hbegun with
    | refused => rfl
    | bounded hcap | agrees hcap | strikes hcap | resyncs hcap | repeats hcap | opens hcap =>
      exact absurd href hcap
  · cases hbegun with
    | agrees hcap | strikes hcap | resyncs hcap =>
      obtain rfl : b.shortfall total = shortfall := by simpa using hr
      exact hexact hcap
    | refused | bounded | repeats | opens => simp at hr

/-- The one-level book declines rotation `8` of twenty levels, a duplicate of it included. -/
def strikeCalls : List Call :=
  oneLevelCalls 150 ++ [.snapshotBegin 8 12 20 1 0 100, .snapshotBegin 8 12 20 1 0 110]

theorem forced_reanchor_is_confirmed_strikeCalls :
    (machine.exec PriceBook.new strikeCalls).status = .ready ∧
    ∃ recent first, SinceInstall (machine.trace PriceBook.new strikeCalls) recent ∧ first ≠ 9 ∧
      Evidence first recent := by
  obtain ⟨hready, -, -, hevidence⟩ :=
    (forced_reanchor_is_confirmed strikeCalls 9 14 20 1 0 120).1 19 (by decide)
  exact ⟨hready, hevidence⟩

end EdgeConnect.Mbp
