import EdgeConnect.Ingest.ArbiterSinglePath

/-!
# The slots a market publishes

`monotonic_slot` lets a market publish a committed slot only when it is not behind the last one it published.

* `Climbs` — slots that go from one published slot to another without ever going back;
* `emitServed_climbs`, `step_climbs` — what the single-path gate broadcasts for a market climbs, as long as the
  market's state is not dropped;
* `emitScoped_market` — whatever a batch makes the arbiter broadcast is about the batch's own market.
-/

set_option autoImplicit false

namespace EdgeConnect.Arbiter

open Authority

/-! ## Climbing slots -/

/-- From the slot `w` on, the slots named never go back, and the last one named is `w'`. -/
def Climbs : Option Nat → List (Option Nat) → Option Nat → Prop
  | w, [], w' => w' = w
  | w, none :: slots, w' => Climbs w slots w'
  | w, some s :: slots, w' => (∀ x, w = some x → x ≤ s) ∧ Climbs (some s) slots w'

theorem Climbs.append {slots slots' : List (Option Nat)} {w w' w'' : Option Nat} (h : Climbs w slots w')
    (h' : Climbs w' slots' w'') : Climbs w (slots ++ slots') w'' := by
  induction slots generalizing w with
  | nil =>
    cases h
    exact h'
  | cons slot slots ih =>
    cases slot with
    | none => exact ih h
    | some s => exact ⟨h.1, ih h.2⟩

/-- The slot a market last published. -/
def View.slot (v : View) : Option Nat := v.market.bind (·.wireSlot)

variable {a : Arbiter} {key k : BookKey} {m : BookMarket} {b : NormalizedBook} {publisher : Transport}
  {wall : Nat}

theorem View.slot_of_market {v : View} (hm : v.market = some m) : v.slot = m.wireSlot := by
  unfold View.slot
  rw [hm]
  rfl

/-- **`monotonic_slot` climbs.** -/
theorem monotonicSlot_climbs (hm : (a.view key).market = some m) (batchId : Option Nat) :
    ∃ w, (a.monotonicSlot key batchId).1.view key = { a.view key with market := some { m with wireSlot := w } } ∧
      Climbs m.wireSlot [(a.monotonicSlot key batchId).2] w := by
  have hm' : a.bookMarkets.get key = some m := hm
  have hsame : a.view key = { a.view key with market := some { m with wireSlot := m.wireSlot } } := by
    rw [show some { m with wireSlot := m.wireSlot } = (a.view key).market from hm.symm]
  unfold monotonicSlot
  rw [hm']
  cases batchId with
  | none => exact ⟨m.wireSlot, hsame, rfl⟩
  | some s =>
    simp only
    split
    · exact ⟨m.wireSlot, hsame, rfl⟩
    · rename_i hahead
      refine ⟨some s, view_setMarket_self _ _ _, fun x hx => ?_, rfl⟩
      rw [hx] at hahead
      simpa using hahead

theorem rebaselineNow_climbs {acc : BookAccumulator} (hm : (a.view key).market = some m)
    (hacc : m.paths.get publisher = some acc) (b : NormalizedBook) (wall : Nat) :
    Climbs m.wireSlot ((a.rebaselineNow key b publisher wall).2.map (·.batchId))
      ((a.rebaselineNow key b publisher wall).1.view key).slot := by
  obtain ⟨hview, -⟩ := view_rebaselineBook_self hm hacc wall
  have hm₁ : ((a.rebaselineBook key publisher wall).1.view key).market = some m := by rw [hview]; exact hm
  unfold rebaselineNow
  split
  · rename_i a₁ full heq
    rw [heq] at hm₁
    obtain ⟨w, hw, hclimb⟩ := monotonicSlot_climbs hm₁ full.batchId
    rw [hw]
    exact hclimb
  · rename_i a₁ heq
    rw [heq] at hm₁
    obtain ⟨w, hw, hclimb⟩ := monotonicSlot_climbs hm₁ b.batchId
    have hm₂ : ((a₁.monotonicSlot key b.batchId).1.view key).market = some { m with wireSlot := w } := by
      rw [hw]
    obtain ⟨w', hw', hclimb'⟩ := monotonicSlot_climbs hm₂ b.batchId
    rw [hw']
    exact hclimb.append hclimb'

theorem publishSteady_climbs (hm : (a.view key).market = some m) (b : NormalizedBook) :
    Climbs m.wireSlot ((a.publishSteady key b).2.map (·.batchId)) ((a.publishSteady key b).1.view key).slot := by
  have hm₁ : ((a.applyBookReplay key b).view key).market = some m := by
    rw [view_applyBookReplay_self, View.applied_market]
    exact hm
  obtain ⟨w, hw, hclimb⟩ := monotonicSlot_climbs hm₁ b.batchId
  show Climbs _ _ (((a.applyBookReplay key b).monotonicSlot key b.batchId).1.view key).slot
  rw [hw]
  exact hclimb

theorem publishAdmitted_climbs {acc : BookAccumulator} (hm : (a.view key).market = some m)
    (hacc : m.paths.get publisher = some acc) (b : NormalizedBook) (moved : Bool) (wall : Nat) :
    Climbs m.wireSlot ((a.publishAdmitted key b publisher moved wall).2.map (·.batchId))
      ((a.publishAdmitted key b publisher moved wall).1.view key).slot := by
  have hm' : a.bookMarkets.get key = some m := hm
  unfold publishAdmitted
  simp only [hm']
  split
  · split
    · rw [view_setMarket_self]
      rfl
    · exact rebaselineNow_climbs (congrArg View.market (view_setMarket_self a key
        { m with rebaseline := false, withheld := 0 })) hacc b wall
  · exact publishSteady_climbs hm b

/-- **What the single-path gate broadcasts for a market climbs.** -/
theorem emitServed_climbs (hs : (a.view key).Sound) (b : NormalizedBook) (publisher : Transport)
    (synthesized : Bool) (wall : Nat) :
    Climbs (a.view key).slot ((a.emitServed key b publisher synthesized wall).2.map (·.batchId))
      ((a.emitServed key b publisher synthesized wall).1.view key).slot := by
  obtain ⟨m, hm, hcases⟩ := (a.view key).tracked_market
  have hslot : (a.view key).slot = m.wireSlot := by
    rcases hcases with hm' | ⟨hm', rfl⟩
    · exact View.slot_of_market hm'
    · unfold View.slot
      rw [hm']
      rfl
  have htr := view_ensureMarket hs
  rw [hslot]
  unfold emitServed
  simp only
  generalize a.ensureMarket key = a₁ at htr ⊢
  rw [← htr] at hm
  generalize judgeBatch (a₁.noteBatch key b publisher synthesized) key b publisher synthesized = judged
  obtain ⟨books', decision⟩ := judged
  have hview : ((({ a₁ with books := books' } : Arbiter).accumulateBook key publisher b).view key).market =
      some (m.accumulate publisher b) :=
    congrArg View.market (view_accumulateBook_self (a := { a₁ with books := books' }) hm publisher b)
  simp only
  generalize ({ a₁ with books := books' } : Arbiter).accumulateBook key publisher b = a₂ at hview ⊢
  split
  · exact publishAdmitted_climbs hview (FinMap.get_insert_self _ _ _) b _ wall
  · split
    · rw [view_forceRebaseline_self hview]
      rfl
    · rw [View.slot_of_market hview]
      rfl

/-- A market that is tracked stays tracked: its state is not dropped. -/
def Call.KeepsMarket (k : BookKey) (a : Arbiter) (c : Call) : Prop :=
  a.bookMarkets.contains k = true → (step a c).1.bookMarkets.contains k = true

/-- **Every call keeps climbing**: a batch of the market by what it broadcasts, any other call not at all. -/
theorem step_climbs (h : SinglePath (a.view k)) {c : Call} (hc : c.Prices k) (hkeep : c.KeepsMarket k a) :
    Climbs (a.view k).slot (if c.market = some k then (step a c).2.map (·.batchId) else [])
      ((step a c).1.view k).slot := by
  by_cases hmarket : c.market = some k
  · rw [if_pos hmarket]
    cases c with
    | emit b publisher category synthesized now wall =>
      have hkey : keyOf b category = k := Option.some.inj hmarket
      have hb : Unordered b := hc hkey
      show Climbs _ ((a.emitScoped b publisher category synthesized now wall).2.map (·.batchId))
        ((a.emitScoped b publisher category synthesized now wall).1.view k).slot
      rcases emitScoped_cases (a := a) b publisher category synthesized now wall with
        ⟨hview, hout⟩ | ⟨a₁, hview, heq⟩
      · rw [hview k, hout]
        rfl
      · rw [← hview k] at h ⊢
        rw [heq, hkey, if_neg (by rw [h.route hb]; exact Bool.false_ne_true)]
        exact emitServed_climbs h.sound b publisher synthesized wall
    | _ => cases hmarket
  · rw [if_neg hmarket]
    show ((step a c).1.view k).slot = (a.view k).slot
    rcases step_idles h.sound c hmarket with (hgone | hsame | hforgot) | htracked
    · -- the market is gone, so it was not there
      have hnone : a.bookMarkets.contains k = false := by
        rw [← Bool.not_eq_true]
        intro htracked
        obtain ⟨m, hm⟩ := FinMap.contains_eq_true.mp (hkeep htracked)
        have hgone' := congrArg View.market hgone
        rw [show ((step a c).1.view k).market = some m from hm] at hgone'
        cases hgone'
      unfold View.slot
      rw [hgone, show (a.view k).market = none from FinMap.contains_eq_false.mp hnone]
      rfl
    · rw [hsame]
    · rw [hforgot]
      rfl
    · rw [htracked]
      unfold View.tracked
      split
      · rfl
      · rename_i hnone
        unfold View.slot
        rw [Option.not_isSome_iff_eq_none.mp hnone]
        rfl

/-! ## What a batch makes the arbiter broadcast -/

/-- A message about a market. -/
def About (key : BookKey) (b : NormalizedBook) : Prop :=
  (⟨SourceKey.of b, b.category, b.channel, b.instrumentId⟩ : BookKey) = key

theorem sourceKey_new_new (id : Nat) (name : String) :
    SourceKey.new (SourceKey.new id name).id (SourceKey.new id name).name = SourceKey.new id name := by
  unfold SourceKey.new
  by_cases hname : name = UNREGISTERED
  · simp only [if_pos hname]
  · simp only [if_neg hname]

/-- A re-baseline of a market some batch is about. -/
theorem About.toBook (h : About key b) (acc : BookAccumulator) (wall : Nat) : About key (acc.toBook key wall) := by
  obtain rfl : _ = key := h
  unfold About
  have hsource : SourceKey.of (acc.toBook ⟨SourceKey.of b, b.category, b.channel, b.instrumentId⟩ wall) =
      SourceKey.of b := sourceKey_new_new b.sourceId b.venue
  rw [hsource]
  rfl

variable (h : About key b)
include h

theorem rebaselineNow_about : ∀ x ∈ (a.rebaselineNow key b publisher wall).2, About key x := by
  unfold rebaselineNow
  split
  · rename_i a₁ full heq
    intro x hx
    rw [List.mem_singleton.mp hx]
    unfold rebaselineBook at heq
    split at heq
    · cases heq
    · have hfull := congrArg Prod.snd heq
      simp only at hfull
      split at hfull
      · rename_i acc hacc hready
        cases hfull
        exact h.toBook acc wall
      · cases hfull
  · intro x hx
    rcases List.mem_cons.mp hx with rfl | hx
    · exact h
    · rw [List.mem_singleton.mp hx]
      exact h

theorem publishSteady_about : ∀ x ∈ (a.publishSteady key b).2, About key x := by
  intro x hx
  rw [List.mem_singleton.mp hx]
  exact h

theorem emitServed_about (synthesized : Bool) :
    ∀ x ∈ (a.emitServed key b publisher synthesized wall).2, About key x := by
  have hadmitted : ∀ (a : Arbiter) (moved : Bool), ∀ x ∈ (a.publishAdmitted key b publisher moved wall).2,
      About key x := by
    intro a moved
    unfold publishAdmitted
    split
    · exact publishSteady_about h
    · split
      · split
        · exact nofun
        · exact rebaselineNow_about h
      · exact publishSteady_about h
  unfold emitServed
  simp only
  split
  · exact hadmitted _ _
  · split
    · exact nofun
    · exact nofun

theorem publishKept_about (now : Nat) (forced : Bool) (kept : List BookChange) :
    ∀ x ∈ (a.publishKept key b publisher now forced kept).2, About key x := by
  unfold publishKept
  simp only
  split
  · exact nofun
  · intro x hx
    rw [List.mem_singleton.mp hx]
    exact h

theorem raceBatch_about (now : Nat) : ∀ x ∈ (a.raceBatch key b publisher now wall).2, About key x := by
  unfold raceBatch
  simp only
  split
  · exact nofun
  · exact publishKept_about h now _ _

theorem dischargeForced_about : ∀ x ∈ (a.dischargeForced key b wall).2, About key x := by
  unfold dischargeForced
  simp only
  split
  · rename_i full hfull
    intro x hx
    rw [List.mem_singleton.mp hx]
    obtain ⟨acc, -, hacc⟩ := Option.bind_eq_some_iff.mp hfull
    split at hacc
    · cases hacc
      exact h.toBook acc wall
    · cases hacc
  · intro x hx
    rw [List.mem_singleton.mp hx]
    exact h

theorem serveForced_about (now : Nat) : ∀ x ∈ (a.serveForcedRebaseline key b now wall).2.1, About key x := by
  unfold serveForcedRebaseline
  split
  · exact dischargeForced_about h
  · simp only
    split
    · exact nofun
    · exact dischargeForced_about h

theorem emitOrderLevelBook_about (now : Nat) :
    ∀ x ∈ (a.emitOrderLevelBook key b publisher now wall).2, About key x := by
  unfold emitOrderLevelBook
  split
  · split
    · exact nofun
    · intro x hx
      rw [List.mem_singleton.mp hx]
      exact h
  · have hserve : ∀ x ∈ (if (a.bookMarkets.get key).any (·.rebaseline) then a.serveForcedRebaseline key b now wall
        else (a, [], true)).2.1, About key x := by
      split
      · exact serveForced_about h now
      · exact nofun
    generalize (if (a.bookMarkets.get key).any (·.rebaseline) then a.serveForcedRebaseline key b now wall
      else (a, [], true)) = r at hserve ⊢
    obtain ⟨a₁, out, go⟩ := r
    simp only at hserve ⊢
    split
    · intro x hx
      rcases List.mem_append.mp hx with hx | hx
      · exact hserve x hx
      · exact raceBatch_about h now x hx
    · exact hserve

omit h in
/-- **Whatever a batch makes the arbiter broadcast is about its own market**, when it names the category it is
emitted under. -/
theorem emitScoped_about {category : String} (hcat : b.category = category) (synthesized : Bool) (now : Nat) :
    ∀ x ∈ (a.emitScoped b publisher category synthesized now wall).2, About (keyOf b category) x := by
  have h : About (keyOf b category) b := by
    unfold About keyOf
    rw [hcat]
  rcases emitScoped_cases (a := a) b publisher category synthesized now wall with ⟨-, hout⟩ | ⟨a₁, -, heq⟩
  · rw [hout]
    exact nofun
  · rw [heq]
    split
    · exact emitOrderLevelBook_about h now
    · exact emitServed_about h synthesized

end EdgeConnect.Arbiter
