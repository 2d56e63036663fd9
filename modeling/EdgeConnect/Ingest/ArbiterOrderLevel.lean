import EdgeConnect.Ingest.ArbiterView

/-!
# The order-level race on its own market

What `emit_order_level_book` does to the market of its batch, as the `View` of that market sees it.

* `Quiet` — the replay entry and the accumulators stay, and the market keeps its kind;
* `Told` — everything a batch can do: say nothing, repeat the replay entry's own book, or say a message
  that the replay entry folds as well, one after the other;
* `emitOrderLevelBook_told` — the race does nothing else.
-/

set_option autoImplicit false

namespace EdgeConnect.Arbiter

open Authority

/-- Only the flags of a market changed, or it started being tracked. -/
structure Quiet (v v' : View) : Prop where
  replay : v'.replay = v.replay
  admitted : v'.admitted = v.admitted
  wired : v'.wired = v.wired
  tracked : v.market.isSome = true → v'.market.isSome = true
  market : ∀ m', v'.market = some m' →
    (∃ m, v.market = some m ∧ m'.paths = m.paths ∧ (m.orderLevel = true → m'.orderLevel = true)) ∨
      v.market = none ∧ m'.paths = ∅

theorem Quiet.refl (v : View) : Quiet v v :=
  ⟨rfl, rfl, rfl, id, fun m hm => .inl ⟨m, hm, rfl, id⟩⟩

theorem Quiet.trans {v v' v'' : View} (h : Quiet v v') (h' : Quiet v' v'') : Quiet v v'' := by
  refine ⟨h'.replay.trans h.replay, h'.admitted.trans h.admitted, h'.wired.trans h.wired,
    fun ht => h'.tracked (h.tracked ht), fun m'' hm'' => ?_⟩
  rcases h'.market m'' hm'' with ⟨m', hm', hp', ho'⟩ | ⟨hnone, hp'⟩
  · rcases h.market m' hm' with ⟨m, hm, hp, ho⟩ | ⟨hnone, hp⟩
    · exact .inl ⟨m, hm, hp'.trans hp, fun hl => ho' (ho hl)⟩
    · exact .inr ⟨hnone, hp'.trans hp⟩
  · refine .inr ⟨?_, hp'⟩
    cases hm : v.market with
    | none => rfl
    | some m =>
      have := h.tracked (by rw [hm]; rfl)
      rw [hnone] at this
      cases this

/-- A market in place of the one that was there. -/
theorem Quiet.of_market {v : View} {m m' : BookMarket} (hm : v.market = some m)
    (hp : m'.paths = m.paths) (ho : m.orderLevel = true → m'.orderLevel = true) :
    Quiet v { v with market := some m' } := by
  refine ⟨rfl, rfl, rfl, fun _ => rfl, fun m'' hm'' => .inl ⟨m, hm, ?_⟩⟩
  cases hm''
  exact ⟨hp, ho⟩

theorem Quiet.tracking {v : View} (hs : v.Sound) : Quiet v v.tracked := by
  unfold View.tracked
  cases hm : v.market with
  | some m => exact .refl v
  | none =>
    obtain ⟨hr, ha⟩ := hs hm
    refine ⟨hr.symm, ha.symm, rfl, by rw [hm]; nofun, fun m' hm' => .inr ⟨hm, ?_⟩⟩
    cases hm'
    rfl

/-- Everything a batch of an order-level market does to it, with what is broadcast. -/
inductive Told (key : BookKey) (b : NormalizedBook) (wall : Nat) :
    View → View → List NormalizedBook → Prop
  | silent {v v' : View} (h : Quiet v v') : Told key b wall v v' []
  | repeated {v v' : View} (h : Quiet v v') (r : BookAccumulator) (hr : v.replay = some r)
      (hb : r.baselined = true) : Told key b wall v v' [r.toBook key wall]
  | said {v v' : View} (h : Quiet v v') (ht : v'.market.isSome = true) (msg : NormalizedBook)
      (hlast : b.last = true → msg.last = true) : Told key b wall v (v'.applied msg) [msg]
  | next {v v' v'' : View} {out out' : List NormalizedBook} (h : Told key b wall v v' out)
      (h' : Told key b wall v' v'' out') : Told key b wall v v'' (out ++ out')

variable {a : Arbiter} {key : BookKey} {m : BookMarket}

theorem Sound.of_market {v : View} (h : v.market.isSome = true) : v.Sound := by
  intro hm
  rw [hm] at h
  cases h

/-- A delivery tracks its market, and makes it order-level with its first order id. -/
theorem noteBookDelivery_view (hs : (a.view key).Sound) (b : NormalizedBook) (publisher : Transport)
    (now : Nat) : Quiet (a.view key) ((a.noteBookDelivery key b publisher now).view key) ∧
      ∃ m, ((a.noteBookDelivery key b publisher now).view key).market = some m ∧
        ((b.changes.any fun c => c.orderId ≠ 0) = true → m.orderLevel = true) := by
  have htr := view_ensureMarket hs
  obtain ⟨m, hm, -⟩ := (a.view key).tracked_market
  have hq := Quiet.tracking hs
  rw [← htr] at hm hq
  unfold noteBookDelivery
  simp only
  generalize a.ensureMarket key = a₁ at hm hq ⊢
  have hm₁ : a₁.bookMarkets.get key = some m := hm
  split
  · simp only [hm₁]
    have hset := view_setMarket_self a₁ key { m with orderLevel := true }
    refine ⟨hq.trans ?_, { m with orderLevel := true }, ?_, fun _ => rfl⟩
    · show Quiet (a₁.view key) ((a₁.setMarket key { m with orderLevel := true }).view key)
      rw [hset]
      exact .of_market hm rfl fun _ => rfl
    · show ((a₁.setMarket key { m with orderLevel := true }).view key).market = _
      rw [hset]
  · rename_i hids
    exact ⟨hq, m, hm, fun h => absurd h hids⟩

theorem publishBook_view (hm : (a.view key).market = some m) (b : NormalizedBook) :
    (a.publishBook key b).1.view key = (a.view key).applied b ∧ (a.publishBook key b).2 = [b] := by
  refine ⟨?_, rfl⟩
  show ((a.ensureMarket key).applyBookReplay key b).view key = _
  rw [ensureMarket_of_tracked hm, view_applyBookReplay_self]

/-- A delivered message is broadcast and folded by the replay entry. -/
theorem deliver_told (hs : (a.view key).Sound) (b b' : NormalizedBook) (publisher : Transport)
    (now wall : Nat) (msg : NormalizedBook) (hlast : b.last = true → msg.last = true) :
    Told key b wall (a.view key) (((a.noteBookDelivery key b' publisher now).publishBook key msg).1.view key)
      ((a.noteBookDelivery key b' publisher now).publishBook key msg).2 := by
  obtain ⟨hq, m, hm, -⟩ := noteBookDelivery_view hs b' publisher now
  obtain ⟨hview, hout⟩ := publishBook_view hm msg
  rw [hview, hout]
  exact .said hq (by rw [hm]; rfl) msg hlast

theorem clearLedRebaseline_told (hs : (a.view key).Sound) (b : NormalizedBook) (publisher : Transport)
    (now wall : Nat) : Told key b wall (a.view key) ((a.clearLedRebaseline key b publisher now).1.view key)
      (a.clearLedRebaseline key b publisher now).2 := by
  unfold clearLedRebaseline
  simp only
  have hev := view_rebaselineEvents a key b.changes (a.channelNewest key) key
  generalize a.rebaselineEvents key b.changes (a.channelNewest key) = a₁ at hev ⊢
  rw [← hev] at hs ⊢
  cases hm : a₁.bookMarkets.get key with
  | none => exact deliver_told hs b b publisher now wall b id
  | some m =>
    have hset := view_setMarket_self a₁ key { m with rebaseline := false, withheld := 0 }
    have hq : Quiet (a₁.view key) ((a₁.setMarket key { m with rebaseline := false, withheld := 0 }).view key) := by
      rw [hset]
      exact .of_market hm rfl id
    have hs' : ((a₁.setMarket key { m with rebaseline := false, withheld := 0 }).view key).Sound := by
      rw [hset]
      exact Sound.of_market rfl
    exact .next (.silent hq) (deliver_told hs' b b publisher now wall b id)

/-- A forced re-baseline repeats the replay entry's book, or clears it. -/
theorem dischargeForced_told (hm : (a.view key).market = some m) (b : NormalizedBook) (wall : Nat) :
    Told key b wall (a.view key) ((a.dischargeForced key b wall).1.view key)
        (a.dischargeForced key b wall).2 ∧
      ((a.dischargeForced key b wall).1.view key).market = some m := by
  unfold dischargeForced
  simp only
  split
  · rename_i full hfull
    rw [view_rebaselineEvents]
    refine ⟨?_, hm⟩
    unfold rebaselineFromReplay at hfull
    obtain ⟨r, hr, hfull⟩ := Option.bind_eq_some_iff.mp hfull
    split at hfull
    · rename_i hb
      cases hfull
      exact .repeated (.refl _) r hr hb
    · cases hfull
  · rw [view_rebaselineEvents, view_applyBookReplay_self]
    refine ⟨.said (.refl _) (by rw [hm]; rfl) _ fun _ => rfl, ?_⟩
    rw [View.applied_market]
    exact hm

theorem serveForcedRebaseline_told (hm : (a.view key).market = some m) (b : NormalizedBook)
    (now wall : Nat) :
    Told key b wall (a.view key) ((a.serveForcedRebaseline key b now wall).1.view key)
        (a.serveForcedRebaseline key b now wall).2.1 ∧
      ∃ m', ((a.serveForcedRebaseline key b now wall).1.view key).market = some m' := by
  have hm' : a.bookMarkets.get key = some m := hm
  unfold serveForcedRebaseline
  rw [hm']
  simp only
  split
  · rw [view_setMarket_self]
    exact ⟨.silent (.of_market hm rfl id), _, rfl⟩
  · have hset := view_setMarket_self a key { m with rebaseline := false, withheld := 0, rebaselinedNs := now }
    generalize a.setMarket key { m with rebaseline := false, withheld := 0, rebaselinedNs := now } = a₁
      at hset ⊢
    obtain ⟨htold, hm₁⟩ := dischargeForced_told (congrArg View.market hset) b wall
    refine ⟨?_, _, hm₁⟩
    have hq : Quiet (a.view key) (a₁.view key) := by
      rw [hset]
      exact .of_market hm rfl id
    exact .next (.silent hq) htold

theorem publishKept_told (hs : (a.view key).Sound) (b : NormalizedBook) (publisher : Transport)
    (now wall : Nat) (forced : Bool) (kept : List BookChange) :
    Told key b wall (a.view key) ((a.publishKept key b publisher now forced kept).1.view key)
      (a.publishKept key b publisher now forced kept).2 := by
  have hforce : Quiet (a.view key) ((if forced then a.forceRebaseline key else a).view key) := by
    split
    · cases hm : (a.view key).market with
      | none =>
        have hm' : a.bookMarkets.get key = none := hm
        unfold forceRebaseline
        rw [hm']
        exact .refl _
      | some m =>
        rw [view_forceRebaseline_self hm]
        exact .of_market hm rfl id
    · exact .refl _
  unfold publishKept
  simp only
  generalize (if forced then a.forceRebaseline key else a) = a₁ at hforce ⊢
  have hs₁ : (a₁.view key).Sound := by
    intro hnone
    have hm : (a.view key).market = none := by
      cases hm : (a.view key).market with
      | none => rfl
      | some m =>
        have := hforce.tracked (by rw [hm]; rfl)
        rw [hnone] at this
        cases this
    exact ⟨hforce.replay.trans (hs hm).1, hforce.admitted.trans (hs hm).2⟩
  split
  · exact .silent hforce
  · exact .next (.silent hforce) (deliver_told hs₁ b b publisher now wall { b with changes := kept } id)

theorem raceBatch_told (hs : (a.view key).Sound) (b : NormalizedBook) (publisher : Transport)
    (now wall : Nat) : Told key b wall (a.view key) ((a.raceBatch key b publisher now wall).1.view key)
      (a.raceBatch key b publisher now wall).2 := by
  have hclock := view_clockFor a (channelKey key) key
  unfold raceBatch
  generalize a.clockFor (channelKey key) = r at hclock
  obtain ⟨a₁, clock⟩ := r
  simp only at hclock ⊢
  generalize judgeStamp clock b now wall a₁.bookGuard = j
  have hview : ({ a₁ with channelClocks := a₁.channelClocks.insert (channelKey key) j.clock } : Arbiter).view
      key = a.view key := hclock
  generalize ({ a₁ with channelClocks := a₁.channelClocks.insert (channelKey key) j.clock } : Arbiter) = a₂
    at hview ⊢
  rw [← hview] at hs ⊢
  split
  · rw [view_refuseAncient]
    exact .silent (.refl _)
  · unfold raceAccepted
    generalize a₂.raceEvents key b publisher j = raced
    obtain ⟨e, guard, kept⟩ := raced
    exact publishKept_told
      (a := { a₂ with bookEvents := a₂.bookEvents.insert key { e with forced := none }, guard }) hs b
      publisher now wall e.forced.isSome kept

/-- **The order-level race on its own market.** -/
theorem emitOrderLevelBook_told (hs : (a.view key).Sound) (b : NormalizedBook) (publisher : Transport)
    (now wall : Nat) :
    Told key b wall (a.view key) ((a.emitOrderLevelBook key b publisher now wall).1.view key)
      (a.emitOrderLevelBook key b publisher now wall).2 := by
  unfold emitOrderLevelBook
  split
  · split
    · exact .silent (.refl _)
    · exact clearLedRebaseline_told hs b publisher now wall
  · have hserve : Told key b wall (a.view key)
        ((if (a.bookMarkets.get key).any (·.rebaseline) then a.serveForcedRebaseline key b now wall
          else (a, [], true)).1.view key)
        (if (a.bookMarkets.get key).any (·.rebaseline) then a.serveForcedRebaseline key b now wall
          else (a, [], true)).2.1 ∧
        ((if (a.bookMarkets.get key).any (·.rebaseline) then a.serveForcedRebaseline key b now wall
          else (a, [], true)).1.view key).Sound := by
      split
      · rename_i hflag
        obtain ⟨m, hm⟩ : ∃ m, a.bookMarkets.get key = some m := by
          cases hm : a.bookMarkets.get key with
          | none => rw [hm] at hflag; cases hflag
          | some m => exact ⟨m, rfl⟩
        obtain ⟨htold, m', hm'⟩ := serveForcedRebaseline_told (a := a) hm b now wall
        exact ⟨htold, Sound.of_market (by rw [hm']; rfl)⟩
      · exact ⟨.silent (.refl _), hs⟩
    generalize (if (a.bookMarkets.get key).any (·.rebaseline) then a.serveForcedRebaseline key b now wall
      else (a, [], true)) = r at hserve ⊢
    obtain ⟨a₁, out, go⟩ := r
    simp only at hserve ⊢
    split
    · rw [view_shedOverBudget]
      exact .next hserve.1 (raceBatch_told hserve.2 b publisher now wall)
    · exact hserve.1

end EdgeConnect.Arbiter
