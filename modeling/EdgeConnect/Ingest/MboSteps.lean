import EdgeConnect.Ingest.MboView

/-!
# The calls of the Market-by-Order processor move its view

* `setSynced_steps`, `bookFor_cases`, `evictBook_steps`, … — what each helper of the processor does to its view;
* `onMessage_steps` — one message; `begin_steps`, `emitPass_steps` — the two ends of a datagram.
-/

set_option autoImplicit false

namespace EdgeConnect.MboFeed

open Ingest
open Mbo (BookState DeltaOp OrderChange)
open CodecMbo (Message)

section Helpers

variable {P S : Type} {rd : Render P S} {cx : Ctx} {R : Rules P S} {past : List (Out P S)} {f : Frame P S}
  {r : Run P S} {key : OrderBookKey}

theorem emit_view (o : Out P S) : (r.emit o).view past f = (r.view past f).emit o := by
  unfold Run.view Run.emit Frame.view View.emit
  simp

theorem marketKey_view (key : OrderBookKey) : (r.view past f).marketKey rd cx key = Run.marketKey rd cx r.proc key := rfl

theorem tell_steps {o : Out P S} (h : o.quiet = true) : Steps rd cx R (r.view past f) ((r.emit o).view past f) := by
  rw [emit_view]
  exact .single (.tell _ o h)

theorem forgetSourcePath_steps :
    Steps rd cx R (r.view past f) ((r.forgetSourcePath rd cx key).view past f) := by
  unfold Run.forgetSourcePath
  split
  · exact .refl
  · rename_i market hmarket
    rw [emit_view]
    exact .single (.forgetPath _ key market hmarket)

theorem forgetSourcePath_proc : (r.forgetSourcePath rd cx key).proc = r.proc := by
  unfold Run.forgetSourcePath
  split <;> rfl

theorem setSynced_steps {synced : Bool}
    (h : synced = true → (r.proc.books.get key).any BookState.isSynced = true) :
    Steps rd cx R (r.view past f) ((r.setSynced rd cx key synced).view past f) := by
  unfold Run.setSynced
  split
  · exact .refl
  · rename_i hnew
    split
    · exact .refl
    · rename_i market hmarket
      rw [emit_view]
      exact .single (.report _ key synced market hnew hmarket h)

/-- A report touches nothing but the states reported. -/
theorem setSynced_proc (rd : Render P S) (cx : Ctx) (r : Run P S) (key : OrderBookKey) (synced : Bool) : (r.setSynced rd cx key synced).proc =
    { r.proc with syncedReported := (r.setSynced rd cx key synced).proc.syncedReported } := by
  unfold Run.setSynced
  split
  · rfl
  · split <;> rfl

/-- After a report the state reported is filed, unless the market is not known. -/
theorem setSynced_reported (rd : Render P S) (cx : Ctx) (r : Run P S) (key : OrderBookKey) (synced : Bool) :
    (r.setSynced rd cx key synced).proc.syncedReported.get key = some synced ∨
    Run.marketKey rd cx r.proc key = none := by
  unfold Run.setSynced
  split
  · rename_i h
    exact .inl h
  · split
    · rename_i h
      exact .inr h
    · exact .inl (FinMap.get_insert_self _ _ _)

theorem foldl_steps {κ : Type} (step : Run P S → κ → Run P S)
    (h : ∀ r k, Steps rd cx R (r.view past f) ((step r k).view past f)) :
    ∀ (l : List κ) (r : Run P S), Steps rd cx R (r.view past f) ((l.foldl step r).view past f)
  | [], _ => .refl
  | k :: l, r => (h r k).trans (foldl_steps step h l (step r k))

theorem resetAllKnownDepthFloors_steps :
    Steps rd cx R (r.view past f) ((r.resetAllKnownDepthFloors rd cx).view past f) := by
  unfold Run.resetAllKnownDepthFloors
  refine foldl_steps _ (fun r k => ?_) _ _
  split
  · exact tell_steps rfl
  · exact .refl

theorem resetAllKnownDepthFloors_proc : (r.resetAllKnownDepthFloors rd cx).proc = r.proc := by
  unfold Run.resetAllKnownDepthFloors
  exact foldl_keeps Run.proc _ (fun r k => by split <;> rfl) _ r

theorem resetAllKnownBookEvents_steps :
    Steps rd cx R (r.view past f) ((r.resetAllKnownBookEvents rd cx).view past f) := by
  unfold Run.resetAllKnownBookEvents
  refine foldl_steps _ (fun r k => ?_) _ _
  split
  · exact .refl
  · exact tell_steps rfl

theorem resetAllKnownBookEvents_proc : (r.resetAllKnownBookEvents rd cx).proc = r.proc := by
  unfold Run.resetAllKnownBookEvents
  exact foldl_keeps Run.proc _ (fun r k => by split <;> rfl) _ r

theorem unreveal_steps (h : r.proc.syncedReported.get key = some true → Run.marketKey rd cx r.proc key = none) :
    Steps rd cx R (r.view past f) ((r.unreveal key).view past f) :=
  .single (.unreveal (r.view past f) key h)

theorem evictBook_steps (old : OrderBookKey) :
    Steps rd cx R (r.view past f) ((r.evictBook rd cx old).view past f) := by
  have hdrop : Steps rd cx R (r.view past f) ((r.dropBook old).view past f) := .single (.drop (r.view past f) old)
  have hreported : (r.dropBook old).proc.syncedReported.get old = none := FinMap.get_erase_self _ _
  unfold Run.evictBook
  simp only
  generalize r.dropBook old = r₁ at hdrop hreported ⊢
  have hforget : Steps rd cx R (r₁.view past f) ((r₁.forgetSourcePath rd cx old).view past f) := forgetSourcePath_steps
  have hproc : (r₁.forgetSourcePath rd cx old).proc = r₁.proc := forgetSourcePath_proc
  generalize r₁.forgetSourcePath rd cx old = r₂ at hforget hproc ⊢
  have hunreveal : Steps rd cx R (r₂.view past f) ((r₂.unreveal old).view past f) :=
    unreveal_steps fun h => by
      rw [hproc, hreported] at h
      cases h
  refine hdrop.trans (hforget.trans (hunreveal.trans ?_))
  split
  · exact .refl
  · split
    · exact tell_steps rfl
    · exact .refl

theorem evictBook_proc (old : OrderBookKey) :
    (r.evictBook rd cx old).proc = ((r.dropBook old).unreveal old).proc := by
  have hproc : ((r.dropBook old).forgetSourcePath rd cx old |>.unreveal old).proc =
      ((r.dropBook old).unreveal old).proc := by
    unfold Run.unreveal
    rw [forgetSourcePath_proc]
  rw [← hproc]
  unfold Run.evictBook
  simp only
  split
  · rfl
  · split <;> rfl

/-- The book of an instrument with a definition is there, after some were dropped. -/
theorem bookFor_cases (rd : Render P S) (cx : Ctx) (R : Rules P S) (past : List (Out P S)) (f : Frame P S)
    (r : Run P S) (id : Nat) :
    (r.proc.state.definition cx.publisher id = none ∧ r.bookFor rd cx id = (r, none)) ∨
      ∃ b r', (r.proc.state.definition cx.publisher id).isSome = true ∧ r.bookFor rd cx id = (r', some b) ∧
        Steps rd cx R (r.view past f) (r'.view past f) ∧ r'.proc.state = r.proc.state ∧
        r'.proc.books.get ⟨cx.publisher, id⟩ = some b := by
  unfold Run.bookFor
  cases hd : r.proc.state.definition cx.publisher id with
  | none => exact .inl ⟨rfl, rfl⟩
  | some d =>
    simp only
    cases hb : r.proc.books.get ⟨cx.publisher, id⟩ with
    | some b => exact .inr ⟨b, r, rfl, rfl, .refl, rfl, hb⟩
    | none =>
      let Kept (r' : Run P S) : Prop :=
        Steps rd cx R (r.view past f) (r'.view past f) ∧ r'.proc.state = r.proc.state ∧
          r'.proc.books.get ⟨cx.publisher, id⟩ = none
      have hdrop : ∀ (r' : Run P S) (old : OrderBookKey), Kept r' → Kept (r'.evictBook rd cx old) := by
        rintro r' old ⟨hsteps, hstate, hget⟩
        refine ⟨hsteps.trans (evictBook_steps old), ?_, ?_⟩
        · rw [evictBook_proc]
          exact hstate
        · rw [evictBook_proc]
          show (r'.proc.books.erase old).get _ = none
          rw [FinMap.get_erase]
          split
          · rfl
          · exact hget
      obtain ⟨hsteps, hstate, hget⟩ := evictWhile_rule (fun r : Run P S => decide (r.proc.books.size ≥ MAX_BOOKS))
        (Run.evictBook rd cx) hdrop r.proc.booksOrder r ⟨.refl, rfl, hb⟩
      refine .inr ⟨.new, _, rfl, rfl, hsteps.tail ?_, hstate, FinMap.get_insert_self _ _ _⟩
      refine Move.fresh _ id ?_ hget
      show (PerPublisher.definition _ cx.publisher id).isSome = true
      rw [hstate, hd]
      rfl

/-- What a pass of unsynced reports leaves reported as synced was so before, and has no market if the pass came by. -/
theorem unsync_foldl (rd : Render P S) (cx : Ctx) : ∀ (ks : List OrderBookKey) (r : Run P S),
    (ks.foldl (fun r k => r.setSynced rd cx k false) r).proc =
        { r.proc with
          syncedReported := (ks.foldl (fun r k => r.setSynced rd cx k false) r).proc.syncedReported } ∧
      ∀ k, (ks.foldl (fun r k => r.setSynced rd cx k false) r).proc.syncedReported.get k = some true →
        r.proc.syncedReported.get k = some true ∧ (k ∈ ks → Run.marketKey rd cx r.proc k = none)
  | [], _ => ⟨rfl, fun _ h => ⟨h, fun hk => absurd hk List.not_mem_nil⟩⟩
  | key :: ks, r => by
    have hproc := setSynced_proc rd cx r key false
    have hself := setSynced_reported rd cx r key false
    have hother : ∀ k, k ≠ key →
        (r.setSynced rd cx key false).proc.syncedReported.get k = r.proc.syncedReported.get k := by
      intro k hk
      unfold Run.setSynced
      split
      · rfl
      · split
        · rfl
        · exact FinMap.get_insert_of_ne _ _ hk
    rw [List.foldl_cons]
    obtain ⟨hrest, hkept⟩ := unsync_foldl rd cx ks (r.setSynced rd cx key false)
    have hmarket : ∀ k, Run.marketKey rd cx (r.setSynced rd cx key false).proc k = Run.marketKey rd cx r.proc k := by
      intro k
      rw [hproc]
      rfl
    refine ⟨hrest.trans (by rw [hproc]), fun k hk => ?_⟩
    obtain ⟨hbefore, hpassed⟩ := hkept k hk
    by_cases hkey : k = key
    · subst hkey
      rcases hself with hfalse | hnone
      · rw [hfalse] at hbefore
        cases hbefore
      · refine ⟨?_, fun _ => hnone⟩
        unfold Run.setSynced at hbefore
        split at hbefore
        · exact hbefore
        · rw [hnone] at hbefore
          exact hbefore
    · refine ⟨(hother k hkey) ▸ hbefore, fun hmem => ?_⟩
      rw [← hmarket]
      exact hpassed ((List.mem_cons.mp hmem).resolve_left hkey)

theorem forgetSourcePath_foldl_proc (rd : Render P S) (cx : Ctx) (ks : List OrderBookKey) (r : Run P S) :
    (ks.foldl (Run.forgetSourcePath rd cx) r).proc = r.proc :=
  foldl_keeps Run.proc _ (fun _ _ => forgetSourcePath_proc) ks r

theorem forgetPublisher_steps (publisher : IpAddr) :
    Steps rd cx R (r.view past f) ((r.forgetPublisher rd cx publisher).view past f) := by
  unfold Run.forgetPublisher
  simp only
  generalize hks : visit cx.order (r.proc.syncedReported.keys.filter fun k =>
    k.publisher = publisher ∧ r.proc.syncedReported.get k = some true) = ks
  have hstale := unsync_foldl rd cx ks r
  have hreports : Steps rd cx R (r.view past f) _ := foldl_steps (fun r k => r.setSynced rd cx k false)
    (fun r k => show Steps rd cx R (r.view past f) _ from setSynced_steps nofun) ks r
  generalize ks.foldl (fun r k => r.setSynced rd cx k false) r = r₁ at hstale hreports ⊢
  have hbooks : Steps rd cx R (r₁.view past f) ((r₁.purgeBooks publisher).view past f) := by
    refine .single (.purgeBooks (r₁.view past f) publisher fun k hk hreported => ?_)
    obtain ⟨hbefore, hpassed⟩ := hstale.2 k hreported
    rw [marketKey_view, hstale.1]
    refine hpassed ?_
    rw [← hks]
    exact mem_visit.mpr (Finset.mem_filter.mpr ⟨FinMap.mem_keys_iff.mpr ⟨true, hbefore⟩, hk, hbefore⟩)
  have hgone : ∀ k : OrderBookKey, k.publisher = publisher →
      (r₁.purgeBooks publisher).proc.books.get k = none ∧
        (r₁.purgeBooks publisher).proc.syncedReported.get k = none := by
    intro k hk
    refine ⟨?_, ?_⟩
    · show (r₁.proc.books.filter _).get k = none
      simp [hk]
    · show (r₁.proc.syncedReported.filter _).get k = none
      simp [hk]
  generalize r₁.purgeBooks publisher = r₂ at hbooks hgone ⊢
  generalize visit cx.order (r₂.proc.revealed.keys.filter fun k => k.publisher = publisher) = named
  have hpaths : Steps rd cx R (r₂.view past f) _ := foldl_steps (Run.forgetSourcePath rd cx)
    (fun r k => show Steps rd cx R (r.view past f) _ from forgetSourcePath_steps) named r₂
  have hproc := forgetSourcePath_foldl_proc rd cx named r₂
  generalize named.foldl (Run.forgetSourcePath rd cx) r₂ = r₃ at hpaths hproc ⊢
  rw [← hproc] at hgone
  exact hreports.trans (hbooks.trans (hpaths.tail (.purgeNames (r₃.view past f) publisher hgone)))

end Helpers

/-! ## One message -/

section Messages

variable {P S : Type} {rd : Render P S} {cx : Ctx} {R : Rules P S} {past : List (Out P S)} {v₀ : View P S} {m : Message}

theorem touch_steps (f : Frame P S) (ids : Finset Nat) :
    Steps rd cx R (f.view past) ({ f with touched := f.touched ∪ ids }.view past) :=
  .single (.touch (f.view past) ids)

theorem insert_touch_steps (f : Frame P S) (id : Nat) :
    Steps rd cx R (f.view past) ({ f with touched := insert id f.touched }.view past) := by
  have h : Steps rd cx R (f.view past) _ := touch_steps f {id}
  rwa [Finset.union_comm, ← Finset.insert_eq] at h

theorem revealIfNeeded_cases (rd : Render P S) (cx : Ctx) (past : List (Out P S)) (f : Frame P S) (r : Run P S)
    (id sourceId : Nat) :
    r.revealIfNeeded rd cx id sourceId = (r, false) ∨
      ∃ d symbol, r.proc.state.definition cx.publisher id = some d ∧
        r.proc.revealed.get ⟨cx.publisher, id⟩ ≠ some sourceId ∧ (r.revealIfNeeded rd cx id sourceId).2 = true ∧
        (r.revealIfNeeded rd cx id sourceId).1.view past f =
          (r.view past f).reveal rd cx ⟨cx.publisher, id⟩ sourceId d symbol := by
  unfold Run.revealIfNeeded
  simp only
  by_cases hp : r.proc.revealed.get ⟨cx.publisher, id⟩ = some sourceId
  · rw [if_pos hp]
    exact .inl rfl
  · rw [if_neg hp]
    cases hd : r.proc.state.definition cx.publisher id with
    | none => exact .inl rfl
    | some d =>
      refine .inr ⟨d, (r.proc.emittedSymbol.get ⟨cx.publisher, id⟩).getD d.symbol, rfl, hp, rfl, ?_⟩
      simp only
      rw [emit_view, emit_view]
      unfold View.reveal
      rw [show (r.view past f).revealed.get ⟨cx.publisher, id⟩ = r.proc.revealed.get ⟨cx.publisher, id⟩ from rfl]
      cases r.proc.revealed.get ⟨cx.publisher, id⟩ with
      | none => rfl
      | some old =>
        unfold Run.emit Run.view Frame.view View.emit
        simp
        exact ⟨rfl, rfl, rfl⟩

theorem onReveal_steps (hm : R.message v₀ m) (f : Frame P S) (id sourceId : Nat) :
    Steps rd cx R (f.view past) ((f.onReveal rd cx id sourceId).view past) := by
  unfold Frame.onReveal
  rcases revealIfNeeded_cases rd cx past f f.toRun id sourceId with heq | ⟨d, symbol, hd, hne, hnew, hview⟩
  · rw [heq]
  · generalize f.toRun.revealIfNeeded rd cx id sourceId = x at hnew hview
    obtain ⟨r, isNew⟩ := x
    subst hnew
    simp only
    have hmove (due : Option Nat) : Steps rd cx R (f.view past)
        (((f.view past).reveal rd cx ⟨cx.publisher, id⟩ sourceId d symbol).owe cx id due) :=
      .single (.reveal _ v₀ m hm id sourceId d hd hne symbol due)
    rw [show (f.view past).reveal rd cx ⟨cx.publisher, id⟩ sourceId d symbol = r.view past f from hview.symm] at hmove
    unfold Run.revealRebaselineDue
    by_cases hdue : (r.proc.revealRebaselinedNs.get ⟨cx.publisher, id⟩).any fun last =>
        cx.monoNs - last < REVEAL_REBASELINE_INTERVAL_NS
    · rw [if_pos hdue]
      exact hmove none
    · rw [if_neg hdue]
      exact hmove (some cx.monoNs)

theorem applyDelta_steps (hm : R.message v₀ m) (f : Frame P S) (id : Nat) (op : DeltaOp) :
    Steps rd cx R (f.view past) ((f.applyDelta rd cx id op).view past) := by
  unfold Frame.applyDelta
  refine (insert_touch_steps f id).trans ?_
  generalize ({ f with touched := insert id f.touched } : Frame P S) = f
  simp only
  rcases bookFor_cases rd cx R past f f.toRun id with ⟨-, heq⟩ | ⟨b, r, -, heq, hsteps, -, hb⟩
  · rw [heq]
  · rw [heq]
    exact Relation.ReflTransGen.tail hsteps (.delta (r.view past f) v₀ m hm id op b hb)

theorem onDelta_steps (hm : R.message v₀ m) (f : Frame P S) (id sourceId : Nat) (op : DeltaOp) :
    Steps rd cx R (f.view past) ((f.onDelta rd cx id sourceId op).view past) :=
  (applyDelta_steps hm f id op).trans (onReveal_steps hm _ id sourceId)

theorem onOrderExecute_steps (hm : R.message v₀ m) (f : Frame P S) (sequence : Nat) (o : CodecMbo.OrderExecute) :
    Steps rd cx R (f.view past) ((f.onOrderExecute rd cx sequence o).view past) := by
  unfold Frame.onOrderExecute
  refine (onDelta_steps hm f o.instrumentId o.sourceId
    ⟨o.perInstrumentSeq, sequence, o.ts, .execute o.orderId o.execQtyRaw (decide (o.execFlags &&& 0x01 ≠ 0))⟩).trans ?_
  simp only
  split
  · exact .refl
  · split
    · exact tell_steps rfl
    · exact .refl

theorem onTrade_steps (hm : R.message v₀ m) (f : Frame P S) (t : Codec.Trade) :
    Steps rd cx R (f.view past) ((f.onTrade rd cx t).view past) := by
  unfold Frame.onTrade
  split
  · exact .refl
  · refine (onReveal_steps hm f t.instrumentId t.sourceId).trans ?_
    simp only
    split
    · exact tell_steps rfl
    · exact .refl

theorem reannounce_steps (f : Frame P S) (r : Run P S) (key : OrderBookKey) (channel : Nat)
    (d : InstrumentDefinition) :
    Steps rd cx R (r.view past f) ((r.reannounce rd cx key channel d).view past f) := by
  unfold Run.reannounce
  split
  · exact .refl
  · split
    · exact tell_steps rfl
    · exact .refl

theorem reannounce_proc (rd : Render P S) (cx : Ctx) (r : Run P S) (key : OrderBookKey) (channel : Nat)
    (d : InstrumentDefinition) : (r.reannounce rd cx key channel d).proc = r.proc := by
  unfold Run.reannounce
  split
  · rfl
  · split <;> rfl

/-- A definition defines its own instrument. -/
theorem define_definition (r : Run P S) (d : InstrumentDefinition) (p : IpAddr) (i : Nat) (d' : InstrumentDefinition)
    (h : (r.define cx d).proc.state.definition p i = some d') :
    r.proc.state.definition p i = some d' ∨ (p = cx.publisher ∧ i = d.instrumentId ∧ d' = d) :=
  PerPublisher.modify_definition (Q := fun i d' => i = d.instrumentId ∧ d' = d)
    (fun _ _ _ hd => RefDataState.onInstrumentDefinition_definition hd) h

theorem onInstrumentDefinition_steps (f : Frame P S) (channel : Nat) (d : InstrumentDefinition)
    (hm : R.message (f.view past) (.instrumentDefinition d)) :
    Steps rd cx R (f.view past) ((f.onInstrumentDefinition rd cx channel d).view past) := by
  unfold Frame.onInstrumentDefinition
  simp only
  have hlabel : Steps rd cx R (f.view past)
      ((f.toRun.setChannel ⟨cx.publisher, d.instrumentId⟩ channel).view past f) :=
    .single (.label (f.view past) d hm channel)
  have hannounce : Steps rd cx R ((f.toRun.setChannel ⟨cx.publisher, d.instrumentId⟩ channel).view past f) _ :=
    reannounce_steps f (f.toRun.setChannel ⟨cx.publisher, d.instrumentId⟩ channel) ⟨cx.publisher, d.instrumentId⟩
      channel d
  have hproc := reannounce_proc rd cx (f.toRun.setChannel ⟨cx.publisher, d.instrumentId⟩ channel)
    ⟨cx.publisher, d.instrumentId⟩ channel d
  generalize (f.toRun.setChannel ⟨cx.publisher, d.instrumentId⟩ channel).reannounce rd cx ⟨cx.publisher, d.instrumentId⟩
    channel d = r at hannounce hproc ⊢
  have hdefine : Steps rd cx R (r.view past f) ((r.define cx d).view past f) :=
    .single (.define (r.view past f) (f.view past) d hm _ (define_definition r d))
  have hsame : (f.view past).books = ((r.define cx d).view past f).books ∧
      (f.view past).revealed = ((r.define cx d).view past f).revealed := by
    refine ⟨?_, ?_⟩
    · show f.proc.books = r.proc.books
      rw [hproc]
      rfl
    · show f.proc.revealed = r.proc.revealed
      rw [hproc]
      rfl
  refine hlabel.trans (hannounce.trans (hdefine.trans ?_))
  cases hsource : d.sourceId with
  | none => exact .refl
  | some sourceId =>
    rcases revealIfNeeded_cases rd cx past f (r.define cx d) d.instrumentId sourceId with
      heq | ⟨d', symbol, hd, hne, -, hview⟩
    · simp only
      rw [heq]
      exact .refl
    · refine .single ?_
      show Move rd cx R _ (((r.define cx d).revealIfNeeded rd cx d.instrumentId sourceId).1.view past f)
      rw [hview]
      exact .revealDefined _ (f.view past) d d' hm hsame.1 hsame.2 sourceId hsource hd hne symbol

theorem onEndOfSession_steps (f : Frame P S) :
    Steps rd cx R (f.view past) ((f.onEndOfSession rd cx).view past) := by
  unfold Frame.onEndOfSession
  simp only
  have hend : Steps rd cx R (f.view past) (f.toRun.endBooks.view past f) := .single (.endSession (f.view past))
  generalize f.toRun.endBooks = r₁ at hend ⊢
  generalize visit cx.order (r₁.proc.books.keys.filter fun k => k.publisher ≠ cx.publisher) = peers
  have hpeers : Steps rd cx R (r₁.view past f) _ := foldl_steps (fun r k => r.setSynced rd cx k false)
    (fun r k => show Steps rd cx R (r.view past f) _ from setSynced_steps nofun) peers r₁
  generalize peers.foldl (fun r k => r.setSynced rd cx k false) r₁ = r₂ at hpeers ⊢
  have hfloors : Steps rd cx R (r₂.view past f) ((r₂.resetAllKnownDepthFloors rd cx).view past f) :=
    resetAllKnownDepthFloors_steps
  generalize r₂.resetAllKnownDepthFloors rd cx = r₃ at hfloors ⊢
  have hevents : Steps rd cx R (r₃.view past f) ((r₃.resetAllKnownBookEvents rd cx).view past f) :=
    resetAllKnownBookEvents_steps
  generalize r₃.resetAllKnownBookEvents rd cx = r₄ at hevents ⊢
  exact hend.trans (hpeers.trans (hfloors.trans (hevents.trans (touch_steps { f with
    toRun := { r₄ with proc := { r₄.proc with lastTop := ∅, emittedSymbol := ∅ } } } _))))

theorem onInstrumentReset_steps (f : Frame P S) (id newAnchorSeq : Nat) :
    Steps rd cx R (f.view past) ((f.onInstrumentReset rd cx id newAnchorSeq).view past) := by
  unfold Frame.onInstrumentReset
  simp only
  have hreport : Steps rd cx R (f.view past) ((f.toRun.setSynced rd cx ⟨cx.publisher, id⟩ false).view past f) :=
    setSynced_steps nofun
  have hunsynced : (f.toRun.setSynced rd cx ⟨cx.publisher, id⟩ false).proc.syncedReported.get ⟨cx.publisher, id⟩ =
      some true → Run.marketKey rd cx (f.toRun.setSynced rd cx ⟨cx.publisher, id⟩ false).proc ⟨cx.publisher, id⟩ =
        none := by
    intro h
    rcases setSynced_reported rd cx f.toRun ⟨cx.publisher, id⟩ false with hr | hr
    · rw [hr] at h
      cases h
    · rw [setSynced_proc]
      exact hr
  generalize f.toRun.setSynced rd cx ⟨cx.publisher, id⟩ false = r₁ at hreport hunsynced ⊢
  have htop : Steps rd cx R (r₁.view past f) ((r₁.forgetTop ⟨cx.publisher, id⟩).view past f) :=
    .single (.unstamp (r₁.view past f) ⟨cx.publisher, id⟩)
  have hunsynced : (r₁.forgetTop ⟨cx.publisher, id⟩).proc.syncedReported.get ⟨cx.publisher, id⟩ = some true →
      Run.marketKey rd cx (r₁.forgetTop ⟨cx.publisher, id⟩).proc ⟨cx.publisher, id⟩ = none := hunsynced
  generalize r₁.forgetTop ⟨cx.publisher, id⟩ = r₂ at htop hunsynced ⊢
  have hpath : Steps rd cx R (r₂.view past f) ((r₂.forgetSourcePath rd cx ⟨cx.publisher, id⟩).view past f) :=
    forgetSourcePath_steps
  rw [← show (r₂.forgetSourcePath rd cx ⟨cx.publisher, id⟩).proc = r₂.proc from forgetSourcePath_proc] at hunsynced
  generalize Run.marketKey rd cx r₂.proc ⟨cx.publisher, id⟩ = market
  generalize Run.wireVenue rd r₂.proc ⟨cx.publisher, id⟩ = source
  generalize r₂.forgetSourcePath rd cx ⟨cx.publisher, id⟩ = r₃ at hpath hunsynced ⊢
  have hunreveal : Steps rd cx R (r₃.view past f) ((r₃.unreveal ⟨cx.publisher, id⟩).view past f) :=
    unreveal_steps hunsynced
  generalize r₃.unreveal ⟨cx.publisher, id⟩ = r₄ at hunreveal ⊢
  refine hreport.trans (htop.trans (hpath.trans (hunreveal.trans ?_)))
  generalize ((r₄.proc.emittedSymbol.get ⟨cx.publisher, id⟩).or
    ((r₄.proc.state.definition cx.publisher id).map InstrumentDefinition.symbol)) = symbol
  have hfloor : Steps rd cx R (r₄.view past f) ((r₄.resetDepthFloorOf rd cx symbol source).view past f) := by
    unfold Run.resetDepthFloorOf
    split
    · exact tell_steps rfl
    · exact resetAllKnownDepthFloors_steps
  generalize r₄.resetDepthFloorOf rd cx symbol source = r₅ at hfloor ⊢
  have hevents : Steps rd cx R (r₅.view past f) ((r₅.resetBookEventsOf market).view past f) := by
    unfold Run.resetBookEventsOf
    split
    · exact .refl
    · exact tell_steps rfl
  generalize r₅.resetBookEventsOf market = r₆ at hevents ⊢
  refine hfloor.trans (hevents.trans ?_)
  cases hb : r₆.proc.books.get ⟨cx.publisher, id⟩ with
  | none => exact .refl
  | some b => exact .single (.resetBook (r₆.view past f) id newAnchorSeq b hb)

theorem onSnapshotBegin_steps (f : Frame P S) (s : CodecMbo.SnapshotBegin) (hm : R.message v₀ (.snapshotBegin s)) :
    Steps rd cx R (f.view past) ((f.onSnapshotBegin rd cx s).view past) := by
  unfold Frame.onSnapshotBegin
  refine (insert_touch_steps f s.instrumentId).trans ?_
  generalize ({ f with touched := insert s.instrumentId f.touched } : Frame P S) = f
  simp only
  rcases bookFor_cases rd cx R past f f.toRun s.instrumentId with ⟨-, heq⟩ | ⟨b, r, -, heq, hsteps, -, hb⟩
  · rw [heq]
  · rw [heq]
    exact Relation.ReflTransGen.tail hsteps (.snapshotBegin (r.view past f) v₀ s hm b hb)

theorem endGroup_steps (f : Frame P S) (e : CodecMbo.SnapshotEnd) (hm : R.message v₀ (.snapshotEnd e)) :
    Steps rd cx R (f.view past) ((f.endGroup rd cx e).view past) := by
  unfold Frame.endGroup
  rcases bookFor_cases rd cx R past f f.toRun e.instrumentId with ⟨-, heq⟩ | ⟨b, r, -, heq, hsteps, -, hb⟩
  · rw [heq]
  · rw [heq]
    exact Relation.ReflTransGen.tail hsteps (.snapshotEnd (r.view past f) v₀ e hm b hb)

theorem onSnapshotEnd_steps (f : Frame P S) (e : CodecMbo.SnapshotEnd) (hm : R.message v₀ (.snapshotEnd e)) :
    Steps rd cx R (f.view past) ((f.onSnapshotEnd rd cx e).view past) :=
  (endGroup_steps f e hm).trans (insert_touch_steps _ e.instrumentId)

/-- **One message.** -/
theorem onMessage_steps (h : CodecCommon.DatagramHeader) (f : Frame P S) (m : Message)
    (hm : R.message (f.view past) m) :
    Steps rd cx R (f.view past) ((f.onMessage rd cx h m).view past) := by
  cases m with
  | instrumentDefinition d =>
    simp only [Frame.onMessage]
    split
    · exact onInstrumentDefinition_steps f _ d hm
    · exact .refl
  | manifestSummary s =>
    simp only [Frame.onMessage]
    split
    · refine .single (.undefine (f.view past) _ fun p i d hd => ?_)
      rcases PerPublisher.modify_definition (Q := fun _ _ => False)
        (fun _ _ _ h => .inl (RefDataState.onManifest_definition h)) hd with hd | ⟨-, hd⟩
      · exact hd
      · exact hd.elim
    · exact .refl
  | trade t => exact onTrade_steps hm f t
  | orderAdd o => exact onDelta_steps hm f _ _ _
  | orderCancel o => exact onDelta_steps hm f _ _ _
  | orderExecute o => exact onOrderExecute_steps hm f _ o
  | instrumentReset r => exact onInstrumentReset_steps f _ _
  | snapshotBegin s => exact onSnapshotBegin_steps f s hm
  | snapshotOrder s => exact .single (.snapshotOrder (f.view past) s hm)
  | snapshotEnd e => exact onSnapshotEnd_steps f e hm
  | endOfSession ts => exact onEndOfSession_steps f
  | batchBoundary _ _ | heartbeat | other _ => exact .refl

end Messages

/-! ## The two ends of a datagram -/

section Datagrams

variable {P S : Type} {rd : Render P S} {cx : Ctx} {R : Rules P S} {past : List (Out P S)} {v₀ : View P S}

theorem begin_steps (h : CodecCommon.DatagramHeader) (p : MboProcessor) :
    Steps rd cx R (p.view past) ((begin rd cx h p).view past) := by
  unfold begin
  simp only
  split
  · generalize hstate : p.state.modify cx.publisher (fun s => s.onDatagram h.resetCount.toNat) = state
    have hdefs : ∀ q i d, state.definition q i = some d → p.state.definition q i = some d := by
      intro q i d hd
      rw [← hstate] at hd
      rcases PerPublisher.modify_definition (Q := fun _ _ => False)
        (fun _ _ _ h => .inl (RefDataState.onDatagram_definition h)) hd with hd | ⟨-, hd⟩
      · exact hd
      · exact hd.elim
    have hbegin : Steps rd cx R (p.view past) ((⟨⟨{ p with state := { state with lastEvicted := none } }, []⟩, [], ∅, ∅,
        ∅, ∅⟩ : Frame P S).view past) := .single (.undefine (p.view past) _ hdefs)
    split
    · exact hbegin
    · exact hbegin.trans (forgetPublisher_steps (f := ⟨⟨p, []⟩, [], ∅, ∅, ∅, ∅⟩)
        (r := ⟨{ p with state := { state with lastEvicted := none } }, []⟩) _)
  · exact .refl

theorem emitDepth_steps (f : Frame P S) (r : Run P S) (id : Nat) :
    Steps rd cx R (r.view past f) ((r.emitDepth rd cx id).view past f) := by
  unfold Run.emitDepth
  simp only
  split
  · split
    · split
      · exact .refl
      · exact tell_steps (r := { r with proc := { r.proc with lastTop := _, emittedSymbol := _ } }) rfl
    · exact .refl
  · exact .refl

theorem emitDepth_state (rd : Render P S) (cx : Ctx) (r : Run P S) (id : Nat) : (r.emitDepth rd cx id).proc.state = r.proc.state := by
  unfold Run.emitDepth
  simp only
  split
  · split
    · split <;> rfl
    · rfl
  · rfl

/-- What `emit_book` does: nothing, or one batch of what is published. -/
theorem emitBook_cases (rd : Render P S) (cx : Ctx) (past : List (Out P S)) (f : Frame P S) (r : Run P S) (id : Nat) :
    ((r.view past f).published rd cx id = [] ∧ r.emitBook rd cx f.datagramChanges id (f.modeOf id) = r) ∨
      ∃ batch, (r.view past f).marketKey rd cx ⟨cx.publisher, id⟩ = some (batchMarket batch) ∧
        batch.changes = (r.view past f).published rd cx id ∧ (r.view past f).published rd cx id ≠ [] ∧
        r.emitBook rd cx f.datagramChanges id (f.modeOf id) =
          r.emit (.book ⟨cx.publisher, id⟩ ((r.view past f).mode id) batch) := by
  have hmode : (r.view past f).mode id = f.modeOf id := rfl
  unfold Run.emitBook View.published View.marketKey
  rw [hmode]
  simp only
  rw [show (r.view past f).revealed = r.proc.revealed from rfl, show (r.view past f).books = r.proc.books from rfl,
    show (r.view past f).defs = r.proc.state.definition from rfl,
    show (r.view past f).datagramChanges = f.datagramChanges from rfl]
  cases hrevealed : r.proc.revealed.get ⟨cx.publisher, id⟩ with
  | none => exact .inl ⟨rfl, rfl⟩
  | some sourceId =>
    cases r.proc.books.get ⟨cx.publisher, id⟩ with
    | none => exact .inl ⟨rfl, rfl⟩
    | some b =>
      cases r.proc.state.definition cx.publisher id with
      | none => exact .inl ⟨rfl, rfl⟩
      | some d =>
        simp only
        by_cases hs : b.isSynced = true
        · rw [if_pos hs, if_pos hs]
          by_cases hne : Run.bookChanges rd (f.modeOf id) d b id f.datagramChanges = []
          · rw [if_pos hne]
            exact .inl ⟨hne, rfl⟩
          · rw [if_neg hne]
            exact .inr ⟨_, rfl, rfl, hne, rfl⟩
        · rw [if_neg hs, if_neg hs]
          exact .inl ⟨rfl, rfl⟩

theorem emitOne_steps (f : Frame P S) (r : Run P S) {id : Nat} (hfin : R.publish v₀ id)
    (hdefs : v₀.defs = r.proc.state.definition) (hin : id ∈ f.changed) :
    Steps rd cx R (r.view past f) ((f.emitOne rd cx r id).view past { f with changed := f.changed.erase id }) := by
  unfold Frame.emitOne
  have hdepth : Steps rd cx R (r.view past f) ((r.emitDepth rd cx id).view past f) := emitDepth_steps f r id
  rw [← emitDepth_state rd cx r id] at hdefs
  generalize r.emitDepth rd cx id = r₁ at hdepth hdefs ⊢
  rcases emitBook_cases rd cx past f r₁ id with ⟨hnothing, heq⟩ | ⟨batch, hmarket, hchanges, hne, heq⟩
  · rw [heq]
    exact hdepth.tail (.pass (r₁.view past f) v₀ id hin hfin hdefs hnothing)
  · rw [heq]
    have hmove : Move rd cx R (r₁.view past f)
        (((r₁.view past f).emit (.book ⟨cx.publisher, id⟩ ((r₁.view past f).mode id) batch)).pass id) :=
      .publish (r₁.view past f) v₀ id hin hfin hdefs batch hmarket hchanges hne
    rw [← emit_view] at hmove
    exact hdepth.tail hmove

theorem emitOne_state (f : Frame P S) (r : Run P S) (id : Nat) :
    (f.emitOne rd cx r id).proc.state = r.proc.state := by
  unfold Frame.emitOne
  rw [← emitDepth_state rd cx r id]
  unfold Run.emitBook
  simp only
  split
  · split
    · split <;> rfl
    · rfl
  · rfl

/-- The changed instruments have their turn, one after the other. -/
theorem emit_foldl_steps : ∀ (ids : List Nat) (f : Frame P S) (r : Run P S), ids.Nodup → ids.toFinset = f.changed →
    (∀ id ∈ ids, R.publish v₀ id) → v₀.defs = r.proc.state.definition →
    Steps rd cx R (r.view past f) ((ids.foldl (f.emitOne rd cx) r).view past { f with changed := ∅ })
  | [], f, r, _, hchanged, _, _ => by
    have hempty : f.changed = ∅ := by rw [← hchanged, List.toFinset_nil]
    rw [← hempty]
    exact .refl
  | id :: ids, f, r, hnodup, hchanged, hfin, hdefs => by
    have hmem : id ∉ ids := (List.nodup_cons.mp hnodup).1
    have hone : Steps rd cx R (r.view past f) _ := emitOne_steps f r (hfin id List.mem_cons_self) hdefs
      (by rw [← hchanged]; simp)
    have hrest := emit_foldl_steps ids { f with changed := f.changed.erase id } (f.emitOne rd cx r id)
      (List.nodup_cons.mp hnodup).2
      (by rw [← hchanged, List.toFinset_cons, Finset.erase_insert (by simpa using hmem)])
      (fun i hi => hfin i (List.mem_cons_of_mem _ hi)) (by rw [emitOne_state]; exact hdefs)
    exact hone.trans hrest

theorem reports_steps (f : Frame P S) (ids : List Nat) (r : Run P S) :
    Steps rd cx R (r.view past f) ((ids.foldl (fun r id => r.reportSynced rd cx id) r).view past f) :=
  foldl_steps _ (fun _ _ => setSynced_steps fun h => h) ids r

theorem reports_state (ids : List Nat) (r : Run P S) :
    (ids.foldl (fun r id => r.reportSynced rd cx id) r).proc.state = r.proc.state :=
  foldl_keeps (fun r : Run P S => r.proc.state) _ (fun r id => by unfold Run.reportSynced; rw [setSynced_proc]) ids r

theorem emitPass_steps (f : Frame P S) (hfin : ∀ id ∈ f.changed, R.publish (f.view past) id) :
    Steps rd cx R (f.view past) ((f.emitPass rd cx).view past { f with changed := ∅ }) := by
  unfold Frame.emitPass
  simp only
  refine (reports_steps f (f.touched.sort (· ≤ ·)) f.toRun).trans ?_
  refine emit_foldl_steps (f.changed.sort (· ≤ ·)) f _ (Finset.sort_nodup _ _) (Finset.sort_toFinset _ _)
    (fun id hid => hfin id ((Finset.mem_sort _).mp hid)) ?_
  rw [reports_state]
  rfl

/-- What a datagram's messages promise, each where it comes, and its end. -/
def Promised (R : Rules P S) (rd : Render P S) (cx : Ctx) (h : CodecCommon.DatagramHeader) (past : List (Out P S))
    (f : Frame P S) : List Message → Prop
  | [] => ∀ id ∈ f.changed, R.publish (f.view past) id
  | m :: ms => R.message (f.view past) m ∧ Promised R rd cx h past (f.onMessage rd cx h m) ms

end Datagrams

section Runs

variable {P S : Type}

/-- A datagram of a run, with its context. -/
structure Input where
  cx : Ctx
  datagram : Datagram

def stepWith (rd : Render P S) (p : MboProcessor) (i : Input) : MboProcessor × List (Out P S) :=
  ((onDatagram rd i.cx p i.datagram).proc, (onDatagram rd i.cx p i.datagram).out)

/-- The processor as a machine: each call answers with what it handed on. -/
def processor (rd : Render P S) : Machine MboProcessor Input (List (Out P S)) := ⟨stepWith rd⟩

def after (rd : Render P S) (is : List Input) : MboProcessor := (processor rd).exec .new is

theorem after_append (rd : Render P S) (is : List Input) (i : Input) :
    after rd (is ++ [i]) = (stepWith rd (after rd is) i).1 := by
  unfold after
  rw [Machine.exec_append]
  rfl

end Runs

end EdgeConnect.MboFeed
