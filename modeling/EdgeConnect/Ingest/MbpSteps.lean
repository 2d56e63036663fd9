import EdgeConnect.Ingest.MbpView

/-!
# The calls of the Market-by-Price processor move its view

* `forgetBook_view`, `sendBook_view`, `emitRebaseline_view`, … — what each helper of the processor does to its view;
* `onMessage_steps` — one message; `begin_steps`, `emitPass_steps` — the two ends of a datagram;
* `onDatagram_steps`, `onTick_steps`.

Where a loop takes the open events out of the batching state first and puts the refused ones back at its end, the view
is taken with those it has still to close in their lane: `View.withLane`, `pending`.
-/

set_option autoImplicit false

namespace EdgeConnect.Mbp

open Ingest

section Helpers

variable {P S : Type} {rd : Render P S} {cx : Ctx P S} {past : List (Sending P S)}
  {accum : FinMap Nat (List (Change P S))} {revealedNow : Finset Nat} {r : Run P S} {key : PriceBookKey}

@[simp] theorem view_books : (r.view past accum revealedNow).books = r.proc.books := rfl

@[simp] theorem view_revealed : (r.view past accum revealedNow).revealed = r.proc.revealed := rfl

@[simp] theorem view_defs : (r.view past accum revealedNow).defs = r.proc.state.definition := rfl

@[simp] theorem view_open : (r.view past accum revealedNow).open = r.proc.open := rfl

@[simp] theorem view_lanes : (r.view past accum revealedNow).lanes = lanesOf r.proc := rfl

theorem emit_view_of_none {o : Out P S} (h : o.sent = none) :
    (r.emit o).view past accum revealedNow = r.view past accum revealedNow := by
  unfold Run.view Run.emit
  simp [h]

theorem emit_view {o : Out P S} {s : Sending P S} (h : o.sent = some s) :
    (r.emit o).view past accum revealedNow = (r.view past accum revealedNow).emit s := by
  unfold Run.view Run.emit View.emit
  simp [h]

theorem reportHealth_view (healthy : Bool) :
    (r.reportHealth rd cx key healthy).view past accum revealedNow = r.view past accum revealedNow := by
  unfold Run.reportHealth
  split
  · rfl
  · split
    · rfl
    · simp only
      rw [emit_view_of_none rfl]
      split
      · split
        · rw [emit_view_of_none rfl]
          rfl
        · rfl
      · rfl

theorem forgetSourcePath_view :
    (r.forgetSourcePath rd cx key).view past accum revealedNow = r.view past accum revealedNow := by
  unfold Run.forgetSourcePath
  split
  · rfl
  · exact emit_view_of_none rfl

theorem forgetSourcePath_proc : (r.forgetSourcePath rd cx key).proc = r.proc := by
  unfold Run.forgetSourcePath
  split <;> rfl

theorem forgetBook_view :
    (r.forgetBook rd cx key).view past accum revealedNow = (r.view past accum revealedNow).forget key := by
  unfold Run.forgetBook Run.forgetSourcePath
  simp only
  split
  · rfl
  · unfold Run.view View.forget Run.emit
    simp only [List.filterMap_append, List.filterMap_cons, List.filterMap_nil, Out.sent, List.append_nil]
    rfl

theorem withBook_none {R : Type} {f : PriceBook → PriceBook × R} (h : r.proc.books.get key = none) :
    r.withBook key f = (r, none) := by
  unfold Run.withBook
  rw [h]

theorem withBook_some (past : List (Sending P S)) (accum : FinMap Nat (List (Change P S))) (revealedNow : Finset Nat)
    {R : Type} (f : PriceBook → PriceBook × R) {b : PriceBook} (h : r.proc.books.get key = some b) : (r.withBook key f).2 = some (f b).2 ∧
      (r.withBook key f).1.view past accum revealedNow = (r.view past accum revealedNow).setBook key (f b).1 ∧
      (r.withBook key f).1.out = r.out := by
  unfold Run.withBook
  rw [h]
  exact ⟨rfl, rfl, rfl⟩

theorem sendBook_view (past : List (Sending P S)) (accum : FinMap Nat (List (Change P S))) (revealedNow : Finset Nat)
    (r : Run P S) (rd : Render P S) (cx : Ctx P S) (channel id : Nat) (changes : List (Change P S))
    (snapshot last : Bool) :
    (r.sendBook rd cx channel id changes snapshot last).1.view past accum revealedNow =
        ((r.view past accum revealedNow).send ⟨cx.publisher, channel, id⟩ changes last).1 ∧
      (r.sendBook rd cx channel id changes snapshot last).2 =
        ((r.view past accum revealedNow).send ⟨cx.publisher, channel, id⟩ changes last).2 := by
  unfold Run.sendBook View.send
  simp only [view_revealed, view_books, view_defs]
  cases r.proc.revealed.get ⟨cx.publisher, channel, id⟩ with
  | none => exact ⟨rfl, rfl⟩
  | some sourceId =>
    cases r.proc.books.get ⟨cx.publisher, channel, id⟩ with
    | none => exact ⟨rfl, rfl⟩
    | some b =>
      cases r.proc.state.definition cx.publisher id with
      | none => exact ⟨rfl, rfl⟩
      | some d =>
        simp only
        by_cases hs : b.status = .ready
        · rw [if_pos hs, if_pos hs]
          exact ⟨emit_view rfl, rfl⟩
        · rw [if_neg hs, if_neg hs]
          exact ⟨rfl, rfl⟩

theorem emitRebaseline_view (past : List (Sending P S)) (accum : FinMap Nat (List (Change P S)))
    (revealedNow : Finset Nat) (r : Run P S) (rd : Render P S) (cx : Ctx P S) (channel id : Nat) :
    (r.emitRebaseline rd cx channel id).1.view past accum revealedNow =
        ((r.view past accum revealedNow).rebaseline rd ⟨cx.publisher, channel, id⟩).1 ∧
      (r.emitRebaseline rd cx channel id).2 =
        ((r.view past accum revealedNow).rebaseline rd ⟨cx.publisher, channel, id⟩).2 := by
  unfold Run.emitRebaseline View.rebaseline Run.exponents
  simp only [view_books, view_defs]
  cases r.proc.books.get ⟨cx.publisher, channel, id⟩ with
  | none => exact ⟨rfl, rfl⟩
  | some b =>
    cases r.proc.state.definition cx.publisher id with
    | none => exact ⟨rfl, rfl⟩
    | some d => exact sendBook_view past accum revealedNow r rd cx channel id _ true true

theorem modifyBatching_view (chan : ChannelKey) {f : ChannelBatching → ChannelBatching} (g : Finset Nat → Finset Nat)
    (h : ∀ b, (f b).open = g b.open) :
    (r.modifyBatching chan f).view past accum revealedNow = (r.view past accum revealedNow).setLane chan g := by
  have hlanes : lanesOf (r.modifyBatching chan f).proc =
      Function.update (lanesOf r.proc) chan ((lanesOf r.proc chan).map g) := by
    funext c
    unfold Run.modifyBatching lanesOf
    by_cases hc : c = chan
    · subst hc
      cases hb : r.proc.batching.get c with
      | none => simp [hb]
      | some b => simp [h]
    · rw [Function.update_of_ne hc]
      split
      · rfl
      · simp only
        rw [FinMap.get_insert_of_ne _ _ hc]
  unfold Run.view View.setLane
  simp only
  rw [hlanes]
  unfold Run.modifyBatching
  split <;> rfl

theorem modifyBatching_view_same (chan : ChannelKey) {f : ChannelBatching → ChannelBatching}
    (h : ∀ b, (f b).open = b.open) :
    (r.modifyBatching chan f).view past accum revealedNow = r.view past accum revealedNow := by
  rw [modifyBatching_view chan (fun s => s) h]
  unfold View.setLane
  rw [Option.map_id', Function.update_eq_self]

theorem lanesOf_insert (p : MbpProcessor) (chan : ChannelKey) (b : ChannelBatching) :
    lanesOf { p with batching := p.batching.insert chan b } = Function.update (lanesOf p) chan (some b.open) := by
  funext c
  unfold lanesOf
  by_cases hc : c = chan
  · subst hc
    simp
  · rw [Function.update_of_ne hc]
    simp only
    rw [FinMap.get_insert_of_ne _ _ hc]

theorem getD_lanesOf (p : MbpProcessor) (chan : ChannelKey) :
    (lanesOf p chan).getD ∅ = ((p.batching.get chan).getD .new).open := by
  unfold lanesOf
  cases p.batching.get chan with
  | none => rfl
  | some b => rfl

theorem noteBatch_view (id : Nat) (chan : ChannelKey) (last : Bool) :
    (r.noteBatch chan id last).view past accum revealedNow =
      (r.view past accum revealedNow).note ⟨chan.publisher, chan.channel, id⟩ last :=
  modifyBatching_view chan _ fun _ => rfl

/-- A batch that went closes the event of its instrument, or leaves it open. -/
theorem noteIf_view {r : Run P S} {published : Bool} {x : View P S × Bool} (chan : ChannelKey) (id : Nat)
    (last : Bool) (hview : r.view past accum revealedNow = x.1) (hpublished : published = x.2) :
    (if published = true then r.noteBatch chan id last else r).view past accum revealedNow =
      if x.2 = true then x.1.note ⟨chan.publisher, chan.channel, id⟩ last else x.1 := by
  rw [hpublished]
  split
  · rw [noteBatch_view, hview]
  · exact hview

theorem dropBatching_view (chan : ChannelKey) :
    (r.dropBatching chan).view past accum revealedNow = (r.view past accum revealedNow).dropLane chan := by
  unfold Run.dropBatching
  rw [emit_view rfl]
  unfold View.dropLane Run.view View.emit
  simp only
  congr 1
  funext c
  unfold lanesOf
  by_cases hc : c = chan
  · subst hc
    simp
  · rw [Function.update_of_ne hc]
    simp only
    rw [FinMap.get_erase_of_ne _ hc]

end Helpers

/-! ## One message -/

section Messages

variable {P S : Type} {rd : Render P S} {cx : Ctx P S} {channel : Nat} {on : Message → Prop}
  {ok : View P S → SnapshotEnd → Prop} {past : List (Sending P S)} {f : Frame P S}

/-- The book of an instrument with a definition is there, after some were forgotten. -/
theorem ensureBook_cases (on : Message → Prop) (ok : View P S → SnapshotEnd → Prop) (past : List (Sending P S))
    (accum : FinMap Nat (List (Change P S))) (revealedNow : Finset Nat) (r : Run P S) (id : Nat) :
    (r.proc.state.definition cx.publisher id = none ∧ r.ensureBook rd cx channel id = (r, none)) ∨
      ∃ b r', (r.proc.state.definition cx.publisher id).isSome = true ∧
        r.ensureBook rd cx channel id = (r', some ⟨cx.publisher, channel, id⟩) ∧
        Steps rd cx channel on ok (r.view past accum revealedNow) (r'.view past accum revealedNow) ∧
        r'.proc.state.definition = r.proc.state.definition ∧
        r'.proc.books.get ⟨cx.publisher, channel, id⟩ = some b := by
  unfold Run.ensureBook
  cases hd : r.proc.state.definition cx.publisher id with
  | none => exact .inl ⟨rfl, rfl⟩
  | some d =>
    simp only
    by_cases hc : r.proc.books.contains ⟨cx.publisher, channel, id⟩ = true
    · obtain ⟨b, hb⟩ := FinMap.contains_eq_true.mp hc
      rw [if_pos hc]
      exact .inr ⟨b, r, rfl, rfl, .refl, rfl, hb⟩
    · rw [if_neg hc]
      have hnone : r.proc.books.get ⟨cx.publisher, channel, id⟩ = none :=
        FinMap.contains_eq_false.mp (Bool.eq_false_of_not_eq_true hc)
      let Kept (r' : Run P S) : Prop :=
        Steps rd cx channel on ok (r.view past accum revealedNow) (r'.view past accum revealedNow) ∧
          r'.proc.state.definition = r.proc.state.definition ∧
          r'.proc.books.get ⟨cx.publisher, channel, id⟩ = none
      have hdrop : ∀ (r' : Run P S) (old : PriceBookKey), Kept r' →
          Kept (Run.forgetBook rd cx (Run.reportHealth rd cx r' old false) old) := by
        rintro r' old ⟨hsteps, hstate, hget⟩
        have hview : (Run.forgetBook rd cx (Run.reportHealth rd cx r' old false) old).view past accum revealedNow =
            (r'.view past accum revealedNow).forget old := by
          rw [forgetBook_view, reportHealth_view]
        have hbooks : (Run.forgetBook rd cx (Run.reportHealth rd cx r' old false) old).proc.books =
            r'.proc.books.erase old := congrArg View.books hview
        refine ⟨?_, (congrArg View.defs hview).trans hstate, ?_⟩
        · rw [hview]
          exact hsteps.tail (.forget _ old)
        · rw [hbooks, FinMap.get_erase]
          split
          · rfl
          · exact hget
      obtain ⟨hsteps, hstate, hget⟩ := evictWhile_rule _ _ hdrop r.proc.booksOrder r ⟨.refl, rfl, hnone⟩
      refine .inr ⟨.new, _, rfl, rfl, hsteps.tail ?_, hstate, FinMap.get_insert_self _ _ _⟩
      refine Move.fresh _ id ?_ hget
      rw [view_defs, hstate, hd]
      rfl

theorem revealIfNeeded_cases (past : List (Sending P S)) (accum : FinMap Nat (List (Change P S))) (revealedNow : Finset Nat) (r : Run P S)
    (key : PriceBookKey) (sourceId : Nat) :
    r.revealIfNeeded rd cx key sourceId = (r, false) ∨
      (r.proc.revealed.get key ≠ some sourceId ∧
        (r.proc.state.definition cx.publisher key.instrumentId).isSome = true ∧
        (r.revealIfNeeded rd cx key sourceId).2 = true ∧
        (r.revealIfNeeded rd cx key sourceId).1.view past accum revealedNow =
          (r.view past accum revealedNow).reveal key sourceId false) := by
  unfold Run.revealIfNeeded
  simp only
  by_cases hp : r.proc.revealed.get key = some sourceId
  · rw [if_pos hp]
    exact .inl rfl
  · rw [if_neg hp]
    cases hd : r.proc.state.definition cx.publisher key.instrumentId with
    | none => exact .inl rfl
    | some d =>
      refine .inr ⟨hp, rfl, rfl, ?_⟩
      simp only
      rw [emit_view_of_none rfl, emit_view rfl]
      cases r.proc.revealed.get key with
      | none => rfl
      | some old =>
        unfold View.reveal View.emit Run.view Run.emit
        simp [Out.sent]
        rfl

theorem reveal_steps (past : List (Sending P S)) {m : Message} (hm : on m) (hmarket : m.isMarket = true) (f : Frame P S) (id sourceId : Nat) :
    Steps rd cx channel on ok (f.view past) ((f.reveal rd cx ⟨cx.publisher, channel, id⟩ sourceId).view past) := by
  unfold Frame.reveal
  rcases revealIfNeeded_cases past f.accum f.revealedNow f.toRun ⟨cx.publisher, channel, id⟩ sourceId with
    heq | ⟨hne, hd, hnew, hview⟩
  · rw [heq]
    exact .refl
  · refine .single ?_
    have hmove : Move rd cx channel on ok (f.view past)
        ((f.view past).reveal ⟨cx.publisher, channel, id⟩ sourceId true) :=
      .reveal _ m hm hmarket id sourceId hd hne
    have heq : Frame.view past { f with
        toRun := (f.toRun.revealIfNeeded rd cx ⟨cx.publisher, channel, id⟩ sourceId).1
        revealedNow := insert id f.revealedNow } = (f.view past).reveal ⟨cx.publisher, channel, id⟩ sourceId true := by
      unfold Frame.view at hview ⊢
      have : ∀ r : Run P S, r.view past f.accum (insert id f.revealedNow) =
          { r.view past f.accum f.revealedNow with revealedNow := insert id f.revealedNow } := fun _ => rfl
      rw [this, hview]
      rfl
    simp only [hnew, if_true]
    rw [heq]
    exact hmove

theorem onDelta_steps (past : List (Sending P S)) {m : Message} (hm : on m) (hmarket : m.isMarket = true) (f : Frame P S) {id sourceId : Nat}
    {op : DeltaOp} {changes : List (UInt8 × Int) → List (Change P S)} {d : InstrumentDefinition}
    (hd : f.proc.state.definition cx.publisher id = some d)
    (hchanges : ∀ removed, changes removed = View.published rd d op.delta removed) :
    Steps rd cx channel on ok (f.view past) ((f.onDelta rd cx channel id sourceId op changes).view past) := by
  unfold Frame.onDelta
  rcases ensureBook_cases on ok past f.accum f.revealedNow f.toRun id with ⟨hnone, -⟩ | ⟨b, r, -, heq, hsteps, hdefs, hb⟩
  · rw [hnone] at hd
    cases hd
  · rw [heq]
    simp only
    obtain ⟨hsnd, hview, -⟩ :=
      withBook_some past f.accum f.revealedNow (fun b => ((b.onDelta op).1, (b.onDelta op).2)) hb
    generalize r.withBook ⟨cx.publisher, channel, id⟩ (fun b => ((b.onDelta op).1, (b.onDelta op).2)) = x at hsnd hview ⊢
    obtain ⟨r', y⟩ := x
    cases hsnd
    simp only at hview ⊢
    refine hsteps.trans (.trans (.single (Move.delta _ m hm hmarket id op b d hb ?_)) ?_)
    · rw [view_defs, hdefs]
      exact hd
    · -- the delta and its changes first, then the Source ID that it carries
      have hpush : ∀ (g : Frame P S) (cs : List (Change P S)),
          (g.reveal rd cx ⟨cx.publisher, channel, id⟩ sourceId).push id cs =
            (g.push id cs).reveal rd cx ⟨cx.publisher, channel, id⟩ sourceId := fun _ _ => rfl
      let g : Frame P S := { f with toRun := r', touched := insert id f.touched }
      have hquiet : g.view past = (r.view past f.accum f.revealedNow).setBook ⟨cx.publisher, channel, id⟩ (b.onDelta op).1 :=
        hview
      have happlied : (g.push id (changes (b.onDelta op).2.1)).view past =
          { (r.view past f.accum f.revealedNow).setBook ⟨cx.publisher, channel, id⟩ (b.onDelta op).1 with
            accum := f.accum.insert id ((f.accum.get id).getD [] ++ View.published rd d op.delta (b.onDelta op).2.1) } := by
        rw [← hview, hchanges]
        rfl
      unfold View.delta
      cases (b.onDelta op).2.2 with
      | applied divergence =>
        have hreveal : Steps rd cx channel on ok _ _ :=
          reveal_steps past hm hmarket (g.push id (changes (b.onDelta op).2.1)) id sourceId
        rw [happlied] at hreveal
        exact hreveal
      | buffered | duplicate | gap | overflow | bufferOverflow =>
        have hreveal : Steps rd cx channel on ok _ _ := reveal_steps past hm hmarket g id sourceId
        rw [hquiet] at hreveal
        exact hreveal

theorem onLevelUpdate_steps (past : List (Sending P S)) (f : Frame P S) (sequence : Nat) (l : LevelUpdate)
    (hm : on (.levelUpdate l)) :
    Steps rd cx channel on ok (f.view past) ((f.onLevelUpdate rd cx channel sequence l).view past) := by
  unfold Frame.onLevelUpdate Run.exponents
  cases hd : f.proc.state.definition cx.publisher l.instrumentId with
  | none => exact .refl
  | some d => exact onDelta_steps past hm rfl f hd fun _ => rfl

theorem onBookClear_steps (past : List (Sending P S)) (f : Frame P S) (sequence : Nat) (c : BookClear)
    (hm : on (.bookClear c)) :
    Steps rd cx channel on ok (f.view past) ((f.onBookClear rd cx channel sequence c).view past) := by
  unfold Frame.onBookClear Run.exponents
  cases hd : f.proc.state.definition cx.publisher c.instrumentId with
  | none => exact .refl
  | some d => exact onDelta_steps past hm rfl f hd fun _ => rfl

theorem noteDroppedGroup_view (chan : ChannelKey) (snapshotId : Nat) (reason : DropReason) (f : Frame P S) :
    (f.noteDroppedGroup chan snapshotId reason).view past = f.view past := by
  unfold Frame.noteDroppedGroup
  rfl

theorem onSnapshotBegin_steps (past : List (Sending P S)) (f : Frame P S) (resetCount : Nat) (s : SnapshotBegin)
    (hm : on (.snapshotBegin s)) :
    Steps rd cx channel on ok (f.view past) ((f.onSnapshotBegin rd cx channel resetCount s).view past) := by
  unfold Frame.onSnapshotBegin
  simp only
  have htomb : (if f.proc.dropped.contains ⟨cx.publisher, channel⟩ = true then
      { f with proc := { f.proc with dropped := f.proc.dropped.insert ⟨cx.publisher, channel⟩ none } } else f).view past =
      f.view past := by
    split <;> rfl
  generalize (if f.proc.dropped.contains ⟨cx.publisher, channel⟩ = true then
      { f with proc := { f.proc with dropped := f.proc.dropped.insert ⟨cx.publisher, channel⟩ none } } else f) = g at htomb ⊢
  rw [← htomb]
  split
  · rw [noteDroppedGroup_view]
  · rcases ensureBook_cases on ok past g.accum g.revealedNow g.toRun s.instrumentId with
      ⟨-, heq⟩ | ⟨b, r, -, heq, hsteps, -, hb⟩
    · rw [heq]
      simp only
      rw [noteDroppedGroup_view]
    · rw [heq]
      simp only
      obtain ⟨hsnd, hview, -⟩ := withBook_some past g.accum g.revealedNow (fun b => b.onSnapshotBegin s.snapshotId
        s.anchorSeq s.totalLevels s.lastInstrumentSeq s.depthBound cx.recvTsNs) hb
      generalize r.withBook ⟨cx.publisher, channel, s.instrumentId⟩ _ = x at hsnd hview ⊢
      obtain ⟨r', y⟩ := x
      cases hsnd
      simp only at hview ⊢
      refine hsteps.tail ?_
      have hopen : r'.proc.open = r.proc.open := congrArg View.open hview
      have hframe : ∀ (c : Prop) [Decidable c] (o : FinMap ChannelKey OpenGroup) (t : Finset Nat),
          Frame.view past (if c then
            ({ g with toRun := { r' with proc := { r'.proc with «open» := o } }, touched := t } : Frame P S)
            else { g with toRun := r', touched := t }) =
          { (r.view past g.accum g.revealedNow).setBook ⟨cx.publisher, channel, s.instrumentId⟩
              (b.onSnapshotBegin s.snapshotId s.anchorSeq s.totalLevels s.lastInstrumentSeq s.depthBound
                cx.recvTsNs).1 with «open» := if c then o else r.proc.open } := by
        intro c _ o t
        rw [← hview, ← hopen]
        split <;> rfl
      simp only [Option.some.injEq, hopen]
      rw [hframe]
      exact .snapshotBegin _ s hm b hb

theorem onSnapshotLevel_steps (past : List (Sending P S)) (f : Frame P S) (l : SnapshotLevel)
    (hm : on (.snapshotLevel l)) :
    Steps rd cx channel on ok (f.view past) ((f.onSnapshotLevel cx channel l).view past) := by
  unfold Frame.onSnapshotLevel
  split
  · exact .refl
  · rename_i g hg
    obtain ⟨hroute, hid⟩ := Option.filter_eq_some_iff.mp hg
    split
    · rename_i hacc
      cases hb : f.proc.books.get ⟨cx.publisher, channel, g.instrumentId⟩ with
      | none =>
        unfold Frame.bookKey
        rw [withBook_none hb]
      | some b =>
        refine .single ?_
        obtain ⟨-, hview, -⟩ := withBook_some past f.accum f.revealedNow (fun b => (b.onSnapshotLevel l.snapshotId
          l.side l.priceRaw l.qtyRaw l.orderCount l.levelFlags, ())) hb
        show Move rd cx channel on ok (f.view past) (Run.view past _ f.accum f.revealedNow)
        unfold Frame.bookKey
        rw [hview]
        exact .snapshotLevel _ l hm g b hroute (of_decide_eq_true hid) hacc hb
    · exact .refl

theorem onSnapshotEnd_steps (past : List (Sending P S)) (f : Frame P S) (e : SnapshotEnd) (hm : on (.snapshotEnd e))
    (hok : ok (f.view past) e) :
    Steps rd cx channel on ok (f.view past) ((f.onSnapshotEnd rd cx channel e).view past) := by
  unfold Frame.onSnapshotEnd
  simp only
  split
  · exact .refl
  · rename_i g hg
    obtain ⟨hroute, hid⟩ := Option.filter_eq_some_iff.mp hg
    have hunroute : Move rd cx channel on ok (f.view past) ((f.view past).unroute ⟨cx.publisher, channel⟩) :=
      .unroute _ _
    split
    · rename_i hacc
      let r₀ : Run P S := { f.toRun with proc := { f.proc with «open» := f.proc.open.erase ⟨cx.publisher, channel⟩ } }
      show Steps rd cx channel on ok (f.view past) (Frame.view past (if (r₀.withBook ⟨cx.publisher, channel,
        e.instrumentId⟩ fun b => b.onSnapshotEnd e.anchorSeq e.snapshotId).2 = some true then _ else _))
      cases hb : f.proc.books.get ⟨cx.publisher, channel, e.instrumentId⟩ with
      | none =>
        have hnone : r₀.proc.books.get ⟨cx.publisher, channel, e.instrumentId⟩ = none := hb
        unfold Frame.bookKey
        rw [withBook_none hnone, if_neg (by rintro ⟨⟩)]
        exact .single hunroute
      | some b =>
        refine .single ?_
        have hmove : Move rd cx channel on ok (f.view past) _ :=
          .snapshotEnd _ e hm g b hroute (of_decide_eq_true hid) hacc hb hok
        have hbook : r₀.proc.books.get ⟨cx.publisher, channel, e.instrumentId⟩ = some b := hb
        have hview := fun accum revealedNow => (withBook_some past accum revealedNow
          (fun b => b.onSnapshotEnd e.anchorSeq e.snapshotId) hbook).2.1
        have hsnd := (withBook_some past f.accum f.revealedNow (fun b => b.onSnapshotEnd e.anchorSeq e.snapshotId)
          hbook).1
        unfold Frame.bookKey
        generalize r₀.withBook ⟨cx.publisher, channel, e.instrumentId⟩ _ = x at hview hsnd ⊢
        obtain ⟨r₁, y⟩ := x
        cases hsnd
        simp only at hview ⊢
        unfold View.snapshotEnd at hmove
        simp only at hmove
        by_cases hin : (b.onSnapshotEnd e.anchorSeq e.snapshotId).2 = true
        · rw [if_pos hin] at hmove
          rw [if_pos (congrArg some hin)]
          obtain ⟨hreb, hpub⟩ := emitRebaseline_view past (f.accum.erase e.instrumentId)
            (f.revealedNow.erase e.instrumentId) r₁ rd cx channel e.instrumentId
          rw [hview] at hreb hpub
          have heq := noteIf_view ⟨cx.publisher, channel⟩ e.instrumentId true hreb hpub
          refine Eq.mpr (congrArg (Move rd cx channel on ok (f.view past)) ?_) hmove
          exact heq
        · rw [if_neg hin] at hmove
          rw [if_neg fun h => hin (Option.some.inj h)]
          have heq : Frame.view past { f with toRun := r₁, touched := insert e.instrumentId f.touched } =
              ((f.view past).unroute ⟨cx.publisher, channel⟩).setBook ⟨cx.publisher, channel, e.instrumentId⟩
                (b.onSnapshotEnd e.anchorSeq e.snapshotId).1 := hview f.accum f.revealedNow
          exact heq ▸ hmove
    · exact .single hunroute

theorem onInstrumentReset_steps (past : List (Sending P S)) (f : Frame P S) (id newAnchorSeq : Nat)
    (hm : on (.instrumentReset id newAnchorSeq)) :
    Steps rd cx channel on ok (f.view past) ((f.onInstrumentReset rd cx channel id newAnchorSeq).view past) := by
  unfold Frame.onInstrumentReset
  extract_lets chan key g
  suffices hg : Steps rd cx channel on ok (f.view past) (g.view past) by
    split
    · exact hg
    · rw [noteDroppedGroup_view]
      exact hg.tail (.unroute _ _)
  unfold g key Frame.bookKey
  cases hb : f.proc.books.get ⟨cx.publisher, channel, id⟩ with
  | none =>
    rw [withBook_none hb]
  | some b =>
    obtain ⟨hsnd, hview, -⟩ := withBook_some past (f.accum.erase id) f.revealedNow
      (fun b => (b.onInstrumentReset newAnchorSeq, ())) hb
    generalize f.toRun.withBook ⟨cx.publisher, channel, id⟩ _ = x at hsnd hview ⊢
    obtain ⟨r, y⟩ := x
    cases hsnd
    simp only at hview ⊢
    refine .single ?_
    have hmove : Move rd cx channel on ok (f.view past) _ := .instrumentReset _ id newAnchorSeq hm b hb
    have hfile : ((r.reportHealth rd cx ⟨cx.publisher, channel, id⟩ false).forgetSourcePath rd cx
        ⟨cx.publisher, channel, id⟩).view past (f.accum.erase id) f.revealedNow =
        r.view past (f.accum.erase id) f.revealedNow := by
      rw [forgetSourcePath_view, reportHealth_view]
    generalize (r.reportHealth rd cx ⟨cx.publisher, channel, id⟩ false).forgetSourcePath rd cx
        ⟨cx.publisher, channel, id⟩ = r₁ at hfile ⊢
    rw [hview] at hfile
    refine Eq.mpr (congrArg (Move rd cx channel on ok (f.view past)) ?_) hmove
    show Run.view past { r₁ with proc := { r₁.proc with revealed := r₁.proc.revealed.erase _ } } _ _ = _
    have hrevealed : ∀ r : Run P S, Run.view past { r with proc := { r.proc with
        revealed := r.proc.revealed.erase ⟨cx.publisher, channel, id⟩ } } (f.accum.erase id) f.revealedNow =
        { r.view past (f.accum.erase id) f.revealedNow with
          revealed := (r.view past (f.accum.erase id) f.revealedNow).revealed.erase ⟨cx.publisher, channel, id⟩ } :=
      fun _ => rfl
    rw [hrevealed, hfile]
    rfl

/-- One book of an ended session. -/
theorem endOne_step (past : List (Sending P S)) (f : Frame P S) (id : Nat)
    {b : PriceBook} (hb : f.proc.books.get ⟨cx.publisher, channel, id⟩ = some b) :
    Move rd cx channel on ok (f.view past) ((f.endOne rd cx ⟨cx.publisher, channel, id⟩).view past) ∧
      ∀ k, (∃ b, f.proc.books.get k = some b) →
        ∃ b, (f.endOne rd cx ⟨cx.publisher, channel, id⟩).proc.books.get k = some b := by
  obtain ⟨-, hview, -⟩ := withBook_some past (f.accum.erase id) f.revealedNow (fun b => (b.onEndOfSession, ())) hb
  have hall : (f.endOne rd cx ⟨cx.publisher, channel, id⟩).view past =
      (f.view past).endSession ⟨cx.publisher, channel, id⟩ b := by
    unfold Frame.endOne Frame.view
    simp only
    rw [reportHealth_view, hview]
    rfl
  refine ⟨?_, fun k ⟨b', hk⟩ => ?_⟩
  · rw [hall]
    exact .endSession _ id b hb
  · have hbooks : (f.endOne rd cx ⟨cx.publisher, channel, id⟩).proc.books =
        f.proc.books.insert ⟨cx.publisher, channel, id⟩ b.onEndOfSession := congrArg View.books hall
    rw [hbooks, FinMap.get_insert]
    split
    · exact ⟨_, rfl⟩
    · exact ⟨b', hk⟩

theorem endOne_foldl_steps (past : List (Sending P S)) (ks : List PriceBookKey) (f : Frame P S)
    (h : ∀ k ∈ ks, k.chan = ⟨cx.publisher, channel⟩ ∧ ∃ b, f.proc.books.get k = some b) :
    Steps rd cx channel on ok (f.view past) ((ks.foldl (Frame.endOne rd cx) f).view past) := by
  induction ks generalizing f with
  | nil => exact .refl
  | cons k ks ih =>
    obtain ⟨hchan, b, hb⟩ := h k List.mem_cons_self
    obtain ⟨p, c, id⟩ := k
    cases hchan
    obtain ⟨hmove, hkept⟩ : Move rd cx c on ok _ _ ∧ _ := endOne_step past f id hb
    refine .head hmove (ih _ fun k hk => ?_)
    exact (h k (List.mem_cons_of_mem _ hk)).imp_right (hkept k)

theorem onEndOfSession_steps (past : List (Sending P S)) (f : Frame P S) :
    Steps rd cx channel on ok (f.view past) ((f.onEndOfSession rd cx channel).view past) := by
  unfold Frame.onEndOfSession
  simp only
  have hloop : Steps rd cx channel on ok (f.view past) _ := endOne_foldl_steps past
    (visit cx.order (f.proc.books.keys.filter fun k => k.chan = ⟨cx.publisher, channel⟩)) f fun k hk => by
      obtain ⟨hk, hchan⟩ := Finset.mem_filter.mp (mem_visit.mp hk)
      exact ⟨hchan, FinMap.mem_keys_iff.mp hk⟩
  generalize (visit cx.order (f.proc.books.keys.filter fun k => k.chan = ⟨cx.publisher, channel⟩)).foldl
    (Frame.endOne rd cx) f = g at hloop ⊢
  have hdrop : Steps rd cx channel on ok (f.view past)
      ((g.toRun.dropBatching ⟨cx.publisher, channel⟩).view past g.accum g.revealedNow) := by
    rw [dropBatching_view]
    exact hloop.tail (.dropLane _ _)
  generalize g.toRun.dropBatching ⟨cx.publisher, channel⟩ = r at hdrop ⊢
  split
  · exact hdrop
  · rw [noteDroppedGroup_view]
    exact hdrop.tail (.unroute _ _)

end Messages

/-! ## Closing the open events -/

/-- The open events that a loop has still to close, with those it was refused. -/
def pending (openIds : Finset Nat) (rest : List Nat) (refused : Finset Nat) : Finset Nat :=
  openIds.filter (fun id => id ∈ rest) ∪ refused

section Pending

variable {openIds refused : Finset Nat} {rest : List Nat} {id : Nat}

theorem mem_pending_cons (h : id ∉ refused) : id ∈ pending openIds (id :: rest) refused ↔ id ∈ openIds := by
  unfold pending
  simp [h]

theorem pending_erase (hrest : id ∉ rest) (hrefused : id ∉ refused) :
    (pending openIds (id :: rest) refused).erase id = pending openIds rest refused := by
  unfold pending
  ext i
  simp only [Finset.mem_erase, Finset.mem_union, Finset.mem_filter, List.mem_cons]
  constructor
  · rintro ⟨hne, ⟨hi, heq | hi'⟩ | hi⟩
    · exact absurd heq hne
    · exact .inl ⟨hi, hi'⟩
    · exact .inr hi
  · rintro (⟨hi, hi'⟩ | hi)
    · exact ⟨fun heq => hrest (heq ▸ hi'), .inl ⟨hi, .inr hi'⟩⟩
    · exact ⟨fun heq => hrefused (heq ▸ hi), .inr hi⟩

theorem pending_insert :
    insert id (pending openIds (id :: rest) refused) = pending openIds rest (insert id refused) := by
  unfold pending
  ext i
  simp only [Finset.mem_insert, Finset.mem_union, Finset.mem_filter, List.mem_cons]
  tauto

theorem pending_skip (h : id ∉ openIds) : pending openIds (id :: rest) refused = pending openIds rest refused := by
  unfold pending
  ext i
  simp only [Finset.mem_union, Finset.mem_filter, List.mem_cons]
  constructor
  · rintro (⟨hi, rfl | hi'⟩ | hi)
    · exact absurd hi h
    · exact .inl ⟨hi, hi'⟩
    · exact .inr hi
  · rintro (⟨hi, hi'⟩ | hi)
    · exact .inl ⟨hi, .inr hi'⟩
    · exact .inr hi

theorem pending_nil : pending openIds [] refused = refused := by
  unfold pending
  simp

end Pending

namespace View

variable {P S : Type} {rd : Render P S} {v : View P S} {key : PriceBookKey} {s : Finset Nat}

/-- The view with these open events on a channel. -/
def withLane (v : View P S) (chan : ChannelKey) (s : Finset Nat) : View P S :=
  { v with lanes := Function.update v.lanes chan (some s) }

theorem send_withLane (v : View P S) (key : PriceBookKey) (changes : List (Change P S)) (last : Bool)
    (chan : ChannelKey) (s : Finset Nat) :
    (v.withLane chan s).send key changes last =
      ((v.send key changes last).1.withLane chan s, (v.send key changes last).2) := by
  unfold send withLane
  simp only
  split
  · split <;> rfl
  · rfl

theorem rebaseline_withLane (v : View P S) (key : PriceBookKey) (chan : ChannelKey) (s : Finset Nat) :
    (v.withLane chan s).rebaseline rd key = ((v.rebaseline rd key).1.withLane chan s, (v.rebaseline rd key).2) := by
  have hsend := fun changes => send_withLane v key changes true chan s
  unfold rebaseline
  simp only [withLane] at hsend ⊢
  split
  · exact hsend _
  · rfl

theorem batch_withLane (v : View P S) (key : PriceBookKey) (whole : Prop) [Decidable whole]
    (changes : List (Change P S)) (last : Bool) (chan : ChannelKey) (s : Finset Nat) :
    (v.withLane chan s).batch rd key whole changes last =
      ((v.batch rd key whole changes last).1.withLane chan s, (v.batch rd key whole changes last).2) := by
  unfold batch
  split
  · exact rebaseline_withLane v key chan s
  · exact send_withLane v key changes last chan s

theorem note_withLane (v : View P S) (key : PriceBookKey) (last : Bool) (s : Finset Nat) :
    (v.withLane key.chan s).note key last =
      v.withLane key.chan (if last then s.erase key.instrumentId else insert key.instrumentId s) := by
  unfold note setLane withLane
  simp

theorem close_skip {v : View P S} {key : PriceBookKey} {owed : Bool} {s : Finset Nat}
    (h : (v.accum.get key.instrumentId).getD [] = [] ∧ key.instrumentId ∉ s) :
    (v.withLane key.chan s).close rd key owed =
      { v with accum := v.accum.erase key.instrumentId }.withLane key.chan s := by
  refine (if_pos ⟨h.1, ?_⟩).trans rfl
  unfold withLane
  simpa using h.2

theorem close_batch {v : View P S} {key : PriceBookKey} {owed : Bool} {s : Finset Nat} (whole : Prop)
    [Decidable whole] (hwhole : whole ↔ key.instrumentId ∈ v.revealedNow ∨ owed = true) {x : View P S × Bool}
    (h : ¬ ((v.accum.get key.instrumentId).getD [] = [] ∧ key.instrumentId ∉ s))
    (hx : (v.take key.instrumentId).batch rd key whole ((v.accum.get key.instrumentId).getD []) true = x) :
    (v.withLane key.chan s).close rd key owed =
      if x.2 = true then x.1.withLane key.chan (s.erase key.instrumentId)
      else (x.1.emit (.refused key)).withLane key.chan (insert key.instrumentId s) := by
  have hskip : ¬ (((v.withLane key.chan s).accum.get key.instrumentId).getD [] = [] ∧
      key.instrumentId ∉ ((v.withLane key.chan s).lanes key.chan).getD ∅) := by
    unfold withLane
    simpa using h
  refine (if_neg hskip).trans ?_
  have htake : (v.withLane key.chan s).take key.instrumentId = (v.take key.instrumentId).withLane key.chan s := rfl
  have hbatch : (v.take key.instrumentId).batch rd key (key.instrumentId ∈ (v.withLane key.chan s).revealedNow ∨
      owed = true) (((v.withLane key.chan s).accum.get key.instrumentId).getD []) true = x := by
    rw [← hx]
    unfold batch
    by_cases hw : whole
    · rw [if_pos hw]
      exact if_pos (hwhole.mp hw)
    · rw [if_neg hw]
      exact if_neg fun h => hw (hwhole.mpr h)
  simp only [htake, batch_withLane, hbatch]
  split
  · rw [note_withLane]
    rfl
  · exact note_withLane (emit _ (.refused key)) key false s

/-- A batch that goes out is the whole book, or the changes. -/
theorem batch_cases (rd : Render P S) (v : View P S) (key : PriceBookKey) (whole : Prop) [Decidable whole] (changes : List (Change P S))
    (last : Bool) :
    v.batch rd key whole changes last = (v, false) ∨
      ∃ sourceId sent, v.batch rd key whole changes last =
        (v.emit (.book key sourceId sent (if whole then true else last)), true) := by
  have hsend : ∀ (changes : List (Change P S)) (last : Bool), v.send key changes last = (v, false) ∨
      ∃ sourceId, v.send key changes last = (v.emit (.book key sourceId changes last), true) := by
    intro changes last
    unfold send
    split
    · split
      · exact .inr ⟨_, rfl⟩
      · exact .inl rfl
    · exact .inl rfl
  unfold batch
  split
  · unfold rebaseline
    split
    · rename_i b d _ _
      rcases hsend (Run.rebaselineChanges rd b d.priceExponent d.qtyExponent) true with h | ⟨sourceId, h⟩
      · exact .inl h
      · exact .inr ⟨sourceId, _, h⟩
    · exact .inl rfl
  · rcases hsend changes last with h | ⟨sourceId, h⟩
    · exact .inl h
    · exact .inr ⟨sourceId, _, h⟩

theorem setLane_union {v : View P S} {chan : ChannelKey} (h : v.lanes chan = some ∅) (s : Finset Nat) :
    v.setLane chan (fun open' => open' ∪ s) = v.withLane chan s := by
  unfold setLane withLane
  rw [h, Option.map_some, Finset.empty_union]

end View

section Boundary

variable {P S : Type} {rd : Render P S} {cx : Ctx P S} {channel : Nat} {on : Message → Prop}
  {ok : View P S → SnapshotEnd → Prop} {past : List (Sending P S)} {f : Frame P S}

theorem batch_view (past : List (Sending P S)) (accum : FinMap Nat (List (Change P S))) (revealedNow : Finset Nat)
    (r : Run P S) (rd : Render P S) (cx : Ctx P S) (channel id : Nat) (whole : Prop) [Decidable whole]
    (changes : List (Change P S)) (last : Bool) :
    (if whole then r.emitRebaseline rd cx channel id
        else r.sendBook rd cx channel id changes false last).1.view past accum revealedNow =
        ((r.view past accum revealedNow).batch rd ⟨cx.publisher, channel, id⟩ whole changes last).1 ∧
      (if whole then r.emitRebaseline rd cx channel id else r.sendBook rd cx channel id changes false last).2 =
        ((r.view past accum revealedNow).batch rd ⟨cx.publisher, channel, id⟩ whole changes last).2 := by
  unfold View.batch
  split
  · exact emitRebaseline_view past accum revealedNow r rd cx channel id
  · exact sendBook_view past accum revealedNow r rd cx channel id changes false last

/-- One instrument that a boundary closes. -/
theorem closeOne_step (past : List (Sending P S)) (openIds owed : Finset Nat) (f : Frame P S) (refused : Finset Nat)
    (id : Nat) (rest : List Nat) (hrest : id ∉ rest) (hrefused : id ∉ refused) :
    (((Frame.closeOne rd cx channel openIds owed (f, refused) id).1.view past).withLane ⟨cx.publisher, channel⟩
        (pending openIds rest (Frame.closeOne rd cx channel openIds owed (f, refused) id).2)) =
      ((f.view past).withLane ⟨cx.publisher, channel⟩ (pending openIds (id :: rest) refused)).close rd
        ⟨cx.publisher, channel, id⟩ (decide (id ∈ owed)) := by
  have hmem : id ∈ pending openIds (id :: rest) refused ↔ id ∈ openIds := mem_pending_cons hrefused
  unfold Frame.closeOne
  simp only
  by_cases hskip : (f.accum.get id).getD [] = [] ∧ id ∉ openIds
  · rw [if_pos hskip]
    refine Eq.trans ?_ (View.close_skip ⟨hskip.1, fun h => hskip.2 (hmem.mp h)⟩).symm
    rw [pending_skip hskip.2]
    rfl
  · rw [if_neg hskip]
    obtain ⟨hview, hpub⟩ := batch_view past (f.accum.erase id) (f.revealedNow.erase id) f.toRun rd cx channel id
      (id ∈ f.revealedNow ∨ id ∈ owed) ((f.accum.get id).getD []) true
    have hclose : ((f.view past).withLane ⟨cx.publisher, channel⟩ (pending openIds (id :: rest) refused)).close rd
        ⟨cx.publisher, channel, id⟩ (decide (id ∈ owed)) = _ :=
      View.close_batch _ (or_congr_right decide_eq_true_iff.symm)
        (fun h => hskip ⟨h.1, fun hi => h.2 (hmem.mpr hi)⟩) rfl
    rw [hclose]
    generalize (if id ∈ f.revealedNow ∨ id ∈ owed then f.toRun.emitRebaseline rd cx channel id
        else f.toRun.sendBook rd cx channel id ((f.accum.get id).getD []) false true) = x at hview hpub ⊢
    by_cases hx : x.2 = true
    · rw [if_pos hx]
      refine Eq.trans ?_ (if_pos (hpub ▸ hx)).symm
      rw [pending_erase hrest hrefused]
      exact congrArg (fun v => View.withLane v _ _) hview
    · rw [if_neg hx]
      refine Eq.trans ?_ (if_neg (hpub ▸ hx)).symm
      rw [pending_insert]
      refine congrArg (fun v => View.withLane v _ _) ?_
      exact (emit_view rfl).trans (congrArg (View.emit · _) hview)

theorem sendBook_proc (r : Run P S) (id : Nat) (changes : List (Change P S)) (snapshot last : Bool) :
    (r.sendBook rd cx channel id changes snapshot last).1.proc = r.proc := by
  unfold Run.sendBook
  simp only
  split
  · split <;> rfl
  · rfl

theorem emitRebaseline_proc (r : Run P S) (id : Nat) : (r.emitRebaseline rd cx channel id).1.proc = r.proc := by
  unfold Run.emitRebaseline
  split
  · exact sendBook_proc r id _ true true
  · rfl

theorem closeOne_proc (openIds owed : Finset Nat) (x : Frame P S × Finset Nat) (id : Nat) :
    (Frame.closeOne rd cx channel openIds owed x id).1.proc = x.1.proc := by
  unfold Frame.closeOne
  simp only
  split
  · rfl
  · have hproc : (if id ∈ x.1.revealedNow ∨ id ∈ owed then x.1.toRun.emitRebaseline rd cx channel id
        else x.1.toRun.sendBook rd cx channel id ((x.1.accum.get id).getD []) false true).1.proc = x.1.proc := by
      split
      · exact emitRebaseline_proc _ _
      · exact sendBook_proc _ _ _ _ _
    generalize (if id ∈ x.1.revealedNow ∨ id ∈ owed then x.1.toRun.emitRebaseline rd cx channel id
        else x.1.toRun.sendBook rd cx channel id ((x.1.accum.get id).getD []) false true) = y at hproc ⊢
    split
    · exact hproc
    · exact hproc

theorem closeOne_refused (openIds owed : Finset Nat) (x : Frame P S × Finset Nat) (id : Nat) :
    (Frame.closeOne rd cx channel openIds owed x id).2 ⊆ insert id x.2 := by
  unfold Frame.closeOne
  simp only
  split
  · exact Finset.subset_insert id x.2
  · generalize (if id ∈ x.1.revealedNow ∨ id ∈ owed then x.1.toRun.emitRebaseline rd cx channel id
        else x.1.toRun.sendBook rd cx channel id ((x.1.accum.get id).getD []) false true) = y
    split
    · exact Finset.subset_insert id x.2
    · exact Finset.Subset.refl _

theorem closeOne_foldl_steps (past : List (Sending P S)) (openIds owed : Finset Nat) :
    ∀ (ids : List Nat) (x : Frame P S × Finset Nat), ids.Nodup → (∀ i ∈ ids, i ∉ x.2) →
      Steps rd cx channel on ok ((x.1.view past).withLane ⟨cx.publisher, channel⟩ (pending openIds ids x.2))
          (((ids.foldl (Frame.closeOne rd cx channel openIds owed) x).1.view past).withLane ⟨cx.publisher, channel⟩
            (ids.foldl (Frame.closeOne rd cx channel openIds owed) x).2) ∧
        (ids.foldl (Frame.closeOne rd cx channel openIds owed) x).1.proc = x.1.proc := by
  intro ids
  induction ids with
  | nil =>
    intro x _ _
    rw [pending_nil]
    exact ⟨.refl, rfl⟩
  | cons id rest ih =>
    intro x hnodup hdisjoint
    obtain ⟨hrest, hnodup⟩ := List.nodup_cons.mp hnodup
    have hstep : ((Frame.closeOne rd cx channel openIds owed x id).1.view past).withLane ⟨cx.publisher, channel⟩ _ = _ :=
      closeOne_step past openIds owed x.1 x.2 id rest hrest (hdisjoint id List.mem_cons_self)
    obtain ⟨hsteps, hproc⟩ := ih (Frame.closeOne rd cx channel openIds owed x id) hnodup fun i hi hmem => by
      rcases Finset.mem_insert.mp (closeOne_refused openIds owed x id hmem) with rfl | hold
      · exact hrest hi
      · exact hdisjoint i (List.mem_cons_of_mem _ hi) hold
    refine ⟨.head ?_ hsteps, hproc.trans (closeOne_proc openIds owed x id)⟩
    rw [hstep]
    refine .close _ id _ ?_
    unfold View.withLane
    simp

/-- The refused events are put back in the lane of their channel. -/
theorem refused_view (past : List (Sending P S)) (accum : FinMap Nat (List (Change P S))) (revealedNow : Finset Nat)
    (r : Run P S) (chan : ChannelKey) (refused : Finset Nat) (h : lanesOf r.proc chan = some ∅) :
    (r.modifyBatching chan fun b => { b with «open» := b.open ∪ refused }).view past accum revealedNow =
      (r.view past accum revealedNow).withLane chan refused := by
  rw [modifyBatching_view chan (fun s => s ∪ refused) fun _ => rfl]
  exact View.setLane_union h refused

theorem onBatchBoundary_steps (past : List (Sending P S)) (f : Frame P S) (batchId : Nat) :
    Steps rd cx channel on ok (f.view past) ((f.onBatchBoundary rd cx channel batchId).view past) := by
  unfold Frame.onBatchBoundary
  simp only
  split
  · split
    · exact .refl
    · let state := (f.proc.batching.get ⟨cx.publisher, channel⟩).getD .new
      let g : Frame P S := { f with
        proc := { f.proc with
          lastBatch := f.proc.lastBatch.insert ⟨cx.publisher, channel⟩ batchId
          batching := f.proc.batching.insert ⟨cx.publisher, channel⟩ (Frame.atBoundary cx.recvTsNs state) } }
      have hlanes : lanesOf g.proc = Function.update (lanesOf f.proc) ⟨cx.publisher, channel⟩ (some ∅) :=
        lanesOf_insert f.proc _ _
      have hopen : (f.view past).openLane ⟨cx.publisher, channel⟩ =
          (g.view past).withLane ⟨cx.publisher, channel⟩ state.open := by
        have hstate : ((f.view past).lanes ⟨cx.publisher, channel⟩).getD ∅ = state.open :=
          getD_lanesOf f.proc _
        unfold View.openLane View.withLane
        rw [hstate]
        have hidem : Function.update (g.view past).lanes ⟨cx.publisher, channel⟩ (some state.open) =
            Function.update (f.view past).lanes ⟨cx.publisher, channel⟩ (some state.open) := by
          show Function.update (lanesOf g.proc) _ _ = _
          rw [hlanes, Function.update_idem]
          rfl
        rw [hidem]
        rfl
      refine .head (.openLane _) ?_
      rw [hopen]
      have hall : pending state.open ((g.accum.keys ∪ state.open).sort (· ≤ ·)) ∅ = state.open := by
        unfold pending
        ext i
        simp only [Finset.mem_union, Finset.mem_filter, Finset.mem_sort, Finset.notMem_empty, or_false]
        exact ⟨fun h => h.1, fun h => ⟨h, .inr h⟩⟩
      obtain ⟨hsteps, hproc⟩ : Steps rd cx channel on ok _ _ ∧ _ := closeOne_foldl_steps past state.open
        (g.toRun.rebaselinesOwed rd cx channel (g.accum.keys ∪ state.open))
        ((g.accum.keys ∪ state.open).sort (· ≤ ·)) (g, ∅) (Finset.sort_nodup _ _) (fun _ _ => Finset.notMem_empty _)
      rw [hall] at hsteps
      have hlane : lanesOf g.proc ⟨cx.publisher, channel⟩ = some ∅ := by
        rw [hlanes, Function.update_self]
      refine Eq.mp (congrArg (Steps rd cx channel on ok _) ?_) hsteps
      refine (refused_view past _ _ _ _ _ ?_).symm
      rw [hproc]
      exact hlane
  · exact .refl

theorem onTrade_steps (past : List (Sending P S)) (f : Frame P S) (t : Trade) (hm : on (.trade t)) :
    Steps rd cx channel on ok (f.view past) ((f.onTrade rd cx channel t).view past) := by
  unfold Frame.onTrade
  cases hd : f.proc.state.definition cx.publisher t.instrumentId with
  | none => exact .refl
  | some d =>
    simp only
    have htape : ∀ (g : Frame P S) (o : Out P S), o.sent = none →
        Frame.view past (if cx.tape = true then { g with toRun := g.toRun.emit o } else g) = g.view past := by
      intro g o ho
      split
      · exact emit_view_of_none ho
      · rfl
    rw [htape _ _ rfl]
    rcases ensureBook_cases on ok past f.accum f.revealedNow f.toRun t.instrumentId with
      ⟨hnone, -⟩ | ⟨b, r, -, heq, hsteps, -, -⟩
    · rw [hnone] at hd
      cases hd
    · rw [heq]
      exact hsteps.trans (reveal_steps past hm rfl { f with toRun := r } t.instrumentId t.sourceId)

theorem onInstrumentDefinition_steps (past : List (Sending P S)) (f : Frame P S) (d : InstrumentDefinition)
    (hm : on (.instrumentDefinition d)) (hrole : cx.role.handlesRefdata = true) :
    Steps rd cx channel on ok (f.view past) ((f.onInstrumentDefinition rd cx channel d).view past) := by
  unfold Frame.onInstrumentDefinition Frame.bookKey
  extract_lets key r r₀ p r₁ r₂
  have hr₀ : r₀.view past f.accum f.revealedNow = f.view past := by
    unfold r₀
    split
    · rfl
    · split
      · exact emit_view_of_none rfl
      · rfl
  have hdefine : Move rd cx channel on ok (f.view past) (r₁.view past f.accum f.revealedNow) := by
    rw [← hr₀]
    refine .define _ d hm hrole _ fun p i d' h => ?_
    exact PerPublisher.modify_definition
      (fun _ _ _ hdef => RefDataState.onInstrumentDefinition_definition hdef) h
  show Steps rd cx channel on ok (f.view past) (r₂.view past f.accum f.revealedNow)
  unfold r₂
  cases hsource : d.sourceId with
  | none => exact .single hdefine
  | some id =>
    rcases revealIfNeeded_cases past f.accum f.revealedNow r₁ key id with heq | ⟨hne, hd, -, hview⟩
    · simp only
      rw [heq]
      exact .single hdefine
    · simp only
      rw [hview]
      exact .tail (.single hdefine) (.revealDefined _ d hm hrole id hsource hd hne)

/-- **One message moves the view.** -/
theorem onMessage_steps (past : List (Sending P S)) (h : Header) (fresh : Bool) (f : Frame P S) (m : Message) (hm : on m)
    (hok : ∀ e, m = .snapshotEnd e → ok (f.view past) e) :
    Steps rd cx h.channelId on ok (f.view past) ((f.onMessage rd cx h fresh m).view past) := by
  cases m with
  | manifestSummary valid manifestSeq instrumentCount =>
    unfold Frame.onMessage
    simp only
    split
    · rename_i hrole
      refine .single (.undefine _ _ (fun p i d hd => ?_) (.inr hrole))
      rcases PerPublisher.modify_definition (Q := fun _ _ => False)
        (fun _ _ _ hdef => .inl (RefDataState.onManifest_definition hdef)) hd with hold | ⟨-, hfalse⟩
      · exact hold
      · exact hfalse.elim
    · exact .refl
  | instrumentDefinition d =>
    unfold Frame.onMessage
    simp only
    split
    · rename_i hrole
      exact onInstrumentDefinition_steps past f d hm hrole
    · exact .refl
  | levelUpdate l => exact onLevelUpdate_steps past f h.sequence l hm
  | bookClear c => exact onBookClear_steps past f h.sequence c hm
  | snapshotBegin s => exact onSnapshotBegin_steps past f h.resetCount s hm
  | snapshotLevel l => exact onSnapshotLevel_steps past f l hm
  | snapshotEnd e => exact onSnapshotEnd_steps past f e hm (hok e rfl)
  | instrumentReset id newAnchorSeq => exact onInstrumentReset_steps past f id newAnchorSeq hm
  | endOfSession ts => exact onEndOfSession_steps past f
  | batchBoundary batchId =>
    unfold Frame.onMessage
    simp only
    split
    · exact onBatchBoundary_steps past f batchId
    · exact .refl
  | trade t => exact onTrade_steps past f t hm
  | other => exact .refl

end Boundary

/-! ## The ends of a datagram -/

section Ends

variable {P S : Type} {rd : Render P S} {cx : Ctx P S} {channel : Nat} {on : Message → Prop}
  {ok : View P S → SnapshotEnd → Prop} {accum : FinMap Nat (List (Change P S))} {revealedNow : Finset Nat}

/-- What holds of a loop when each of its rounds moves the view. -/
theorem foldl_steps {κ : Type} (past : List (Sending P S)) (step : Run P S → κ → Run P S)
    (h : ∀ r k, Steps rd cx channel on ok (r.view past accum revealedNow) ((step r k).view past accum revealedNow)) :
    ∀ (ks : List κ) (r : Run P S),
      Steps rd cx channel on ok (r.view past accum revealedNow) ((ks.foldl step r).view past accum revealedNow)
  | [], _ => .refl
  | k :: ks, r => (h r k).trans (foldl_steps past step h ks (step r k))

theorem forgetBook_foldl_books (ks : List PriceBookKey) (r : Run P S) (key : PriceBookKey)
    (h : key ∈ ks ∨ r.proc.books.get key = none) : (ks.foldl (Run.forgetBook rd cx) r).proc.books.get key = none := by
  induction ks generalizing r with
  | nil => exact h.resolve_left List.not_mem_nil
  | cons k ks ih =>
    refine ih _ ?_
    have hbooks : (r.forgetBook rd cx k).proc.books = r.proc.books.erase k :=
      congrArg View.books (forgetBook_view : Run.view [] _ ∅ ∅ = _)
    rw [hbooks, FinMap.get_erase]
    rcases h with h | h
    · rcases List.mem_cons.mp h with rfl | h
      · exact .inr (if_pos rfl)
      · exact .inl h
    · refine .inr ?_
      split
      · rfl
      · exact h

theorem forgetPublisher_steps (past : List (Sending P S)) (r : Run P S) (publisher : IpAddr) :
    Steps rd cx channel on ok (r.view past accum revealedNow)
      ((r.forgetPublisher rd cx publisher).view past accum revealedNow) := by
  unfold Run.forgetPublisher
  simp only
  have hbooks : ∀ ks : List PriceBookKey, Steps rd cx channel on ok (r.view past accum revealedNow)
      ((ks.foldl (Run.forgetBook rd cx) r).view past accum revealedNow) := fun ks =>
    foldl_steps past _ (fun r k => by
      rw [forgetBook_view]
      exact .single (.forget _ k)) ks r
  have hnone : ∀ key : PriceBookKey, key.publisher = publisher →
      ((visit cx.order (r.proc.books.keys.filter fun k => decide (k.publisher = publisher) = true)).foldl
        (Run.forgetBook rd cx) r).proc.books.get key = none := by
    intro key hkey
    refine forgetBook_foldl_books _ r key ?_
    cases hget : r.proc.books.get key with
    | none => exact .inr rfl
    | some b =>
      refine .inl (mem_visit.mpr (Finset.mem_filter.mpr ⟨FinMap.mem_keys_iff.mpr ⟨b, hget⟩, ?_⟩))
      exact decide_eq_true hkey
  specialize hbooks (visit cx.order (r.proc.books.keys.filter fun k => decide (k.publisher = publisher) = true))
  generalize (visit cx.order (r.proc.books.keys.filter fun k => decide (k.publisher = publisher) = true)).foldl
    (Run.forgetBook rd cx) r = r₁ at hbooks hnone ⊢
  generalize visit cx.order (r₁.proc.revealed.keys.filter fun k => decide (k.publisher = publisher) = true) = ks
  have hpaths : (ks.foldl (Run.forgetSourcePath rd cx) r₁).view past accum revealedNow =
      r₁.view past accum revealedNow :=
    foldl_keeps (fun r : Run P S => r.view past accum revealedNow) _ (fun _ _ => forgetSourcePath_view) _ _
  generalize ks.foldl (Run.forgetSourcePath rd cx) r₁ = r₂ at hpaths ⊢
  generalize visit [] (r₂.proc.batching.keys.filter fun k => k.publisher = publisher) = chans
  have hlanes : Steps rd cx channel on ok (r₂.view past accum revealedNow)
      ((chans.foldl Run.dropBatching r₂).view past accum revealedNow) :=
    foldl_steps past _ (fun r k => by
      rw [dropBatching_view]
      exact .single (.dropLane _ k)) _ r₂
  have hkept : (chans.foldl Run.dropBatching r₂).proc.books = r₁.proc.books :=
    (foldl_keeps (fun r : Run P S => r.proc.books) Run.dropBatching (fun _ _ => rfl) _ _).trans
      (congrArg View.books hpaths)
  generalize chans.foldl Run.dropBatching r₂ = r₃ at hlanes hkept ⊢
  rw [hpaths] at hlanes
  refine (hbooks.trans hlanes).tail ?_
  have hmove : Move rd cx channel on ok (r₃.view past accum revealedNow) _ := .purge _ publisher fun key hkey => by
    rw [view_books, hkept]
    exact hnone key hkey
  exact hmove

theorem noteResetCount_steps (past : List (Sending P S)) (r : Run P S) (chan : ChannelKey) (resetCount : Nat) :
    Steps rd cx channel on ok (r.view past accum revealedNow)
      ((noteResetCount r chan resetCount).1.view past accum revealedNow) := by
  unfold noteResetCount
  simp only
  split
  · exact .refl
  · exact evictWhile_rule _ _ (P := fun r' : Run P S =>
      Steps rd cx channel on ok (r.view past accum revealedNow) (r'.view past accum revealedNow))
      (fun r' old h => by
        have hdrop : (r'.dropBatching old).view past accum revealedNow = (r'.view past accum revealedNow).dropLane old :=
          dropBatching_view old
        refine (h.tail (.dropLane _ old)).tail ?_
        rw [← hdrop]
        exact .unroute _ old) r.proc.channelOrder r .refl

theorem onChannelReset_steps (past : List (Sending P S)) (r : Run P S) (resetCount : Nat) :
    Steps rd cx channel on ok (r.view past ∅ ∅) ((r.onChannelReset rd cx channel resetCount).view past ∅ ∅) := by
  unfold Run.onChannelReset
  simp only
  let r₁ := (visit cx.order (r.proc.books.keys.filter fun k => k.chan = ⟨cx.publisher, channel⟩)).foldl
    (fun r key => (r.reportHealth rd cx key false).forgetBook rd cx key) r
  have hbooks : Steps rd cx channel on ok (r.view past ∅ ∅) (r₁.view past ∅ ∅) :=
    foldl_steps past _ (fun r k => by
      rw [forgetBook_view, reportHealth_view]
      exact .single (.forget _ k)) _ r
  have hdrop : (r₁.dropBatching ⟨cx.publisher, channel⟩).view past ∅ ∅ =
      (r₁.view past ∅ ∅).dropLane ⟨cx.publisher, channel⟩ := dropBatching_view _
  refine ((hbooks.tail (.dropLane _ ⟨cx.publisher, channel⟩)).tail (.unroute _ ⟨cx.publisher, channel⟩)).tail ?_
  rw [← hdrop]
  refine .undefine _ _ (fun p i d h => ?_) (.inl ⟨rfl, rfl⟩)
  exact PerPublisher.modifyExisting_definition (fun _ _ _ hdef => RefDataState.onDatagram_definition hdef) h

theorem openLane_view (past : List (Sending P S)) (r : Run P S) (chan : ChannelKey)
    (f : ChannelBatching → ChannelBatching) (hf : ∀ b, (f b).open = b.open) :
    Run.view past { r with
        proc := { r.proc with batching := r.proc.batching.insert chan (f ((r.proc.batching.get chan).getD .new)) } }
      accum revealedNow = (r.view past accum revealedNow).openLane chan := by
  unfold View.openLane
  rw [view_lanes, getD_lanesOf, ← hf, ← lanesOf_insert]
  rfl

/-- **What a header does moves the view.** -/
theorem begin_steps (past : List (Sending P S)) (h : Header) (p : MbpProcessor) :
    Steps rd cx h.channelId on ok (p.view past) ((begin rd cx h p).1.view past) := by
  unfold begin
  simp only
  generalize (if cx.role.handlesMktdata = true then
      ((p.seq.check cx.publisher h.channelId h.resetCount h.sequence cx.monoNs).1,
        decide ((p.seq.check cx.publisher h.channelId h.resetCount h.sequence cx.monoNs).2 ≠ .stale))
      else (p.seq, true)) = x
  have hstate : ∀ r : Run P S, Steps rd cx h.channelId on ok (p.view past) (r.view past ∅ ∅) →
      Steps rd cx h.channelId on ok (p.view past) (Run.view past { r with proc := { r.proc with
        state := { r.proc.state.modify cx.publisher fun s => s.onDatagram h.resetCount with
          lastEvicted := none } } } ∅ ∅) := by
    intro r hr
    refine hr.tail (.undefine _ _ (fun p i d hd => ?_) (.inl ⟨rfl, rfl⟩))
    rcases PerPublisher.modify_definition (Q := fun _ _ => False)
      (fun _ _ _ hdef => .inl (RefDataState.onDatagram_definition hdef)) hd with hold | ⟨-, hfalse⟩
    · exact hold
    · exact hfalse.elim
  have hera : ∀ r : Run P S, Steps rd cx h.channelId on ok (p.view past) (r.view past ∅ ∅) →
      Steps rd cx h.channelId on ok (p.view past) (Run.view past
        (if cx.role.handlesMktdata = true ∧ r.proc.state.states.contains cx.publisher = true then
          if ((noteResetCount r ⟨cx.publisher, h.channelId⟩ h.resetCount).2.any fun c => c ≠ h.resetCount) = true then
            (noteResetCount r ⟨cx.publisher, h.channelId⟩ h.resetCount).1.onChannelReset rd cx h.channelId h.resetCount
          else (noteResetCount r ⟨cx.publisher, h.channelId⟩ h.resetCount).1
        else r) ∅ ∅) := by
    intro r hr
    split
    · have hnote := hr.trans (noteResetCount_steps past r ⟨cx.publisher, h.channelId⟩ h.resetCount)
      split
      · exact hnote.trans (onChannelReset_steps past _ _)
      · exact hnote
    · exact hr
  have hlane : ∀ r : Run P S, Steps rd cx h.channelId on ok (p.view past) (r.view past ∅ ∅) →
      Steps rd cx h.channelId on ok (p.view past) (Run.view past
        (if cx.role.handlesMktdata = true ∧ r.proc.lastReset.contains ⟨cx.publisher, h.channelId⟩ = true then
          { r with
            proc := { r.proc with
              batching := r.proc.batching.insert ⟨cx.publisher, h.channelId⟩
                { (r.proc.batching.get ⟨cx.publisher, h.channelId⟩).getD .new with
                  sinceBoundary := min (((r.proc.batching.get ⟨cx.publisher, h.channelId⟩).getD .new).sinceBoundary + 1)
                    (2 ^ 32 - 1) } } }
        else r) ∅ ∅) := by
    intro r hr
    split
    · refine hr.tail ?_
      rw [openLane_view past r ⟨cx.publisher, h.channelId⟩
        (fun b => { b with sinceBoundary := min (b.sinceBoundary + 1) (2 ^ 32 - 1) }) fun _ => rfl]
      exact .openLane _
    · exact hr
  refine hlane _ (hera _ ?_)
  split
  · split
    · exact hstate ⟨{ p with seq := x.1 }, []⟩ .refl
    · exact (hstate ⟨{ p with seq := x.1 }, []⟩ .refl).trans (forgetPublisher_steps past _ _)
  · exact .refl

theorem enforceBufferBudget_steps (past : List (Sending P S)) : ∀ (n : Nat) (r : Run P S),
    Steps rd cx channel on ok (r.view past accum revealedNow)
      ((Run.enforceBufferBudget rd cx n r).view past accum revealedNow)
  | 0, _ => .refl
  | n + 1, r => by
    unfold Run.enforceBufferBudget
    split
    · split
      · exact .refl
      · rename_i key _
        cases hb : r.proc.books.get key with
        | none =>
          rw [withBook_none hb]
          have hrest : Steps rd cx channel on ok _ _ :=
            enforceBufferBudget_steps past n (r.reportHealth rd cx key false)
          rw [reportHealth_view] at hrest
          exact hrest
        | some b =>
          obtain ⟨-, hview, -⟩ := withBook_some past accum revealedNow (fun b => (b.dropBuffer, ())) hb
          generalize r.withBook key (fun b => (b.dropBuffer, ())) = x at hview ⊢
          have hrest : Steps rd cx channel on ok _ _ :=
            enforceBufferBudget_steps past n (x.1.reportHealth rd cx key false)
          rw [reportHealth_view, hview] at hrest
          exact .head (.dropBuffer _ key b hb) hrest
    · exact .refl

/-- One instrument of `close_open`. -/
theorem closeOpenOne_step (past : List (Sending P S)) (openIds owed : Finset Nat) (r : Run P S) (refused : Finset Nat)
    (id : Nat) (rest : List Nat) (hopen : id ∈ openIds) (hrest : id ∉ rest) (hrefused : id ∉ refused) :
    (((Run.closeOpenOne rd cx channel owed (r, refused) id).1.view past ∅ ∅).withLane ⟨cx.publisher, channel⟩
        (pending openIds rest (Run.closeOpenOne rd cx channel owed (r, refused) id).2)) =
      ((r.view past ∅ ∅).withLane ⟨cx.publisher, channel⟩ (pending openIds (id :: rest) refused)).close rd
        ⟨cx.publisher, channel, id⟩ (decide (id ∈ owed)) := by
  have hmem : id ∈ pending openIds (id :: rest) refused := (mem_pending_cons hrefused).mpr hopen
  unfold Run.closeOpenOne
  simp only
  obtain ⟨hview, hpub⟩ := batch_view past ∅ ∅ r rd cx channel id (id ∈ owed) [] true
  have hclose : ((r.view past ∅ ∅).withLane ⟨cx.publisher, channel⟩ (pending openIds (id :: rest) refused)).close rd
      ⟨cx.publisher, channel, id⟩ (decide (id ∈ owed)) = _ :=
    View.close_batch (id ∈ owed) (by simp [Run.view]) (fun h => h.2 hmem) rfl
  have htake : (r.view past ∅ ∅).take id = r.view past ∅ ∅ := by
    unfold View.take Run.view
    simp only [FinMap.erase_empty, Finset.erase_empty]
  rw [hclose, htake]
  generalize (if id ∈ owed then r.emitRebaseline rd cx channel id
      else r.sendBook rd cx channel id [] false true) = x at hview hpub ⊢
  by_cases hx : x.2 = true
  · rw [if_pos hx]
    refine Eq.trans ?_ (if_pos (hpub ▸ hx)).symm
    rw [pending_erase hrest hrefused]
    exact congrArg (fun v => View.withLane v _ _) hview
  · rw [if_neg hx]
    refine Eq.trans ?_ (if_neg (hpub ▸ hx)).symm
    rw [pending_insert]
    refine congrArg (fun v => View.withLane v _ _) ?_
    exact (emit_view rfl).trans (congrArg (View.emit · _) hview)

theorem closeOpenOne_proc (owed : Finset Nat) (x : Run P S × Finset Nat) (id : Nat) :
    (Run.closeOpenOne rd cx channel owed x id).1.proc = x.1.proc ∧
      (Run.closeOpenOne rd cx channel owed x id).2 ⊆ insert id x.2 := by
  unfold Run.closeOpenOne
  simp only
  have hproc : (if id ∈ owed then x.1.emitRebaseline rd cx channel id
      else x.1.sendBook rd cx channel id [] false true).1.proc = x.1.proc := by
    split
    · exact emitRebaseline_proc _ _
    · exact sendBook_proc _ _ _ _ _
  generalize (if id ∈ owed then x.1.emitRebaseline rd cx channel id
      else x.1.sendBook rd cx channel id [] false true) = y at hproc ⊢
  split
  · exact ⟨hproc, Finset.subset_insert id x.2⟩
  · exact ⟨hproc, Finset.Subset.refl _⟩

theorem closeOpenOne_foldl_steps (past : List (Sending P S)) (openIds owed : Finset Nat) :
    ∀ (ids : List Nat) (x : Run P S × Finset Nat), ids.Nodup → (∀ i ∈ ids, i ∈ openIds ∧ i ∉ x.2) →
      Steps rd cx channel on ok ((x.1.view past ∅ ∅).withLane ⟨cx.publisher, channel⟩ (pending openIds ids x.2))
          (((ids.foldl (Run.closeOpenOne rd cx channel owed) x).1.view past ∅ ∅).withLane ⟨cx.publisher, channel⟩
            (ids.foldl (Run.closeOpenOne rd cx channel owed) x).2) ∧
        (ids.foldl (Run.closeOpenOne rd cx channel owed) x).1.proc = x.1.proc := by
  intro ids
  induction ids with
  | nil =>
    intro x _ _
    rw [pending_nil]
    exact ⟨.refl, rfl⟩
  | cons id rest ih =>
    intro x hnodup hids
    obtain ⟨hrest, hnodup⟩ := List.nodup_cons.mp hnodup
    obtain ⟨hopen, hrefused⟩ := hids id List.mem_cons_self
    have hstep : ((Run.closeOpenOne rd cx channel owed x id).1.view past ∅ ∅).withLane ⟨cx.publisher, channel⟩ _ = _ :=
      closeOpenOne_step past openIds owed x.1 x.2 id rest hopen hrest hrefused
    obtain ⟨hproc, hsub⟩ : (Run.closeOpenOne rd cx channel owed x id).1.proc = _ ∧ _ := closeOpenOne_proc owed x id
    obtain ⟨hsteps, hproc'⟩ := ih (Run.closeOpenOne rd cx channel owed x id) hnodup fun i hi =>
      ⟨(hids i (List.mem_cons_of_mem _ hi)).1, fun hmem => by
        rcases Finset.mem_insert.mp (hsub hmem) with rfl | hold
        · exact hrest hi
        · exact (hids i (List.mem_cons_of_mem _ hi)).2 hold⟩
    refine ⟨.head ?_ hsteps, hproc'.trans hproc⟩
    rw [hstep]
    refine .close _ id _ ?_
    unfold View.withLane
    simp

theorem closeOpen_steps (past : List (Sending P S)) (r : Run P S) (owed : Finset Nat) :
    Steps rd cx channel on ok (r.view past ∅ ∅) ((r.closeOpen rd cx channel owed).view past ∅ ∅) := by
  unfold Run.closeOpen Run.openIds
  simp only
  cases hb : r.proc.batching.get ⟨cx.publisher, channel⟩ with
  | none =>
    have hsame : ∀ f, r.modifyBatching ⟨cx.publisher, channel⟩ f = r := by
      intro f
      unfold Run.modifyBatching
      rw [hb]
    rw [hsame]
    simp only [Option.elim_none, Finset.sort_empty, List.foldl_nil]
    rw [hsame]
  | some b =>
    simp only [Option.elim_some]
    have htaken : (r.modifyBatching ⟨cx.publisher, channel⟩ fun b => { b with «open» := ∅ }).view past ∅ ∅ =
        (r.view past ∅ ∅).withLane ⟨cx.publisher, channel⟩ ∅ := by
      rw [modifyBatching_view ⟨cx.publisher, channel⟩ (fun _ => ∅) fun _ => rfl]
      unfold View.setLane View.withLane
      rw [view_lanes]
      unfold lanesOf
      rw [hb]
      rfl
    have hback : ((r.modifyBatching ⟨cx.publisher, channel⟩ fun b => { b with «open» := ∅ }).view past ∅ ∅).withLane
        ⟨cx.publisher, channel⟩ b.open = r.view past ∅ ∅ := by
      rw [htaken]
      unfold View.withLane
      simp only [Function.update_idem]
      have hlane : (r.view past ∅ ∅).lanes ⟨cx.publisher, channel⟩ = some b.open := by
        rw [view_lanes]
        unfold lanesOf
        rw [hb]
        rfl
      rw [← hlane, Function.update_eq_self]
    have hlane : lanesOf (r.modifyBatching ⟨cx.publisher, channel⟩ fun b => { b with «open» := ∅ }).proc
        ⟨cx.publisher, channel⟩ = some ∅ := by
      have hlanes := congrFun (congrArg View.lanes htaken) ⟨cx.publisher, channel⟩
      unfold View.withLane at hlanes
      rw [view_lanes] at hlanes
      simpa using hlanes
    have hall : pending b.open (b.open.sort (· ≤ ·)) ∅ = b.open := by
      unfold pending
      ext i
      simp
    generalize (r.modifyBatching ⟨cx.publisher, channel⟩ fun b => { b with «open» := ∅ }) = r₁ at hback hlane ⊢
    obtain ⟨hsteps, hproc⟩ : Steps rd cx channel on ok _ _ ∧ _ := closeOpenOne_foldl_steps past b.open owed
      (b.open.sort (· ≤ ·)) (r₁, ∅) (Finset.sort_nodup _ _)
      (fun i hi => ⟨(Finset.mem_sort _).mp hi, Finset.notMem_empty _⟩)
    rw [hall, hback] at hsteps
    refine Eq.mp (congrArg (Steps rd cx channel on ok _) ?_) hsteps
    refine (refused_view past _ _ _ _ _ ?_).symm
    rw [hproc]
    exact hlane

theorem emitOne_view (past : List (Sending P S)) (closes : Bool) (owed : Finset Nat) (f : Frame P S) (id : Nat)
    (changes : List (Change P S)) {accum : FinMap Nat (List (Change P S))} {revealedNow : Finset Nat}
    (haccum : accum.get id = some changes) (hnow : id ∈ revealedNow ↔ id ∈ f.revealedNow) :
    (f.emitOne rd cx channel closes owed (id, changes)).toRun.view past (accum.erase id) (revealedNow.erase id) =
      (f.toRun.view past accum revealedNow).publish rd ⟨cx.publisher, channel, id⟩ closes (decide (id ∈ owed)) := by
  have hget : ((f.toRun.view past accum revealedNow).accum.get id).getD [] = changes := by
    show (accum.get id).getD [] = changes
    rw [haccum]
    rfl
  have hwhole : id ∈ (f.toRun.view past accum revealedNow).revealedNow ∨ (changes ≠ [] ∧ decide (id ∈ owed) = true) ↔
      id ∈ f.revealedNow ∨ (changes ≠ [] ∧ id ∈ owed) := by
    rw [decide_eq_true_iff]
    exact or_congr_left hnow
  have htake : (f.toRun.view past accum revealedNow).take id =
      f.toRun.view past (accum.erase id) (revealedNow.erase id) := rfl
  unfold Frame.emitOne View.publish View.batch
  simp only [hget, hwhole, htake]
  by_cases hw : id ∈ f.revealedNow ∨ (changes ≠ [] ∧ id ∈ owed)
  · obtain ⟨hview, hpub⟩ := emitRebaseline_view past (accum.erase id) (revealedNow.erase id) f.toRun rd cx channel id
    simp only [hw, true_or, if_true]
    exact noteIf_view ⟨cx.publisher, channel⟩ id true hview hpub
  · simp only [hw, false_or, if_false]
    by_cases hc : changes = []
    · simp only [hc, ne_eq, not_true_eq_false, if_false]
    · obtain ⟨hview, hpub⟩ := sendBook_view past (accum.erase id) (revealedNow.erase id) f.toRun rd cx channel id changes
        false closes
      simp only [hc, ne_eq, not_false_eq_true, if_true]
      exact noteIf_view ⟨cx.publisher, channel⟩ id closes hview hpub

theorem emitRevealed_view (past : List (Sending P S)) (accumKeys : Finset Nat) (f : Frame P S) (id : Nat)
    {revealedNow : Finset Nat} (hkey : id ∉ accumKeys) (hnow : id ∈ revealedNow) :
    (f.emitRevealed rd cx channel accumKeys id).toRun.view past ∅ (revealedNow.erase id) =
      (f.toRun.view past ∅ revealedNow).publish rd ⟨cx.publisher, channel, id⟩ true false := by
  have htake : (f.toRun.view past ∅ revealedNow).take id = f.toRun.view past ∅ (revealedNow.erase id) := by
    unfold View.take Run.view
    simp only [FinMap.erase_empty]
  have hget : ((f.toRun.view past ∅ revealedNow).accum.get id).getD [] = [] := rfl
  have hmem : id ∈ (f.toRun.view past ∅ revealedNow).revealedNow := hnow
  unfold Frame.emitRevealed View.publish View.batch
  simp only [hget, htake, hmem, true_or, if_true]
  rw [if_neg hkey]
  obtain ⟨hview, hpub⟩ := emitRebaseline_view past ∅ (revealedNow.erase id) f.toRun rd cx channel id
  exact noteIf_view ⟨cx.publisher, channel⟩ id true hview hpub

theorem publish_lanes_isSome (v : View P S) (key : PriceBookKey) (closes owed : Bool) (chan : ChannelKey) :
    ((v.publish rd key closes owed).lanes chan).isSome = (v.lanes chan).isSome := by
  have hsend : ∀ (v : View P S) changes last, (v.send key changes last).1.lanes = v.lanes := by
    intro v changes last
    unfold View.send
    split
    · split <;> rfl
    · rfl
  have hbatch : ∀ (v : View P S) (whole : Prop) [Decidable whole] changes last,
      (v.batch rd key whole changes last).1.lanes = v.lanes := by
    intro v whole _ changes last
    unfold View.batch View.rebaseline
    split
    · split
      · exact hsend _ _ _
      · rfl
    · exact hsend _ _ _
  have hnote : ∀ (v : View P S) last, ((v.note key last).lanes chan).isSome = (v.lanes chan).isSome := by
    intro v last
    unfold View.note View.setLane
    simp only [Function.update_apply]
    split
    · rename_i hc
      rw [Option.isSome_map, hc]
    · rfl
  unfold View.publish
  simp only
  split
  · split
    · rw [hnote, hbatch]
      rfl
    · rw [hbatch]
      rfl
  · rfl

theorem emitOne_frame (closes : Bool) (owed : Finset Nat) (f : Frame P S) (e : Nat × List (Change P S)) :
    (f.emitOne rd cx channel closes owed e).accum = f.accum ∧
      (f.emitOne rd cx channel closes owed e).revealedNow = f.revealedNow := by
  unfold Frame.emitOne
  simp only
  split
  · exact ⟨rfl, rfl⟩
  · split <;> exact ⟨rfl, rfl⟩

/-- The first loop of the emit pass takes what its instruments had to publish. -/
theorem emitOne_foldl_steps (past : List (Sending P S)) (closes : Bool) (owed : Finset Nat) :
    ∀ (l : List (Nat × List (Change P S))) (f : Frame P S) (accum : FinMap Nat (List (Change P S)))
      (revealedNow : Finset Nat), (l.map Prod.fst).Nodup → (∀ e ∈ l, accum.get e.1 = some e.2) →
      (∀ e ∈ l, e.1 ∈ revealedNow ↔ e.1 ∈ f.revealedNow) →
      (closes = false → (lanesOf f.proc ⟨cx.publisher, channel⟩).isSome = true) →
      ∃ accum' revealedNow', Steps rd cx channel on ok (f.toRun.view past accum revealedNow)
          ((l.foldl (Frame.emitOne rd cx channel closes owed) f).toRun.view past accum' revealedNow') ∧
        (∀ i, accum'.get i = if i ∈ l.map Prod.fst then none else accum.get i) ∧
        (∀ i, i ∈ revealedNow' ↔ i ∈ revealedNow ∧ i ∉ l.map Prod.fst) := by
  intro l
  induction l with
  | nil =>
    intro f accum revealedNow _ _ _ _
    exact ⟨accum, revealedNow, .refl, fun i => by simp, fun i => by simp⟩
  | cons e l ih =>
    obtain ⟨id, changes⟩ := e
    intro f accum revealedNow hnodup haccum hnow hlane
    obtain ⟨hid, hnodup⟩ := List.nodup_cons.mp hnodup
    have hview : (f.emitOne rd cx channel closes owed (id, changes)).toRun.view past _ _ = _ :=
      emitOne_view past closes owed f id changes (haccum _ List.mem_cons_self) (hnow _ List.mem_cons_self)
    have hne : ∀ e ∈ l, e.1 ≠ id := fun e he heq =>
      hid (List.mem_map.mpr ⟨e, he, heq⟩)
    obtain ⟨accum', revealedNow', hsteps, hget, hmem⟩ := ih (f.emitOne rd cx channel closes owed (id, changes))
      (accum.erase id) (revealedNow.erase id) hnodup
      (fun e he => by
        rw [FinMap.get_erase_of_ne _ (hne e he)]
        exact haccum e (List.mem_cons_of_mem _ he))
      (fun e he => by
        rw [(emitOne_frame closes owed f (id, changes)).2, Finset.mem_erase]
        exact ⟨fun h => (hnow e (List.mem_cons_of_mem _ he)).mp h.2,
          fun h => ⟨hne e he, (hnow e (List.mem_cons_of_mem _ he)).mpr h⟩⟩)
      (fun hc => by
        have hlanes := congrArg View.lanes hview
        rw [view_lanes] at hlanes
        rw [hlanes, publish_lanes_isSome]
        exact hlane hc)
    refine ⟨accum', revealedNow', .head ?_ hsteps, fun i => ?_, fun i => ?_⟩
    · rw [hview]
      exact .publish _ id closes _ hlane
    · rw [hget, List.map_cons]
      by_cases hi : i = id
      · subst hi
        simp
      · simp only [FinMap.get_erase_of_ne _ hi, List.mem_cons, hi, false_or]
    · rw [hmem, List.map_cons, Finset.mem_erase, List.mem_cons]
      tauto

/-- The second loop of the emit pass. -/
theorem emitRevealed_foldl_steps (past : List (Sending P S)) (accumKeys : Finset Nat) :
    ∀ (ids : List Nat) (f : Frame P S) (revealedNow : Finset Nat), ids.Nodup →
      (∀ i, i ∈ revealedNow ↔ i ∈ ids ∧ i ∉ accumKeys) →
      Steps rd cx channel on ok (f.toRun.view past ∅ revealedNow)
        ((ids.foldl (Frame.emitRevealed rd cx channel accumKeys) f).toRun.view past ∅ ∅) := by
  intro ids
  induction ids with
  | nil =>
    intro f revealedNow _ hnow
    have hempty : revealedNow = ∅ :=
      Finset.eq_empty_of_forall_notMem fun i hi => List.not_mem_nil ((hnow i).mp hi).1
    rw [hempty]
    exact .refl
  | cons id ids ih =>
    intro f revealedNow hnodup hnow
    obtain ⟨hid, hnodup⟩ := List.nodup_cons.mp hnodup
    by_cases hkey : id ∈ accumKeys
    · have hsame : f.emitRevealed rd cx channel accumKeys id = f := by
        unfold Frame.emitRevealed
        rw [if_pos hkey]
      rw [List.foldl_cons, hsame]
      refine ih f revealedNow hnodup fun i => ?_
      rw [hnow, List.mem_cons]
      constructor
      · rintro ⟨rfl | hi, hn⟩
        · exact absurd hkey hn
        · exact ⟨hi, hn⟩
      · rintro ⟨hi, hn⟩
        exact ⟨.inr hi, hn⟩
    · have hmem : id ∈ revealedNow := (hnow id).mpr ⟨List.mem_cons_self, hkey⟩
      have hview : (f.emitRevealed rd cx channel accumKeys id).toRun.view past _ _ = _ :=
        emitRevealed_view past accumKeys f id hkey hmem
      refine .head ?_ (ih (f.emitRevealed rd cx channel accumKeys id) (revealedNow.erase id) hnodup fun i => ?_)
      · rw [hview]
        exact .publish _ id true false (by simp)
      · rw [Finset.mem_erase, hnow, List.mem_cons]
        constructor
        · rintro ⟨hne, rfl | hi, hn⟩
          · exact absurd rfl hne
          · exact ⟨hi, hn⟩
        · rintro ⟨hi, hn⟩
          exact ⟨fun h => hid (h ▸ hi), .inr hi, hn⟩

theorem reportTouched_view (past : List (Sending P S)) (f : Frame P S) (id : Nat) (accum : FinMap Nat (List (Change P S)))
    (revealedNow : Finset Nat) :
    (f.reportTouched rd cx channel id).toRun.view past accum revealedNow = f.toRun.view past accum revealedNow := by
  unfold Frame.reportTouched
  simp only
  split
  · rfl
  · exact reportHealth_view _

/-- **The end of a datagram moves the view, and leaves nothing to publish.** -/
theorem emitPass_steps (past : List (Sending P S)) (f : Frame P S) :
    Steps rd cx channel on ok (f.view past) ((f.emitPass rd cx channel).toRun.view past ∅ ∅) := by
  unfold Frame.emitPass
  simp only
  generalize hcloses : (!Run.batchesEvents f.proc ⟨cx.publisher, channel⟩ cx.recvTsNs) = closes
  have hlapsed : ((if closes = true then
      { f with toRun := f.toRun.modifyBatching ⟨cx.publisher, channel⟩ fun b => { b with slotLapsed := true } }
      else f).view past = f.view past) := by
    split
    · exact modifyBatching_view_same _ fun _ => rfl
    · rfl
  have hlane : closes = false → (lanesOf f.proc ⟨cx.publisher, channel⟩).isSome = true := by
    rintro rfl
    unfold Run.batchesEvents at hcloses
    unfold lanesOf
    cases hb : f.proc.batching.get ⟨cx.publisher, channel⟩ with
    | none => simp [hb] at hcloses
    | some b => rfl
  have hlanes := congrArg View.lanes hlapsed
  generalize (if closes = true then
      { f with toRun := f.toRun.modifyBatching ⟨cx.publisher, channel⟩ fun b => { b with slotLapsed := true } }
      else f) = g at hlapsed hlanes ⊢
  rw [← hlapsed]
  generalize (if closes = true then g.toRun.rebaselinesOwed rd cx channel
    (g.accum.keys ∪ Run.openIds g.proc ⟨cx.publisher, channel⟩) else ∅) = owed
  have htouched : ∀ (ids : List Nat) (g : Frame P S),
      (ids.foldl (Frame.reportTouched rd cx channel) g).toRun.view past ∅ ∅ = g.toRun.view past ∅ ∅ := fun ids g =>
    foldl_keeps (fun g : Frame P S => g.toRun.view past ∅ ∅) _ (fun g i => reportTouched_view past g i ∅ ∅) ids g
  rw [htouched]
  obtain ⟨accum', revealedNow', hfirst, hget, hmem⟩ : ∃ accum' revealedNow', Steps rd cx channel on ok _ _ ∧ _ :=
    emitOne_foldl_steps past closes owed g.accum.toList g g.accum g.revealedNow
      (by
        rw [FinMap.map_fst_toList]
        exact Finset.sort_nodup _ _)
      (fun e he => FinMap.mem_toList.mp he) (fun e _ => Iff.rfl)
      (fun hc => (congrArg Option.isSome (congrFun hlanes ⟨cx.publisher, channel⟩)).trans (hlane hc))
  have hkeys : ∀ i, i ∈ g.accum.toList.map Prod.fst ↔ i ∈ g.accum.keys := by
    intro i
    rw [FinMap.map_fst_toList, Finset.mem_sort]
  have hempty : accum' = ∅ := FinMap.ext fun i => by
    rw [hget]
    split
    · rfl
    · rename_i hi
      exact FinMap.notMem_keys_iff.mp (fun h => hi ((hkeys i).mpr h))
  rw [hempty] at hfirst
  have hframe : (g.accum.toList.foldl (Frame.emitOne rd cx channel closes owed) g).accum = g.accum ∧
      (g.accum.toList.foldl (Frame.emitOne rd cx channel closes owed) g).revealedNow = g.revealedNow :=
    ⟨foldl_keeps Frame.accum _ (fun g e => (emitOne_frame closes owed g e).1) _ g,
      foldl_keeps Frame.revealedNow _ (fun g e => (emitOne_frame closes owed g e).2) _ g⟩
  generalize g.accum.toList.foldl (Frame.emitOne rd cx channel closes owed) g = g₁ at hfirst hframe ⊢
  have hsecond : Steps rd cx channel on ok _ _ := emitRevealed_foldl_steps past g₁.accum.keys
    (g₁.revealedNow.sort (· ≤ ·)) g₁ revealedNow' (Finset.sort_nodup _ _) fun i => by
      rw [hmem, hkeys, Finset.mem_sort, hframe.1, hframe.2]
  generalize (g₁.revealedNow.sort (· ≤ ·)).foldl (Frame.emitRevealed rd cx channel g₁.accum.keys) g₁ = g₂ at hsecond ⊢
  refine hfirst.trans (hsecond.trans ?_)
  split
  · exact closeOpen_steps past g₂.toRun owed
  · exact .refl

/-! ## The calls -/

/-- Every end of a snapshot group meets `ok` where it comes. -/
def EndsOk (ok : View P S → SnapshotEnd → Prop) (rd : Render P S) (cx : Ctx P S) (h : Header) (fresh : Bool)
    (past : List (Sending P S)) (f : Frame P S) : List Message → Prop
  | [] => True
  | m :: ms =>
    (∀ e, m = .snapshotEnd e → ok (f.view past) e) ∧ EndsOk ok rd cx h fresh past (f.onMessage rd cx h fresh m) ms

theorem endsOk_of_true (h : Header) (fresh : Bool) (past : List (Sending P S)) :
    ∀ (ms : List Message) (f : Frame P S), EndsOk (fun _ _ => True) rd cx h fresh past f ms
  | [], _ => trivial
  | _ :: ms, _ => ⟨fun _ _ => trivial, endsOk_of_true h fresh past ms _⟩

theorem messages_steps (past : List (Sending P S)) (h : Header) (fresh : Bool) :
    ∀ (ms : List Message) (f : Frame P S), (∀ m ∈ ms, on m) → EndsOk ok rd cx h fresh past f ms →
      Steps rd cx h.channelId on ok (f.view past) ((ms.foldl (Frame.onMessage rd cx h fresh) f).view past)
  | [], _, _, _ => .refl
  | m :: ms, f, hon, hok =>
    (onMessage_steps past h fresh f m (hon m List.mem_cons_self) hok.1).trans
      (messages_steps past h fresh ms _ (fun m' hm' => hon m' (List.mem_cons_of_mem _ hm')) hok.2)

theorem run_view_eq (past : List (Sending P S)) (r : Run P S) :
    r.view past ∅ ∅ = r.proc.view (past ++ r.out.filterMap Out.sent) := by
  unfold MbpProcessor.view Run.view
  simp

/-- **A datagram moves the view of the processor.** -/
theorem onDatagram_steps (past : List (Sending P S)) (p : MbpProcessor) (d : Datagram)
    (hok : EndsOk ok rd cx d.header (begin rd cx d.header p).2 past (begin rd cx d.header p).1 d.messages) :
    Steps rd cx d.header.channelId (fun m => m ∈ d.messages) ok (p.view past)
      ((onDatagram rd cx p d).proc.view (past ++ (onDatagram rd cx p d).out.filterMap Out.sent)) := by
  rw [← run_view_eq]
  unfold onDatagram
  simp only
  have hbegin : Steps rd cx d.header.channelId (fun m => m ∈ d.messages) ok (p.view past) _ :=
    begin_steps past d.header p
  generalize begin rd cx d.header p = x at hok hbegin ⊢
  have hmessages := messages_steps past d.header x.2 d.messages x.1 (fun _ hm => hm) hok
  generalize d.messages.foldl (Frame.onMessage rd cx d.header x.2) x.1 = f at hmessages ⊢
  have hbudget : Steps rd cx d.header.channelId (fun m => m ∈ d.messages) ok (f.view past) _ :=
    enforceBufferBudget_steps past f.proc.bufferedTotal f.toRun
  exact hbegin.trans (hmessages.trans (hbudget.trans
    (emitPass_steps past { f with toRun := Run.enforceBufferBudget rd cx f.proc.bufferedTotal f.toRun })))

/-- The context of one channel of a tick. -/
def Ctx.ofTick (cx : Ctx P S) (publisher : IpAddr) : Ctx P S :=
  { cx with publisher, role := .mktdata, kernelRxTsNs := 0 }

/-- **What every move of a tick preserves, the tick preserves.** -/
theorem onTick_rule {I : View P S → Prop} (ok : View P S → SnapshotEnd → Prop)
    (h : ∀ publisher channel v v', Move rd (cx.ofTick publisher) channel (fun _ => False) ok v v' → I v → I v')
    (past : List (Sending P S)) (order : List ChannelKey) (p : MbpProcessor) (hp : I (p.view past)) :
    I ((onTick rd cx order p).proc.view (past ++ (onTick rd cx order p).out.filterMap Out.sent)) := by
  rw [← run_view_eq]
  unfold onTick
  simp only
  generalize visit order _ = chans
  have hrun : I ((⟨p, []⟩ : Run P S).view past ∅ ∅) := hp
  generalize (⟨p, []⟩ : Run P S) = r at hrun
  induction chans generalizing r with
  | nil => exact hrun
  | cons chan chans ih =>
    refine ih _ ?_
    unfold tickOne
    simp only
    have hlapsed : (r.modifyBatching chan fun b => { b with slotLapsed := true }).view past ∅ ∅ =
        r.view past ∅ ∅ := modifyBatching_view_same chan fun _ => rfl
    rw [← hlapsed] at hrun
    generalize (r.modifyBatching chan fun b => { b with slotLapsed := true }) = r₁ at hrun ⊢
    exact Steps.rule (h chan.publisher chan.channel)
      (closeOpen_steps past r₁ ((r₁.rebaselinesOwed rd (cx.ofTick chan.publisher) chan.channel _))) hrun

end Ends

section Runs

variable {P S : Type}

/-- A call of the processor. -/
inductive Input (P S : Type) where
  | datagram (cx : Ctx P S) (d : Datagram)
  | tick (cx : Ctx P S) (order : List ChannelKey)

def stepWith (rd : Render P S) (p : MbpProcessor) : Input P S → MbpProcessor × List (Out P S)
  | .datagram cx d => ((onDatagram rd cx p d).proc, (onDatagram rd cx p d).out)
  | .tick cx order => ((onTick rd cx order p).proc, (onTick rd cx order p).out)

/-- The processor as a machine: each call answers with what it handed on. -/
def processor (rd : Render P S) : Machine MbpProcessor (Input P S) (List (Out P S)) := ⟨stepWith rd⟩

/-- What a run handed on. -/
def outputs (rd : Render P S) (is : List (Input P S)) : List (Out P S) :=
  ((processor rd).trace .new is).flatMap Prod.snd

/-- What a run sent. -/
def sentBy (rd : Render P S) (is : List (Input P S)) : List (Sending P S) := (outputs rd is).filterMap Out.sent

def after (rd : Render P S) (is : List (Input P S)) : MbpProcessor := (processor rd).exec .new is

theorem after_append (rd : Render P S) (is : List (Input P S)) (i : Input P S) :
    after rd (is ++ [i]) = (stepWith rd (after rd is) i).1 := by
  unfold after
  rw [Machine.exec_append]
  rfl

theorem sentBy_append (rd : Render P S) (is : List (Input P S)) (i : Input P S) :
    sentBy rd (is ++ [i]) = sentBy rd is ++ (stepWith rd (after rd is) i).2.filterMap Out.sent := by
  unfold sentBy outputs
  rw [Machine.trace_append, List.flatMap_append, List.filterMap_append]
  simp
  rfl

end Runs

end EdgeConnect.Mbp
