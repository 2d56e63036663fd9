import EdgeConnect.Ingest.MbpBookkeeping

/-!
# The keys of the Market-by-Price maps (`revealed` and `open` in `src/ingest/processor.rs`)

Every Source ID a processor has revealed is that of a book it holds, and its snapshot routes are within their cap, as
long as no message forces a key in.

* `View.Held` — the containment and the cap; `Held.move` — every move of a quiet message keeps them;
* `Frame.Admits` — a definition that names a Source ID meets its book, and a snapshot group a route of its channel or
  room for one; `Input.Admitted` — every message of a datagram is admitted where it is handled;
* `Contained`, `contained_run`.

The two messages that force a key in are `InstrumentDefinition`, which reveals without a book, and `SnapshotBegin`, whose
routes have no queue of their own to evict from.
-/

set_option autoImplicit false

namespace EdgeConnect.Mbp

open Ingest

section Views

variable {P S : Type} {rd : Render P S} {cx : Ctx P S} {channel : Nat} {ok : View P S → SnapshotEnd → Prop}

/-! ## The view -/

namespace View

/-- Every Source ID is that of a book, and the routes are within their cap. -/
structure Held (v : View P S) : Prop where
  revealed : v.revealed.keys ⊆ v.books.keys
  routes : v.open.size ≤ MAX_CHANNEL_KEYS

variable {v v' : View P S}

theorem Held.mono (h : v.Held) (hbooks : v.books.keys ⊆ v'.books.keys) (hrevealed : v'.revealed.keys ⊆ v.revealed.keys)
    (hopen : v'.open.size ≤ v.open.size) : v'.Held where
  revealed := hrevealed.trans (h.revealed.trans hbooks)
  routes := hopen.trans h.routes

/-- What a book and what is published do not change. -/
structure SameKeys (v v' : View P S) : Prop where
  books : v'.books = v.books
  revealed : v'.revealed = v.revealed
  routes : v'.open = v.open

theorem SameKeys.refl (v : View P S) : v.SameKeys v := ⟨rfl, rfl, rfl⟩

theorem SameKeys.trans {w : View P S} (h : v.SameKeys v') (h' : v'.SameKeys w) : v.SameKeys w :=
  ⟨h'.books.trans h.books, h'.revealed.trans h.revealed, h'.routes.trans h.routes⟩

theorem SameKeys.held (h : v.SameKeys v') (hv : v.Held) : v'.Held :=
  hv.mono (h.books ▸ subset_rfl) (h.revealed ▸ subset_rfl) (h.routes ▸ le_rfl)

theorem note_sameKeys (v : View P S) (key : PriceBookKey) (last : Bool) : v.SameKeys (v.note key last) := ⟨rfl, rfl, rfl⟩

theorem batch_sameKeys (rd : Render P S) (v : View P S) (key : PriceBookKey) (whole : Prop) [Decidable whole]
    (changes : List (Change P S)) (last : Bool) : v.SameKeys (v.batch rd key whole changes last).1 := by
  rcases batch_cases rd v key whole changes last with h | ⟨sourceId, sent, h⟩
  · rw [h]
    exact .refl v
  · rw [h]
    exact ⟨rfl, rfl, rfl⟩

theorem close_sameKeys (v : View P S) (key : PriceBookKey) (owed : Bool) : v.SameKeys (v.close rd key owed) := by
  unfold close
  simp only
  split
  · exact ⟨rfl, rfl, rfl⟩
  · have hbatch := batch_sameKeys rd (v.take key.instrumentId) key
      (key.instrumentId ∈ v.revealedNow ∨ owed = true) ((v.accum.get key.instrumentId).getD []) true
    have htake : v.SameKeys (v.take key.instrumentId) := ⟨rfl, rfl, rfl⟩
    split
    · exact (htake.trans hbatch).trans (note_sameKeys _ key true)
    · exact (htake.trans hbatch).trans ⟨rfl, rfl, rfl⟩

theorem publish_sameKeys (v : View P S) (key : PriceBookKey) (closes owed : Bool) :
    v.SameKeys (v.publish rd key closes owed) := by
  unfold publish
  simp only
  have htake : v.SameKeys (v.take key.instrumentId) := ⟨rfl, rfl, rfl⟩
  split
  · have hbatch := batch_sameKeys rd (v.take key.instrumentId) key
      (key.instrumentId ∈ v.revealedNow ∨ (v.accum.get key.instrumentId).getD [] ≠ [] ∧ owed = true)
      ((v.accum.get key.instrumentId).getD []) closes
    split
    · exact (htake.trans hbatch).trans (note_sameKeys _ key _)
    · exact htake.trans hbatch
  · exact htake

theorem rebaseline_sameKeys (v : View P S) (key : PriceBookKey) : v.SameKeys (v.rebaseline rd key).1 := by
  have hbatch := batch_sameKeys rd v key True [] true
  unfold batch at hbatch
  rwa [if_pos trivial] at hbatch

theorem Held.setBook (h : v.Held) (key : PriceBookKey) (b : PriceBook) : (v.setBook key b).Held := by
  refine h.mono ?_ subset_rfl le_rfl
  rw [View.setBook, FinMap.keys_insert]
  exact Finset.subset_insert key v.books.keys

theorem Held.unroute (h : v.Held) (chan : ChannelKey) : (v.unroute chan).Held := by
  refine h.mono subset_rfl subset_rfl ?_
  rw [View.unroute, FinMap.size_erase]
  split <;> omega

theorem Held.forget (h : v.Held) (key : PriceBookKey) : (v.forget key).Held := by
  have hopen : (v.forget key).open.size ≤ v.open.size := by
    unfold View.forget
    simp only
    split
    · rw [FinMap.size_erase]
      split <;> omega
    · exact le_rfl
  refine ⟨?_, hopen.trans h.routes⟩
  show (v.revealed.erase key).keys ⊆ (v.books.erase key).keys
  rw [FinMap.keys_erase, FinMap.keys_erase]
  exact Finset.erase_subset_erase key h.revealed

theorem Held.purge (h : v.Held) (publisher : IpAddr) : (v.purge publisher).Held := by
  refine ⟨fun k hk => ?_, (FinMap.size_filter_le _ _).trans h.routes⟩
  change k ∈ (v.revealed.filter fun k _ => !decide (k.publisher = publisher)).keys at hk
  rw [FinMap.keys_filter_key v.revealed fun k => !decide (k.publisher = publisher)] at hk
  exact h.revealed (Finset.mem_filter.mp hk).1

theorem Held.snapshotEnd (h : v.Held) (key : PriceBookKey) (e : SnapshotEnd) (b : PriceBook) :
    (v.snapshotEnd rd key e b).Held := by
  unfold View.snapshotEnd
  simp only
  have hset := (h.unroute key.chan).setBook key (b.onSnapshotEnd e.anchorSeq e.snapshotId).1
  generalize (v.unroute key.chan).setBook key (b.onSnapshotEnd e.anchorSeq e.snapshotId).1 = w at hset ⊢
  split
  · have hsame : w.SameKeys { w with
        accum := w.accum.erase key.instrumentId
        revealedNow := w.revealedNow.erase key.instrumentId } := ⟨rfl, rfl, rfl⟩
    split
    · exact ((hsame.trans (rebaseline_sameKeys _ key)).trans (note_sameKeys _ key true)).held hset
    · exact (hsame.trans (rebaseline_sameKeys _ key)).held hset
  · exact hset

theorem Held.instrumentReset (h : v.Held) (key : PriceBookKey) (newAnchorSeq : Nat) (b : PriceBook) :
    (v.instrumentReset key newAnchorSeq b).Held := by
  refine (h.setBook key (b.onInstrumentReset newAnchorSeq)).mono subset_rfl ?_ le_rfl
  show (v.revealed.erase key).keys ⊆ v.revealed.keys
  rw [FinMap.keys_erase]
  exact Finset.erase_subset key v.revealed.keys

end View

/-- The messages that force no key in: all but the deltas and trades, the begins of snapshot groups and the definitions
that name a Source ID. -/
def Message.Quiet : Message → Prop
  | .levelUpdate _ | .bookClear _ | .trade _ | .snapshotBegin _ => False
  | .instrumentDefinition d => d.sourceId = none
  | _ => True

theorem notQuiet_of_isMarket {m : Message} (h : m.isMarket = true) : ¬ m.Quiet := by
  cases m <;> simp [Message.isMarket, Message.Quiet] at h ⊢

/-- **Every move of a quiet message keeps the containments.** -/
theorem View.Held.move {on : Message → Prop} (hquiet : ∀ m, on m → m.Quiet) {v v' : View P S}
    (hm : Move rd cx channel on ok v v') (h : v.Held) : v'.Held := by
  cases hm with
  | forget key => exact h.forget key
  | purge publisher hb => exact h.purge publisher
  | fresh id hd hb => exact h.setBook _ .new
  | delta m hon hmarket id op b d hb hd => exact absurd (hquiet m hon) (notQuiet_of_isMarket hmarket)
  | reveal m hon hmarket id sourceId hd hne => exact absurd (hquiet m hon) (notQuiet_of_isMarket hmarket)
  | revealDefined d hon hrole sourceId hsource hd hne =>
    have hnone : d.sourceId = none := hquiet _ hon
    rw [hnone] at hsource
    cases hsource
  | undefine defs hdefs hwhen => exact h.mono subset_rfl subset_rfl le_rfl
  | define d hon hrole defs hdefs => exact h.mono subset_rfl subset_rfl le_rfl
  | snapshotBegin s hon b hb => exact (hquiet _ hon).elim
  | snapshotLevel l hon g b hroute hid hg hb => exact h.setBook _ _
  | unroute chan => exact h.unroute chan
  | snapshotEnd e hon g b hroute hid hg hb hok => exact h.snapshotEnd _ e b
  | instrumentReset id newAnchorSeq hon b hb => exact h.instrumentReset _ newAnchorSeq b
  | endSession id b hb => exact (h.setBook _ b.onEndOfSession).mono subset_rfl subset_rfl le_rfl
  | dropBuffer key b hb => exact h.setBook key b.dropBuffer
  | dropLane chan => exact h.mono subset_rfl subset_rfl le_rfl
  | openLane => exact h.mono subset_rfl subset_rfl le_rfl
  | close id owed hlane => exact (View.close_sameKeys _ _ owed).held h
  | publish id closes owed hlane => exact (View.publish_sameKeys _ _ closes owed).held h

/-- A run of moves of quiet messages. -/
abbrev QuietSteps (rd : Render P S) (cx : Ctx P S) (channel : Nat) : View P S → View P S → Prop :=
  Steps rd cx channel Message.Quiet fun _ _ => True

theorem View.Held.steps {v v' : View P S} (hs : QuietSteps rd cx channel v v') (h : v.Held) : v'.Held :=
  Steps.rule (fun _ _ hm hv => hv.move (fun _ hq => hq) hm) hs h

/-! ## One message -/

variable {r : Run P S} {f : Frame P S}

theorem reveal_held (h : (f.view []).Held) {key : PriceBookKey} (hkey : key ∈ f.proc.books.keys) (sourceId : Nat) :
    ((f.reveal rd cx key sourceId).view []).Held := by
  unfold Frame.reveal
  rcases revealIfNeeded_cases [] f.accum f.revealedNow f.toRun key sourceId with heq | ⟨-, -, -, hview⟩
  · rw [heq]
    exact h
  · have hproc : ((f.toRun.revealIfNeeded rd cx key sourceId).1.view [] f.accum f.revealedNow).Held := by
      rw [hview]
      refine ⟨?_, h.routes⟩
      show (f.proc.revealed.insert key sourceId).keys ⊆ f.proc.books.keys
      rw [FinMap.keys_insert]
      exact Finset.insert_subset hkey h.revealed
    exact ⟨hproc.revealed, hproc.routes⟩

theorem onDelta_held (h : (f.view []).Held) (id sourceId : Nat) (op : DeltaOp)
    (changes : List (UInt8 × Int) → List (Change P S)) :
    ((f.onDelta rd cx channel id sourceId op changes).view []).Held := by
  unfold Frame.onDelta
  rcases ensureBook_cases Message.Quiet (fun _ _ => True) [] f.accum f.revealedNow
    f.toRun id with ⟨-, heq⟩ | ⟨b, r, -, heq, hsteps, -, hb⟩
  · rw [heq]
    exact h
  · rw [heq]
    simp only
    obtain ⟨hsnd, hview, -⟩ :=
      withBook_some [] f.accum f.revealedNow (fun b => ((b.onDelta op).1, (b.onDelta op).2)) hb
    generalize r.withBook ⟨cx.publisher, channel, id⟩ (fun b => ((b.onDelta op).1, (b.onDelta op).2)) = x at hsnd hview ⊢
    obtain ⟨r', y⟩ := x
    cases hsnd
    simp only at hview ⊢
    have hheld : (Frame.view [] { f with toRun := r', touched := insert id f.touched }).Held := by
      show (r'.view [] f.accum f.revealedNow).Held
      rw [hview]
      exact (h.steps hsteps).setBook _ _
    have hkey : (⟨cx.publisher, channel, id⟩ : PriceBookKey) ∈ r'.proc.books.keys := by
      have hbooks : r'.proc.books = r.proc.books.insert ⟨cx.publisher, channel, id⟩ (b.onDelta op).1 :=
        congrArg View.books hview
      rw [hbooks, FinMap.keys_insert]
      exact Finset.mem_insert_self _ _
    have hreveal : (Frame.view [] (Frame.reveal rd cx
        { f with toRun := r', touched := insert id f.touched } ⟨cx.publisher, channel, id⟩ sourceId)).Held :=
      reveal_held hheld hkey sourceId
    split
    · exact ⟨hreveal.revealed, hreveal.routes⟩
    · exact hreveal

theorem onTrade_held (h : (f.view []).Held) (t : Trade) : ((f.onTrade rd cx channel t).view []).Held := by
  unfold Frame.onTrade
  split
  · exact h
  · simp only
    have htape : ∀ (g : Frame P S) (o : Out P S), (g.view []).Held →
        (Frame.view [] (if cx.tape = true then { g with toRun := g.toRun.emit o } else g)).Held := by
      intro g o hg
      split
      · exact ⟨hg.revealed, hg.routes⟩
      · exact hg
    refine htape _ _ ?_
    rcases ensureBook_cases Message.Quiet (fun _ _ => True) [] f.accum f.revealedNow
      f.toRun t.instrumentId with ⟨-, heq⟩ | ⟨b, r, -, heq, hsteps, -, hb⟩
    · rw [heq]
      exact h
    · rw [heq]
      have hheld : (Frame.view [] { f with toRun := r }).Held := h.steps hsteps
      exact reveal_held hheld (FinMap.mem_keys_iff.mpr ⟨b, hb⟩) t.sourceId

/-! ## The two messages that force a key in -/

/-- The oldest book makes room for a new one, and takes a route along. -/
def MbpProcessor.FreesRoute (p : MbpProcessor) (key : PriceBookKey) : Prop :=
  p.books.contains key = false ∧ MAX_PRICE_BOOKS ≤ p.books.size ∧
    (p.booksOrder.head?.any fun old => (p.open.get old.chan).any fun g => g.instrumentId = old.instrumentId) = true

theorem reportForget_open (r : Run P S) (old : PriceBookKey) :
    ((r.reportHealth rd cx old false).forgetBook rd cx old).proc.open = ((r.view [] ∅ ∅).forget old).open := by
  have hview : ((r.reportHealth rd cx old false).forgetBook rd cx old).view [] ∅ ∅ = (r.view [] ∅ ∅).forget old := by
    rw [forgetBook_view, reportHealth_view]
  exact congrArg View.open hview

theorem forget_open_keys (v : View P S) (key : PriceBookKey) : (v.forget key).open.keys ⊆ v.open.keys := by
  unfold View.forget
  simp only
  split
  · rw [FinMap.keys_erase]
    exact Finset.erase_subset _ _
  · exact subset_rfl

theorem forget_open_size_lt {v : View P S} {key : PriceBookKey}
    (h : (v.open.get key.chan).any (fun g => g.instrumentId = key.instrumentId) = true) :
    (v.forget key).open.size < v.open.size := by
  have hmem : key.chan ∈ v.open.keys := by
    obtain ⟨g, hg, -⟩ := Option.any_eq_true _ _ |>.mp h
    exact FinMap.mem_keys_iff.mpr ⟨g, hg⟩
  unfold View.forget
  simp only
  rw [if_pos h]
  exact Finset.card_erase_lt_of_mem hmem

/-- Making room for a book makes no route, and may take one. -/
theorem ensureBook_open (rd : Render P S) (cx : Ctx P S) (channel : Nat) (r : Run P S) (id : Nat) :
    (r.ensureBook rd cx channel id).1.proc.open.keys ⊆ r.proc.open.keys ∧
      ((r.proc.state.definition cx.publisher id).isSome = true → r.proc.FreesRoute ⟨cx.publisher, channel, id⟩ →
        (r.ensureBook rd cx channel id).1.proc.open.size < r.proc.open.size) := by
  have hdrop : ∀ (s : Finset ChannelKey) (r : Run P S) (old : PriceBookKey), r.proc.open.keys ⊆ s →
      (Run.forgetBook rd cx (Run.reportHealth rd cx r old false) old).proc.open.keys ⊆ s := by
    intro s r old hr
    rw [reportForget_open]
    exact (forget_open_keys _ old).trans hr
  unfold Run.ensureBook
  split
  · rename_i hnone
    refine ⟨subset_rfl, fun hd => ?_⟩
    rw [hnone] at hd
    cases hd
  · simp only
    split
    · rename_i hc
      refine ⟨subset_rfl, fun _ hfrees => ?_⟩
      rw [hfrees.1] at hc
      cases hc
    · refine ⟨evictWhile_rule _ _ (hdrop _) r.proc.booksOrder r subset_rfl,
        fun _ ⟨_, hfull, hfirst⟩ => ?_⟩
      obtain ⟨old, hold, hroute⟩ := Option.any_eq_true _ _ |>.mp hfirst
      obtain ⟨queue, horder⟩ := List.head?_eq_some_iff.mp hold
      rw [horder]
      unfold evictWhile
      rw [if_pos (decide_eq_true hfull)]
      refine lt_of_le_of_lt (Finset.card_le_card (evictWhile_rule _ _ (hdrop _) queue _ subset_rfl)) ?_
      rw [reportForget_open]
      exact forget_open_size_lt hroute

/-- Once the book of an admitted begin is there, so is a route of its channel or room for one. -/
theorem ensureBook_room (rd : Render P S) {chan : ChannelKey} {id : Nat} (hroutes : r.proc.open.size ≤ MAX_CHANNEL_KEYS)
    (hd : (r.proc.state.definition cx.publisher id).isSome = true)
    (h : r.proc.open.contains chan = true ∨ r.proc.open.size < MAX_CHANNEL_KEYS ∨
      r.proc.FreesRoute ⟨cx.publisher, channel, id⟩) :
    (r.ensureBook rd cx channel id).1.proc.open.contains chan = true ∨
      (r.ensureBook rd cx channel id).1.proc.open.size < MAX_CHANNEL_KEYS := by
  obtain ⟨hkeys, hfrees⟩ := ensureBook_open rd cx channel r id
  rcases h with h | h | h
  · by_cases hc : (r.ensureBook rd cx channel id).1.proc.open.contains chan = true
    · exact .inl hc
    · -- the route of the channel went with the book that made room
      refine .inr (lt_of_lt_of_le (Finset.card_lt_card ⟨hkeys, fun hsub => hc ?_⟩) hroutes)
      exact FinMap.contains_eq_true.mpr
        (FinMap.mem_keys_iff.mp (hsub (FinMap.mem_keys_iff.mpr (FinMap.contains_eq_true.mp h))))
  · exact .inr (lt_of_le_of_lt (Finset.card_le_card hkeys) h)
  · exact .inr (lt_of_lt_of_le (hfrees hd h) hroutes)

/-- What a message meets where it is handled, if it is to force no key in.  A definition that resolves and names a
Source ID meets the book of its instrument; the begin of a snapshot group that is not dropped meets a route of its
channel, or room for one. -/
def Frame.Admits (cx : Ctx P S) (h : Header) (f : Frame P S) : Message → Prop
  | .instrumentDefinition d =>
    cx.role.handlesRefdata = true → d.sourceId.isSome = true →
      ((f.proc.state.modify cx.publisher fun s => s.onInstrumentDefinition d).definition cx.publisher
        d.instrumentId).isSome = true →
      f.proc.books.contains ⟨cx.publisher, h.channelId, d.instrumentId⟩ = true
  | .snapshotBegin s =>
    (f.proc.lastReset.get ⟨cx.publisher, h.channelId⟩).any (fun era => era ≠ h.resetCount) = false →
      (f.proc.state.definition cx.publisher s.instrumentId).isSome = true →
      f.proc.open.contains ⟨cx.publisher, h.channelId⟩ = true ∨ f.proc.open.size < MAX_CHANNEL_KEYS ∨
        f.proc.FreesRoute ⟨cx.publisher, h.channelId, s.instrumentId⟩
  | _ => True

theorem insert_open_le {m : FinMap ChannelKey OpenGroup} {chan : ChannelKey} {n : Nat} (hn : m.size ≤ n)
    (h : m.contains chan = true ∨ m.size < n) (g : OpenGroup) : (m.insert chan g).size ≤ n := by
  rw [FinMap.size_insert]
  split
  · exact hn
  · rename_i hc
    rcases h with h | h
    · exact absurd h hc
    · omega

theorem onSnapshotBegin_held (h : (f.view []).Held) (header : Header) (s : SnapshotBegin)
    (hadmits : f.Admits cx header (.snapshotBegin s)) :
    ((f.onSnapshotBegin rd cx header.channelId header.resetCount s).view []).Held := by
  unfold Frame.Admits at hadmits
  unfold Frame.onSnapshotBegin
  simp only
  -- the tombstone of the last dropped group goes first, and nothing here reads it
  generalize hg : (if f.proc.dropped.contains ⟨cx.publisher, header.channelId⟩ = true then
      { f with proc := { f.proc with dropped := f.proc.dropped.insert ⟨cx.publisher, header.channelId⟩ none } } else f) = g
  have hheld : (g.view []).Held := by
    rw [← hg]
    split <;> exact ⟨h.revealed, h.routes⟩
  have hadmits : (g.proc.lastReset.get ⟨cx.publisher, header.channelId⟩).any (fun era => era ≠ header.resetCount) = false →
      (g.proc.state.definition cx.publisher s.instrumentId).isSome = true →
      g.proc.open.contains ⟨cx.publisher, header.channelId⟩ = true ∨ g.proc.open.size < MAX_CHANNEL_KEYS ∨
        g.proc.FreesRoute ⟨cx.publisher, header.channelId, s.instrumentId⟩ := by
    rw [← hg]
    split <;> exact hadmits
  clear hg h
  split
  · rw [noteDroppedGroup_view]
    exact hheld
  · rename_i hera
    rcases ensureBook_cases Message.Quiet (fun _ _ => True) [] g.accum
      g.revealedNow g.toRun s.instrumentId with ⟨-, heq⟩ | ⟨b, r, hd, heq, hsteps, -, hb⟩
    · rw [heq]
      simp only
      rw [noteDroppedGroup_view]
      exact hheld
    · have hroom := ensureBook_room rd hheld.routes hd
        (hadmits (Bool.eq_false_of_not_eq_true hera) hd)
      have hr := hheld.steps hsteps
      rw [heq] at hroom
      rw [heq]
      simp only at hroom ⊢
      obtain ⟨-, hview, -⟩ := withBook_some [] g.accum g.revealedNow (fun b => b.onSnapshotBegin s.snapshotId
        s.anchorSeq s.totalLevels s.lastInstrumentSeq s.depthBound cx.recvTsNs) hb
      generalize r.withBook ⟨cx.publisher, header.channelId, s.instrumentId⟩ _ = x at hview ⊢
      have hset : (x.1.view [] g.accum g.revealedNow).Held := by
        rw [hview]
        exact hr.setBook _ _
      have hopen : x.1.proc.open = r.proc.open := congrArg View.open hview
      split
      · refine ⟨hset.revealed, insert_open_le hset.routes ?_ _⟩
        rw [view_open, hopen]
        exact hroom
      · exact ⟨hset.revealed, hset.routes⟩

theorem onInstrumentDefinition_held (h : (f.view []).Held) (header : Header) (d : InstrumentDefinition)
    (hrole : cx.role.handlesRefdata = true) (hadmits : f.Admits cx header (.instrumentDefinition d)) :
    ((f.onInstrumentDefinition rd cx header.channelId d).view []).Held := by
  cases hsource : d.sourceId with
  | none =>
    exact h.steps (onInstrumentDefinition_steps [] f d hsource hrole)
  | some id =>
    unfold Frame.Admits at hadmits
    unfold Frame.onInstrumentDefinition Frame.bookKey
    extract_lets key r r₀ p r₁ r₂
    have hr₀ : r₀.proc = f.proc := by
      unfold r₀
      split
      · rfl
      · split <;> rfl
    have hr₁ : r₁.proc = { f.proc with
        state := f.proc.state.modify cx.publisher fun s => s.onInstrumentDefinition d } := by
      show ({ r₀.proc with state := _ } : MbpProcessor) = _
      rw [hr₀]
    have hheld : (Frame.view [] { f with toRun := r₁ }).Held := by
      refine ⟨?_, ?_⟩
      · show r₁.proc.revealed.keys ⊆ r₁.proc.books.keys
        rw [hr₁]
        exact h.revealed
      · show r₁.proc.open.size ≤ MAX_CHANNEL_KEYS
        rw [hr₁]
        exact h.routes
    show (r₂.view [] f.accum f.revealedNow).Held
    have hr₂ : r₂ = (r₁.revealIfNeeded rd cx key id).1 := by
      unfold r₂
      rw [hsource]
    rw [hr₂]
    rcases revealIfNeeded_cases [] f.accum f.revealedNow r₁ key id with heq | ⟨-, hd, -, hview⟩
    · rw [heq]
      exact hheld
    · have hbook : r₁.proc.books.contains ⟨cx.publisher, header.channelId, d.instrumentId⟩ = true := by
        rw [hr₁] at hd ⊢
        exact hadmits hrole (Option.isSome_of_eq_some hsource) hd
      have hreveal : (Frame.view [] (Frame.reveal rd cx { f with toRun := r₁ } _ id)).Held :=
        reveal_held hheld (FinMap.mem_keys_iff.mpr (FinMap.contains_eq_true.mp hbook)) id
      exact ⟨hreveal.revealed, hreveal.routes⟩

/-- **An admitted message keeps the containments.** -/
theorem onMessage_held (h : (f.view []).Held) (header : Header) (fresh : Bool) (m : Message)
    (hadmits : f.Admits cx header m) : ((f.onMessage rd cx header fresh m).view []).Held := by
  have hquiet : Message.Quiet m → ((f.onMessage rd cx header fresh m).view []).Held := fun hm =>
    h.steps (onMessage_steps [] header fresh f m hm fun _ _ => trivial)
  cases m with
  | levelUpdate l =>
    show ((f.onLevelUpdate rd cx header.channelId header.sequence l).view []).Held
    unfold Frame.onLevelUpdate
    split
    · exact h
    · exact onDelta_held h _ _ _ _
  | bookClear c =>
    show ((f.onBookClear rd cx header.channelId header.sequence c).view []).Held
    unfold Frame.onBookClear
    split
    · exact h
    · exact onDelta_held h _ _ _ _
  | trade t => exact onTrade_held h t
  | snapshotBegin s => exact onSnapshotBegin_held h header s hadmits
  | instrumentDefinition d =>
    show (Frame.view [] (if cx.role.handlesRefdata = true then f.onInstrumentDefinition rd cx header.channelId d
      else f)).Held
    split
    · rename_i hrole
      exact onInstrumentDefinition_held h header d hrole hadmits
    · exact h
  | manifestSummary valid manifestSeq instrumentCount => exact hquiet trivial
  | snapshotLevel l => exact hquiet trivial
  | snapshotEnd e => exact hquiet trivial
  | instrumentReset id newAnchorSeq => exact hquiet trivial
  | endOfSession ts => exact hquiet trivial
  | batchBoundary batchId => exact hquiet trivial
  | other => exact hquiet trivial

/-! ## Every run -/

/-- Every message is admitted where it is handled. -/
def Frame.AdmitsAll (rd : Render P S) (cx : Ctx P S) (h : Header) (fresh : Bool) : Frame P S → List Message → Prop
  | _, [] => True
  | f, m :: ms => f.Admits cx h m ∧ AdmitsAll rd cx h fresh (f.onMessage rd cx h fresh m) ms

/-- The messages of a call are admitted, from the state that its header leaves. -/
def Input.Admitted (rd : Render P S) (p : MbpProcessor) : Input P S → Prop
  | .datagram cx d =>
    Frame.AdmitsAll rd cx d.header (begin rd cx d.header p).2 (begin rd cx d.header p).1 d.messages
  | .tick _ _ => True

theorem messages_held (header : Header) (fresh : Bool) : ∀ (ms : List Message) (f : Frame P S), (f.view []).Held →
    f.AdmitsAll rd cx header fresh ms → ((ms.foldl (Frame.onMessage rd cx header fresh) f).view []).Held
  | [], _, h, _ => h
  | m :: ms, _, h, hadmits =>
    messages_held header fresh ms _ (onMessage_held h header fresh m hadmits.1) hadmits.2

theorem onDatagram_held {p : MbpProcessor} (h : (p.view ([] : List (Sending P S))).Held) (d : Datagram)
    (hadmits : (Input.datagram cx d).Admitted rd p) :
    ((onDatagram rd cx p d).proc.view ([] : List (Sending P S))).Held := by
  unfold onDatagram
  simp only
  have hbegin : ((begin rd cx d.header p).1.view []).Held :=
    h.steps (begin_steps [] d.header p)
  have hmessages := messages_held d.header (begin rd cx d.header p).2 d.messages _ hbegin hadmits
  generalize d.messages.foldl (Frame.onMessage rd cx d.header (begin rd cx d.header p).2) (begin rd cx d.header p).1 =
    f at hmessages ⊢
  have hdrops : QuietSteps rd cx d.header.channelId (f.view []) _ :=
    enforceBufferBudget_steps [] f.proc.bufferedTotal f.toRun
  have hbudget : (Frame.view [] { f with toRun := Run.enforceBufferBudget rd cx f.proc.bufferedTotal f.toRun }).Held :=
    hmessages.steps hdrops
  have hpass : (Run.view [] (Frame.emitPass rd cx d.header.channelId
      { f with toRun := Run.enforceBufferBudget rd cx f.proc.bufferedTotal f.toRun }).toRun ∅ ∅).Held :=
    hbudget.steps (emitPass_steps [] _)
  exact ⟨hpass.revealed, hpass.routes⟩

theorem onTick_held {p : MbpProcessor} (h : (p.view ([] : List (Sending P S))).Held) (order : List ChannelKey) :
    ((onTick rd cx order p).proc.view ([] : List (Sending P S))).Held := by
  have htick : (MbpProcessor.view _ (onTick rd cx order p).proc).Held :=
    onTick_rule (fun _ _ => True) (fun _ _ _ _ hm hv => hv.move (fun _ hon => hon.elim) hm) [] order p h
  exact ⟨htick.revealed, htick.routes⟩

/-- The Source IDs are those of books, and the routes are within their cap. -/
structure Contained (p : MbpProcessor) : Prop where
  revealed : p.revealed.keys ⊆ p.books.keys
  revealedCap : p.revealed.size ≤ MAX_PRICE_BOOKS
  routesCap : p.open.size ≤ MAX_CHANNEL_KEYS

theorem contained_run (is : List (Input P S)) (h : (processor rd).Along (fun p i => i.Admitted rd p) .new is) :
    Contained (after rd is) := by
  have hheld : ((after rd is).view ([] : List (Sending P S))).Held := by
    refine Machine.along_rule (m := processor rd) (P := fun p => (p.view ([] : List (Sending P S))).Held)
      (fun p i hi hp => ?_) is .new h ⟨subset_rfl, Nat.zero_le _⟩
    cases i with
    | datagram cx d => exact onDatagram_held hp d hi
    | tick cx order => exact onTick_held hp order
  exact
    { revealed := hheld.revealed
      revealedCap := (Finset.card_le_card hheld.revealed).trans (settled_run rd is).1.booksCap
      routesCap := hheld.routes }

end Views

end EdgeConnect.Mbp
