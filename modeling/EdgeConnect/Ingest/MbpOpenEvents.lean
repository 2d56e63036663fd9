import EdgeConnect.Ingest.MbpSteps

/-!
# The open events of a channel (`ChannelBatching` in `src/ingest/processor.rs`)

A channel's batching state holds the instruments whose consumers wait for a closing batch.

* `EventStanding` — what the sendings of a book leave of its event since the channel's batching state was last dropped;
* `Exact` — the open events of a channel are those standing open; `Exact.move` — every move keeps it;
* `unready_onEndOfSession`, `unready_onChannelReset`, `unready_forgetPublisher` — what drops a channel's batching state
  leaves none of its books `Ready`;
* `open_events_are_exact`.
-/

set_option autoImplicit false

namespace EdgeConnect.Mbp

open Ingest

section Standings

variable {P S : Type}

/-- The event of a book, as its sendings leave it: closed or open, or refused a close that it did not need. -/
inductive EventStanding where
  | closed
  | opened
  | unsettled
  deriving DecidableEq, Repr

/-- What one sending does to the event of a book. -/
def EventStanding.after (key : PriceBookKey) (st : EventStanding) : Sending P S → EventStanding
  | .book k _ _ last => if k = key then (if last then .closed else .opened) else st
  | .refused k => if k = key ∧ st = .closed then .unsettled else st
  | .dropped chan => if key.chan = chan then .closed else st
  | .revealed _ _ => st

/-- The event of a book after what was sent. -/
def standing (sent : List (Sending P S)) (key : PriceBookKey) : EventStanding := sent.foldl (EventStanding.after key) .closed

/-- Whether the last batch of a book closed its event. -/
def lastBatch (sent : List (Sending P S)) (key : PriceBookKey) : Option Bool :=
  (sent.filterMap fun
    | .book k _ _ last => if k = key then some last else none
    | _ => none).getLast?

theorem standing_append (sent : List (Sending P S)) (s : Sending P S) (key : PriceBookKey) :
    standing (sent ++ [s]) key = (standing sent key).after key s := by
  unfold standing
  rw [List.foldl_append]
  rfl

/-- The open events of a channel are the instruments that stand open; none does on a channel without batching state. -/
def ExactAt (lane : Option (Finset Nat)) (st : EventStanding) (key : PriceBookKey) : Prop :=
  match lane with
  | none => st = .closed
  | some s => (st = .opened → key.instrumentId ∈ s) ∧ (st = .closed → key.instrumentId ∉ s)

def Exact (v : View P S) : Prop := ∀ key, ExactAt (v.lanes key.chan) (standing v.sent key) key

variable {rd : Render P S} {cx : Ctx P S} {channel : Nat} {on : Message → Prop} {ok : View P S → SnapshotEnd → Prop}
  {v v' : View P S} {key k : PriceBookKey}

theorem Exact.of_eq (h : Exact v) (hlanes : v'.lanes = v.lanes) (hsent : v'.sent = v.sent) : Exact v' := by
  intro key
  rw [hlanes, hsent]
  exact h key

theorem chan_eq (h : k.chan = key.chan) (hid : k.instrumentId = key.instrumentId) : k = key := by
  obtain ⟨p, c, i⟩ := k
  obtain ⟨p', c', i'⟩ := key
  unfold PriceBookKey.chan at h
  simp only [ChannelKey.mk.injEq] at h hid
  obtain ⟨rfl, rfl⟩ := h
  rw [hid]

theorem lanes_note (v : View P S) (key : PriceBookKey) (last : Bool) (chan : ChannelKey) :
    (v.note key last).lanes chan =
      if chan = key.chan then (v.lanes key.chan).map fun s =>
        if last then s.erase key.instrumentId else insert key.instrumentId s
      else v.lanes chan := by
  unfold View.note View.setLane
  by_cases h : chan = key.chan
  · rw [if_pos h, h]
    exact Function.update_self _ _ _
  · rw [if_neg h]
    exact Function.update_of_ne h _ _

/-- The instrument of another book of the channel is where it was. -/
theorem ExactAt.other {s s' : Finset Nat} {st : EventStanding} (h : ExactAt (some s) st k)
    (hs : k.instrumentId ∈ s' ↔ k.instrumentId ∈ s) : ExactAt (some s') st k :=
  ⟨fun hst => hs.mpr (h.1 hst), fun hst hmem => h.2 hst (hs.mp hmem)⟩

/-- A sending about one book, noted on its channel. -/
theorem Exact.noted (h : Exact v) {s : Sending P S} (last : Bool)
    (hother : ∀ k st, k ≠ key → EventStanding.after k st s = st)
    (hlane : last = false → (v.lanes key.chan).isSome = true)
    (hself : ∀ lane, v.lanes key.chan = some lane → ExactAt (some lane) (standing v.sent key) key →
      ExactAt (some (if last then lane.erase key.instrumentId else insert key.instrumentId lane))
        ((standing v.sent key).after key s) key)
    (hnone : last = true → EventStanding.after key .closed s = .closed) : Exact ((v.emit s).note key last) := by
  intro k
  show ExactAt ((((v.emit s).note key last).lanes) k.chan) (standing (v.sent ++ [s]) k) k
  rw [lanes_note, standing_append]
  have hk := h k
  show ExactAt (if k.chan = key.chan then (v.lanes key.chan).map _ else v.lanes k.chan) _ k
  by_cases hchan : k.chan = key.chan
  · rw [if_pos hchan]
    rw [hchan] at hk
    cases hl : v.lanes key.chan with
    | none =>
      rw [hl] at hk hlane
      have hlast : last = true := by
        cases last with
        | true => rfl
        | false => exact absurd (hlane rfl) Bool.false_ne_true
      have hclosed : standing v.sent k = .closed := hk
      show (standing v.sent k).after k s = .closed
      rw [hclosed]
      by_cases hself' : k = key
      · rw [hself']
        exact hnone hlast
      · exact hother k .closed hself'
    | some lane =>
      rw [hl] at hk
      by_cases hself' : k = key
      · subst hself'
        exact hself lane hl hk
      · rw [hother k _ hself']
        refine hk.other ?_
        have hid : k.instrumentId ≠ key.instrumentId := fun hid => hself' (chan_eq hchan hid)
        cases last with
        | true => simp [hid]
        | false => simp [hid]
  · rw [if_neg hchan, hother k _ fun hk => hchan (congrArg _ hk)]
    exact hk

/-- A batch that went out is noted by its `last`. -/
theorem Exact.batched (h : Exact v) (sourceId : Nat) (changes : List (Change P S)) (last : Bool)
    (hlane : last = false → (v.lanes key.chan).isSome = true) :
    Exact ((v.emit (.book key sourceId changes last)).note key last) := by
  refine h.noted last (fun k st hk => if_neg fun h => hk h.symm) hlane (fun lane _ _ => ?_) ?_
  · have hafter : (standing v.sent key).after key (.book key sourceId changes last) =
        if last then .closed else .opened := if_pos rfl
    rw [hafter]
    cases last with
    | true => exact ⟨nofun, fun _ => Finset.notMem_erase _ _⟩
    | false => exact ⟨fun _ => Finset.mem_insert_self _ _, nofun⟩
  · rintro rfl
    exact if_pos rfl

/-- A close that is refused keeps the event open. -/
theorem Exact.refused (h : Exact v) (hlane : (v.lanes key.chan).isSome = true) :
    Exact ((v.emit (.refused key)).note key false) := by
  refine h.noted false (fun k st hk => if_neg fun h => hk h.1.symm) (fun _ => hlane) (fun lane _ hlane => ?_) nofun
  refine ⟨fun _ => Finset.mem_insert_self _ _, fun hclosed => ?_⟩
  have hafter : (standing v.sent key).after key (.refused key : Sending P S) ≠ .closed := by
    show (if key = key ∧ standing v.sent key = .closed then EventStanding.unsettled else standing v.sent key) ≠ .closed
    split
    · exact nofun
    · rename_i hne
      exact fun hst => hne ⟨rfl, hst⟩
  exact absurd hclosed hafter

theorem Exact.dropLane (h : Exact v) (chan : ChannelKey) : Exact (v.dropLane chan) := by
  intro key
  show ExactAt (Function.update v.lanes chan none key.chan) (standing (v.sent ++ [.dropped chan]) key) key
  rw [standing_append]
  by_cases hchan : key.chan = chan
  · rw [hchan, Function.update_self]
    exact if_pos hchan
  · rw [Function.update_of_ne hchan]
    show ExactAt _ (if key.chan = chan then _ else _) key
    rw [if_neg hchan]
    exact h key

theorem Exact.openLane (h : Exact v) (chan : ChannelKey) : Exact (v.openLane chan) := by
  intro key
  have hkey := h key
  show ExactAt (Function.update v.lanes chan _ key.chan) (standing v.sent key) key
  by_cases hchan : key.chan = chan
  · rw [hchan, Function.update_self]
    rw [hchan] at hkey
    cases hl : v.lanes chan with
    | none =>
      rw [hl] at hkey
      have hclosed : standing v.sent key = .closed := hkey
      rw [hclosed]
      exact ⟨nofun, fun _ => Finset.notMem_empty _⟩
    | some s =>
      rw [hl] at hkey
      exact hkey
  · rw [Function.update_of_ne hchan]
    exact hkey

/-- **Every move keeps the open events exact.** -/
theorem Exact.move (h : Exact v) (hm : Move rd cx channel on ok v v') : Exact v' := by
  cases hm with
  | forget key => exact h.of_eq rfl rfl
  | purge publisher _ => exact h.of_eq rfl rfl
  | fresh id _ _ => exact h.of_eq rfl rfl
  | delta m _ _ id op b d _ _ => exact h.of_eq rfl rfl
  | reveal m _ _ id sourceId _ _ =>
    intro key
    show ExactAt _ (standing (v.sent ++ [_]) key) key
    rw [standing_append]
    exact h key
  | revealDefined d _ _ sourceId _ _ _ =>
    intro key
    show ExactAt _ (standing (v.sent ++ [_]) key) key
    rw [standing_append]
    exact h key
  | undefine defs _ _ => exact h.of_eq rfl rfl
  | define d _ _ defs _ => exact h.of_eq rfl rfl
  | snapshotBegin s _ b _ => exact h.of_eq rfl rfl
  | snapshotLevel l _ g b _ _ _ _ => exact h.of_eq rfl rfl
  | unroute chan => exact h.of_eq rfl rfl
  | snapshotEnd e _ g b _ _ _ _ _ =>
    -- an install publishes the whole book, or nothing
    unfold View.snapshotEnd
    simp only
    split
    · generalize hv₁ : ({ ((v.unroute _).setBook _ _) with accum := _, revealedNow := _ } : View P S) = v₁
      have h₁ : Exact v₁ := by
        rw [← hv₁]
        exact h.of_eq rfl rfl
      rcases View.batch_cases rd v₁ ⟨cx.publisher, channel, e.instrumentId⟩ True [] true with hb | ⟨src, sent, hb⟩
      · have hb : v₁.rebaseline rd _ = _ := hb
        rw [hb]
        exact h₁
      · have hb : v₁.rebaseline rd _ = _ := hb
        rw [hb]
        exact h₁.batched src sent true nofun
    · exact h.of_eq rfl rfl
  | instrumentReset id newAnchorSeq _ b _ => exact h.of_eq rfl rfl
  | endSession id b _ => exact h.of_eq rfl rfl
  | dropBuffer key b _ => exact h.of_eq rfl rfl
  | dropLane chan => exact h.dropLane chan
  | openLane => exact h.openLane _
  | close id owed hlane =>
    unfold View.close
    simp only
    split
    · exact h.of_eq rfl rfl
    · have h₁ : Exact (v.take id) := h.of_eq rfl rfl
      rcases View.batch_cases rd (v.take id) ⟨cx.publisher, channel, id⟩ (id ∈ v.revealedNow ∨ owed = true)
        ((v.accum.get id).getD []) true with hb | ⟨src, sent, hb⟩
      · rw [hb]
        exact h₁.refused hlane
      · rw [hb, ite_self]
        exact h₁.batched src sent true nofun
  | publish id closes owed hlane =>
    unfold View.publish
    simp only
    split
    · have h₁ : Exact (v.take id) := h.of_eq rfl rfl
      rcases View.batch_cases rd (v.take id) ⟨cx.publisher, channel, id⟩
        (id ∈ v.revealedNow ∨ ((v.accum.get id).getD [] ≠ [] ∧ owed = true)) ((v.accum.get id).getD []) closes
        with hb | ⟨src, sent, hb⟩
      · rw [hb]
        exact h₁
      · rw [hb]
        refine h₁.batched src sent _ fun hlast => hlane ?_
        split at hlast
        · cases hlast
        · exact hlast
    · exact h.of_eq rfl rfl

/-! ## Runs -/

/-- **A call keeps the open events exact.** -/
theorem Exact.call {past : List (Sending P S)} {p : MbpProcessor} (h : Exact (p.view past)) (i : Input P S) :
    Exact ((stepWith rd p i).1.view (past ++ (stepWith rd p i).2.filterMap Out.sent)) := by
  cases i with
  | datagram cx d =>
    exact Steps.rule (fun _ _ hm hv => hv.move hm)
      (onDatagram_steps past p d (endsOk_of_true d.header _ past d.messages _)) h
  | tick cx order =>
    exact onTick_rule (fun _ _ => True) (fun _ _ _ _ hm hv => hv.move hm) past order p h

theorem Exact.run (rd : Render P S) (is : List (Input P S)) : Exact ((after rd is).view (sentBy rd is)) := by
  induction is using List.reverseRecOn with
  | nil => exact fun _ => rfl
  | append_singleton is i ih =>
    rw [after_append, sentBy_append]
    exact ih.call i

/-! ## What drops the batching state of a channel -/

/-- The processor has no `Ready` book of a key. -/
def Unready (p : MbpProcessor) (key : PriceBookKey) : Prop := ∀ b, p.books.get key = some b → b.status ≠ .ready

/-- A pass that leaves every book it visits unready, and no other ready, leaves them all so. -/
theorem unready_foldl {σ : Type} (key : PriceBookKey) (proc : σ → MbpProcessor) (step : σ → PriceBookKey → σ)
    (hself : ∀ s k, Unready (proc (step s k)) k)
    (hkeep : ∀ s k, k ≠ key → (proc (step s k)).books.get key = (proc s).books.get key) :
    ∀ (ks : List PriceBookKey) (s : σ), key ∈ ks ∨ Unready (proc s) key → Unready (proc (ks.foldl step s)) key
  | [], _, h => h.resolve_left List.not_mem_nil
  | k :: ks, s, h => by
    refine unready_foldl key proc step hself hkeep ks (step s k) ?_
    by_cases hk : k = key
    · exact .inr (hk ▸ hself s k)
    · rcases h with h | h
      · exact .inl ((List.mem_cons.mp h).resolve_left (Ne.symm hk))
      · refine .inr fun b hb => h b ?_
        rw [← hb]
        exact (hkeep s k hk).symm

/-- A pass visits every book of the kind that the processor has. -/
theorem mem_visit_or_unready {p : MbpProcessor} (hint : List PriceBookKey) (pick : PriceBookKey → Prop)
    [DecidablePred pick] (hpick : pick key) : key ∈ visit hint (p.books.keys.filter pick) ∨ Unready p key := by
  cases hget : p.books.get key with
  | none => exact .inr fun b hb => by rw [hget] at hb; cases hb
  | some b => exact .inl (mem_visit.mpr (Finset.mem_filter.mpr ⟨FinMap.mem_keys_iff.mpr ⟨b, hget⟩, hpick⟩))

theorem books_forgetBook (r : Run P S) (k : PriceBookKey) :
    (r.forgetBook rd cx k).proc.books = r.proc.books.erase k :=
  congrArg View.books (forgetBook_view : Run.view [] _ ∅ ∅ = _)

theorem books_reportHealth (r : Run P S) (k : PriceBookKey) (healthy : Bool) :
    (r.reportHealth rd cx k healthy).proc.books = r.proc.books :=
  congrArg View.books (reportHealth_view healthy : Run.view [] _ ∅ ∅ = _)

theorem unready_erased {p : MbpProcessor} (h : p.books.get key = none) : Unready p key := fun b hb => by
  rw [h] at hb
  cases hb

/-- One book of an ended session awaits a snapshot. -/
theorem books_endOne (f : Frame P S) (k : PriceBookKey) :
    (f.endOne rd cx k).proc.books = match f.proc.books.get k with
      | none => f.proc.books
      | some b => f.proc.books.insert k b.onEndOfSession := by
  unfold Frame.endOne
  simp only
  rw [books_reportHealth]
  unfold Run.withBook
  cases f.proc.books.get k with
  | none => rfl
  | some b => rfl

variable (rd cx channel)

theorem unready_onEndOfSession (f : Frame P S) (hkey : key.chan = ⟨cx.publisher, channel⟩) :
    Unready (f.onEndOfSession rd cx channel).proc key := by
  have hpass := unready_foldl key (fun f : Frame P S => f.proc) (Frame.endOne rd cx)
    (fun f k b hb => by
      rw [books_endOne] at hb
      split at hb
      · rename_i hnone
        rw [hnone] at hb
        cases hb
      · rw [FinMap.get_insert_self] at hb
        cases hb
        exact nofun)
    (fun f k hk => by
      rw [books_endOne]
      split
      · rfl
      · exact FinMap.get_insert_of_ne _ _ (Ne.symm hk))
    _ f (mem_visit_or_unready cx.order (fun k => k.chan = ⟨cx.publisher, channel⟩) hkey)
  unfold Frame.onEndOfSession
  simp only
  split
  · exact hpass
  · exact hpass

theorem unready_onChannelReset (r : Run P S) (resetCount : Nat) (hkey : key.chan = ⟨cx.publisher, channel⟩) :
    Unready (r.onChannelReset rd cx channel resetCount).proc key := by
  have hbooks : ∀ (r : Run P S) (k : PriceBookKey), (Run.forgetBook rd cx (r.reportHealth rd cx k false) k).proc.books =
      r.proc.books.erase k := by
    intro r k
    rw [books_forgetBook, books_reportHealth]
  exact unready_foldl key (fun r : Run P S => r.proc)
    (fun r k => Run.forgetBook rd cx (r.reportHealth rd cx k false) k)
    (fun r k => unready_erased (by rw [hbooks]; exact FinMap.get_erase_self _ _))
    (fun r k hk => by rw [hbooks]; exact FinMap.get_erase_of_ne _ (Ne.symm hk)) _ r
    (mem_visit_or_unready cx.order (fun k => k.chan = ⟨cx.publisher, channel⟩) hkey)

theorem unready_forgetPublisher (r : Run P S) : Unready (r.forgetPublisher rd cx key.publisher).proc key := by
  have hpass := unready_foldl key (fun r : Run P S => r.proc) (Run.forgetBook rd cx)
    (fun r k => unready_erased (by rw [books_forgetBook]; exact FinMap.get_erase_self _ _))
    (fun r k hk => by rw [books_forgetBook]; exact FinMap.get_erase_of_ne _ (Ne.symm hk)) _ r
    (mem_visit_or_unready cx.order (fun k => decide (k.publisher = key.publisher) = true) (decide_eq_true rfl))
  unfold Run.forgetPublisher
  simp only
  generalize (visit cx.order (r.proc.books.keys.filter fun k => decide (k.publisher = key.publisher) = true)).foldl
    (Run.forgetBook rd cx) r = r₁ at hpass ⊢
  generalize visit cx.order (r₁.proc.revealed.keys.filter fun k => decide (k.publisher = key.publisher) = true) = ks
  have hpaths : (ks.foldl (Run.forgetSourcePath rd cx) r₁).proc.books = r₁.proc.books :=
    foldl_keeps (fun r : Run P S => r.proc.books) _
      (fun _ _ => congrArg View.books (forgetSourcePath_view : Run.view [] _ ∅ ∅ = _)) _ _
  generalize ks.foldl (Run.forgetSourcePath rd cx) r₁ = r₂ at hpaths ⊢
  generalize visit [] (r₂.proc.batching.keys.filter fun k => k.publisher = key.publisher) = chans
  have hlanes : (chans.foldl Run.dropBatching r₂).proc.books = r₂.proc.books :=
    foldl_keeps (fun r : Run P S => r.proc.books) Run.dropBatching (fun _ _ => rfl) _ _
  generalize chans.foldl Run.dropBatching r₂ = r₃ at hlanes ⊢
  intro b hb
  refine hpass b ?_
  rw [← hpaths, ← hlanes]
  exact hb

/-- **The open events of a channel are exact.**  In every run the instruments of a channel's batching state are those
that stand open, but for what a refused close left unsettled; and what ends a session, resets a channel or forgets a
publisher leaves none of the books ready whose events it drops. -/
theorem open_events_are_exact (rd : Render P S) (is : List (Input P S)) (key : PriceBookKey) :
    (∀ lane, lanesOf (after rd is) key.chan = some lane →
      (standing (sentBy rd is) key = .opened → key.instrumentId ∈ lane) ∧
      (standing (sentBy rd is) key = .closed → key.instrumentId ∉ lane)) ∧
    (∀ (cx : Ctx P S) (f : Frame P S) (channel resetCount : Nat), key.chan = ⟨cx.publisher, channel⟩ →
      Unready (f.onEndOfSession rd cx channel).proc key ∧
      Unready (f.toRun.onChannelReset rd cx channel resetCount).proc key) ∧
    ∀ (cx : Ctx P S) (r : Run P S), Unready (r.forgetPublisher rd cx key.publisher).proc key := by
  refine ⟨fun lane hlane => ?_, fun cx f channel resetCount hkey => ?_, fun cx r => unready_forgetPublisher rd cx r⟩
  · have h := Exact.run rd is key
    have hview : ((after rd is).view (sentBy rd is)).lanes key.chan = some lane := hlane
    rw [hview] at h
    unfold MbpProcessor.view Run.view at h
    simp only [List.filterMap_nil, List.append_nil] at h
    exact h
  · exact ⟨unready_onEndOfSession rd cx channel f hkey, unready_onChannelReset rd cx channel f.toRun resetCount hkey⟩

end Standings

/-! ## A session that ends over an open event -/

def plainRender : Render Unit Unit := ⟨fun _ _ => (), fun _ _ => (), (), (), fun _ => ""⟩

def plainCtx : Ctx Unit Unit := ⟨"c", 0, 1, .combined, 1, none, 0, false, [], fun _ _ => false⟩

def oneDefinition : InstrumentDefinition := ⟨7, none, "S", 0, 0, 1, 1⟩

def levelAt (seq : Nat) : Message := .levelUpdate ⟨7, 1, SIDE_BID, ACTION_NEW, seq, 5, 1, 0, none, 0⟩

def datagramOf (sequence : Nat) (messages : List Message) : Input Unit Unit :=
  .datagram plainCtx ⟨⟨0, sequence, 0⟩, messages⟩

/-- A book is served, a datagram opens an event on it, the session ends, and the channel speaks again. -/
def endedInputs : List (Input Unit Unit) :=
  [datagramOf 1 [.manifestSummary true 1 1, .instrumentDefinition oneDefinition, .batchBoundary 1,
      .snapshotBegin ⟨7, 1, 0, 1, 0, 0⟩, .snapshotEnd ⟨7, 1, 1⟩, levelAt 1],
    datagramOf 2 [levelAt 2], datagramOf 3 [.endOfSession 0], datagramOf 4 []]

/-- The batching state that is made anew after an ended session does not hold the event that it left open. -/
theorem open_events_are_exact_endedInputs :
    ¬ ∀ (rd : Render Unit Unit) (is : List (Input Unit Unit)) (key : PriceBookKey) (lane : Finset Nat),
      lanesOf (after rd is) key.chan = some lane →
        (key.instrumentId ∈ lane ↔ lastBatch (sentBy rd is) key = some false) := by
  intro h
  have hempty : lanesOf (after plainRender endedInputs) ⟨1, 0⟩ = some ∅ := by decide +kernel
  have hopen : lastBatch (sentBy plainRender endedInputs) ⟨1, 0, 7⟩ = some false := by decide +kernel
  exact Finset.notMem_empty _ ((h plainRender endedInputs ⟨1, 0, 7⟩ ∅ hempty).mpr hopen)

end EdgeConnect.Mbp
