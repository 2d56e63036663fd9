import EdgeConnect.Ingest.MbpSteps
import EdgeConnect.Ingest.PriceBookShape
import EdgeConnect.Lib.Framed

/-!
# Where the levels of an installed price book were sent (`MbpProcessor` in `src/ingest/processor.rs`)

A snapshot level carries no instrument, and goes to the book that the channel's open group routes it to.

* `delivered` — the pieces of snapshot groups that a run receives of a publisher on a channel;
* `Attributed` — the levels of a book under assembly arrived after the begin of its group; `Attributed.move` — every move
  keeps it;
* `installs_own` — every group that is installed has only levels that were sent in it.
-/

set_option autoImplicit false

namespace EdgeConnect.Mbp

open Ingest Framed

/-! ## What arrives -/

/-- A group as its publisher sends it. -/
abbrev SentGroup := Framed.Group (ℕ × ℕ) SnapshotLevel

/-- A message of a snapshot group; a group is named by its instrument and its id. -/
def Message.piece : Message → Option (Piece (ℕ × ℕ) SnapshotLevel)
  | .snapshotBegin s => some (.first (s.instrumentId, s.snapshotId))
  | .snapshotLevel l => some (.row l)
  | .snapshotEnd e => some (.last (e.instrumentId, e.snapshotId))
  | _ => none

section Rows

variable {P S : Type}

def Input.pieces (publisher : IpAddr) (channel : Nat) : Input P S → List (Piece (ℕ × ℕ) SnapshotLevel)
  | .datagram cx d =>
    if cx.publisher = publisher ∧ d.header.channelId = channel then d.messages.filterMap Message.piece else []
  | .tick _ _ => []

/-- What a run receives of the snapshot groups of a publisher on a channel. -/
def delivered (publisher : IpAddr) (is : List (Input P S)) (channel : Nat) : List (Piece (ℕ × ℕ) SnapshotLevel) :=
  is.flatMap (Input.pieces publisher channel)

def SnapshotLevel.state (l : SnapshotLevel) : LevelState := ⟨l.qtyRaw, l.orderCount, l.levelFlags⟩

/-- Every level of a group under assembly is that of a row. -/
structure Assembled (rows : SnapshotLevel → Prop) (g : Building) : Prop where
  bids : ∀ price l, g.bids.get price = some l → ∃ s, rows s ∧ s.side ≠ SIDE_ASK ∧ s.priceRaw = price ∧ s.state = l
  asks : ∀ price l, g.asks.get price = some l → ∃ s, rows s ∧ s.side = SIDE_ASK ∧ s.priceRaw = price ∧ s.state = l

theorem Assembled.mono (g : Building) : Monotone fun rows => Assembled rows g := by
  rintro rows rows' hrows ⟨hbids, hasks⟩
  refine ⟨fun price l hl => ?_, fun price l hl => ?_⟩
  · obtain ⟨s, hs, hrest⟩ := hbids price l hl
    exact ⟨s, hrows s hs, hrest⟩
  · obtain ⟨s, hs, hrest⟩ := hasks price l hl
    exact ⟨s, hrows s hs, hrest⟩

/-- The levels of every group that a publisher's books assemble arrived after its begin. -/
def Attributed (publisher : IpAddr) (hist : Nat → List (Piece (ℕ × ℕ) SnapshotLevel))
    (books : FinMap PriceBookKey PriceBook) : Prop :=
  ∀ key b g, key.publisher = publisher → books.get key = some b → b.open = some g →
    Gathered (hist key.channel) (key.instrumentId, g.snapshotId) fun rows => Assembled rows g

variable {publisher : IpAddr} {hist : Nat → List (Piece (ℕ × ℕ) SnapshotLevel)}
  {books books' : FinMap PriceBookKey PriceBook}

/-- A group under assembly that is what it was. -/
structure SameGroup (g g' : Building) : Prop where
  id : g'.snapshotId = g.snapshotId
  bids : g'.bids = g.bids
  asks : g'.asks = g.asks

theorem SameGroup.refl (g : Building) : SameGroup g g := ⟨rfl, rfl, rfl⟩

theorem SameGroup.gathered {g g' : Building} (h : SameGroup g g') {hist : List (Piece (ℕ × ℕ) SnapshotLevel)} {id : Nat}
    (hg : Gathered hist (id, g.snapshotId) fun rows => Assembled rows g) :
    Gathered hist (id, g'.snapshotId) fun rows => Assembled rows g' := by
  rw [h.id]
  exact hg.imp fun rows ha => ⟨h.bids ▸ ha.bids, h.asks ▸ ha.asks⟩

/-- Fewer books. -/
theorem Attributed.of_le (h : Attributed publisher hist books) (hle : books'.Le books) :
    Attributed publisher hist books' := fun key b g hp hb hg => h key b g hp (hle key b hb) hg

/-- One book is replaced: it assembles what it did, or what is accounted for. -/
theorem Attributed.insert (h : Attributed publisher hist books) (key : PriceBookKey) (b' : PriceBook)
    (hopen : ∀ g', b'.open = some g' → (∃ b g, books.get key = some b ∧ b.open = some g ∧ SameGroup g g') ∨
      (key.publisher = publisher →
        Gathered (hist key.channel) (key.instrumentId, g'.snapshotId) fun rows => Assembled rows g')) :
    Attributed publisher hist (books.insert key b') := by
  intro k b g hp hb hg
  rw [FinMap.get_insert] at hb
  split at hb
  · rename_i hk
    subst hk
    cases hb
    rcases hopen g hg with ⟨b₀, g₀, hb₀, hg₀, hsame⟩ | hnew
    · exact hsame.gathered (h _ b₀ g₀ hp hb₀ hg₀)
    · exact hnew hp
  · exact h k b g hp hb hg

/-- A book that opens no group of its own. -/
theorem Attributed.keeps (h : Attributed publisher hist books) {key : PriceBookKey} {b b' : PriceBook}
    (hb : books.get key = some b) (hopen : ∀ g', b'.open = some g' → ∃ g, b.open = some g ∧ SameGroup g g') :
    Attributed publisher hist (books.insert key b') :=
  h.insert key b' fun g' hg' => by
    obtain ⟨g, hg, hsame⟩ := hopen g' hg'
    exact .inl ⟨b, g, hb, hg, hsame⟩

/-! ## The moves -/

/-- What the groups of a publisher's channel are told of is in its history. -/
def Heard (publisher : IpAddr) (hist : Nat → List (Piece (ℕ × ℕ) SnapshotLevel)) (cx : Ctx P S) (channel : Nat)
    (on : Message → Prop) : Prop :=
  cx.publisher = publisher → ∀ m x, on m → m.piece = some x → ∃ past, hist channel = past ++ [x]

theorem onSnapshotBegin_open (b : PriceBook) (id anchor total last depth now : Nat) (g' : Building)
    (h : (b.onSnapshotBegin id anchor total last depth now).1.open = some g') :
    b.open = some g' ∨ (g'.snapshotId = id ∧ g'.bids = ∅ ∧ g'.asks = ∅) := by
  have hbegun := onSnapshotBegin_begun b id anchor total last depth now
  generalize b.onSnapshotBegin id anchor total last depth now = r at hbegun h
  cases hbegun with
  | opens =>
    cases h
    exact .inr ⟨rfl, rfl, rfl⟩
  | _ => exact .inl h

theorem Assembled.empty {g : Building} (rows : SnapshotLevel → Prop) (hbids : g.bids = ∅) (hasks : g.asks = ∅) :
    Assembled rows g where
  bids price l hl := by
    rw [hbids] at hl
    cases hl
  asks price l hl := by
    rw [hasks] at hl
    cases hl

theorem onSnapshotLevel_open (b : PriceBook) (l : SnapshotLevel) (g' : Building)
    (h : (b.onSnapshotLevel l.snapshotId l.side l.priceRaw l.qtyRaw l.orderCount l.levelFlags).open = some g') :
    ∃ g, b.open = some g ∧ g'.snapshotId = g.snapshotId ∧
      ∀ rows : SnapshotLevel → Prop, rows l → Assembled rows g → Assembled rows g' := by
  unfold PriceBook.onSnapshotLevel at h
  split at h
  · rename_i hnone
    rw [hnone] at h
    cases h
  · rename_i g hopen
    split at h
    · rw [hopen] at h
      cases h
      exact ⟨g', hopen, rfl, fun _ _ hg => hg⟩
    · simp only [Option.some.injEq] at h
      refine ⟨g, hopen, ?_, fun rows hl hg => ?_⟩
      · rw [← h]
        split <;> rfl
      · -- the row lands on its own side and price, over whatever was there
        split at h <;> rename_i hside <;> subst h
        · refine ⟨hg.bids, fun price st hst => ?_⟩
          rw [FinMap.get_insert] at hst
          split at hst
          · rename_i hprice
            cases hst
            exact ⟨l, hl, hside, hprice.symm, rfl⟩
          · exact hg.asks price st hst
        · refine ⟨fun price st hst => ?_, hg.asks⟩
          rw [FinMap.get_insert] at hst
          split at hst
          · rename_i hprice
            cases hst
            exact ⟨l, hl, hside, hprice.symm, rfl⟩
          · exact hg.bids price st hst

theorem onSnapshotEnd_open (b : PriceBook) (anchor id : Nat) : (b.onSnapshotEnd anchor id).1.open = none := by
  unfold PriceBook.onSnapshotEnd
  split
  · assumption
  · split
    · rfl
    · exact (replayOps_frame _ _).group

theorem onInstrumentReset_open (b : PriceBook) (anchor : Nat) (g' : Building)
    (h : (b.onInstrumentReset anchor).open = some g') : ∃ g, b.open = some g ∧ SameGroup g g' := by
  simp only [PriceBook.onInstrumentReset, Option.map_eq_some_iff, Option.filter_eq_some_iff] at h
  obtain ⟨g, ⟨hopen, -⟩, rfl⟩ := h
  exact ⟨g, hopen, rfl, rfl, rfl⟩

variable {rd : Render P S} {cx : Ctx P S} {channel : Nat} {on : Message → Prop} {ok : View P S → SnapshotEnd → Prop}
  {v v' : View P S}

theorem books_batch (v : View P S) (key : PriceBookKey) (whole : Prop) [Decidable whole] (changes : List (Change P S))
    (last : Bool) : (v.batch rd key whole changes last).1.books = v.books := by
  rcases View.batch_cases rd v key whole changes last with h | ⟨sourceId, sent, h⟩ <;> rw [h]
  rfl

theorem books_rebaseline (v : View P S) (key : PriceBookKey) : (v.rebaseline rd key).1.books = v.books := by
  have h : (v.batch rd key True [] true).1.books = v.books := books_batch v key True [] true
  unfold View.batch at h
  rwa [if_pos trivial] at h

theorem books_close (v : View P S) (key : PriceBookKey) (owed : Bool) : (v.close rd key owed).books = v.books := by
  unfold View.close
  simp only
  split
  · rfl
  · split
    · exact books_batch _ key _ _ _
    · exact books_batch _ key _ _ _

theorem books_publish (v : View P S) (key : PriceBookKey) (closes owed : Bool) :
    (v.publish rd key closes owed).books = v.books := by
  unfold View.publish
  simp only
  split
  · split
    · exact books_batch _ key _ _ _
    · exact books_batch _ key _ _ _
  · rfl

theorem books_snapshotEnd (v : View P S) (key : PriceBookKey) (e : SnapshotEnd) (b : PriceBook) :
    (v.snapshotEnd rd key e b).books = v.books.insert key (b.onSnapshotEnd e.anchorSeq e.snapshotId).1 := by
  unfold View.snapshotEnd
  simp only
  split
  · split
    · exact books_rebaseline _ key
    · exact books_rebaseline _ key
  · rfl

/-- A begin opens a group of the instrument it names. -/
theorem Attributed.begun (hheard : Heard publisher hist cx channel on) (h : Attributed publisher hist v.books)
    {s : SnapshotBegin} (hm : on (.snapshotBegin s)) {b : PriceBook}
    (hb : v.books.get ⟨cx.publisher, channel, s.instrumentId⟩ = some b) :
    Attributed publisher hist (v.books.insert ⟨cx.publisher, channel, s.instrumentId⟩
      (b.onSnapshotBegin s.snapshotId s.anchorSeq s.totalLevels s.lastInstrumentSeq s.depthBound cx.recvTsNs).1) := by
  refine h.insert _ _ fun g' hg' => ?_
  rcases onSnapshotBegin_open _ _ _ _ _ _ _ g' hg' with hopen | ⟨hid, hbids, hasks⟩
  · exact .inl ⟨b, g', hb, hopen, .refl g'⟩
  · refine .inr fun hp => ?_
    obtain ⟨past, hpast⟩ := hheard hp _ _ hm rfl
    rw [hpast, hid]
    exact .begun past (.empty _ hbids hasks)

/-- A level joins the group of the book it is routed to, after everything that group heard before. -/
theorem Attributed.levelled (hheard : Heard publisher hist cx channel on) (h : Attributed publisher hist v.books)
    {l : SnapshotLevel} (hm : on (.snapshotLevel l)) {id : Nat} {b : PriceBook}
    (hb : v.books.get ⟨cx.publisher, channel, id⟩ = some b) :
    Attributed publisher hist (v.books.insert ⟨cx.publisher, channel, id⟩
      (b.onSnapshotLevel l.snapshotId l.side l.priceRaw l.qtyRaw l.orderCount l.levelFlags)) := by
  refine h.insert _ _ fun g' hg' => .inr fun hp => ?_
  obtain ⟨g, hopen, hid, hrows⟩ := onSnapshotLevel_open b l g' hg'
  obtain ⟨past, hpast⟩ := hheard hp _ _ hm rfl
  have hgathered := h _ b g hp hb hopen
  rw [show hist channel = past ++ [Piece.row l] from hpast] at hgathered ⊢
  rw [hid]
  exact hgathered.row hrows

/-- **Every move keeps the attribution.** -/
theorem Attributed.move (hheard : Heard publisher hist cx channel on) (hm : Move rd cx channel on ok v v')
    (h : Attributed publisher hist v.books) : Attributed publisher hist v'.books := by
  cases hm with
  | forget key =>
    refine h.of_le fun k b hb => ?_
    have herased : (v.books.erase key).get k = some b := hb
    rw [FinMap.get_erase] at herased
    split at herased
    · cases herased
    · exact herased
  | fresh id hd hb => exact h.insert _ _ nofun
  | delta m hm hmarket id op b d hb hd =>
    exact h.keeps hb fun g' hg' => ⟨g', (onDelta_frame b op).group ▸ hg', .refl g'⟩
  | snapshotBegin s hm b hb => exact h.begun hheard hm hb
  | snapshotLevel l hm g b hroute hid hg hb => exact h.levelled hheard hm hb
  | snapshotEnd e hm g b hroute hid hg hb hok =>
    rw [books_snapshotEnd]
    refine h.insert _ _ fun g' hg' => ?_
    rw [onSnapshotEnd_open] at hg'
    cases hg'
  | instrumentReset id newAnchorSeq hm b hb => exact h.keeps hb (onInstrumentReset_open b newAnchorSeq)
  | endSession id b hb => exact h.insert _ _ nofun
  | dropBuffer key b hb => exact h.keeps hb fun g' hg' => ⟨g', hg', .refl g'⟩
  | close id owed hlane =>
    rw [books_close]
    exact h
  | publish id closes owed hlane =>
    rw [books_publish]
    exact h
  | _ => exact h

/-! ## A call -/

/-- The lane that a call hears of a publisher. -/
def On (publisher : IpAddr) (cx : Ctx P S) (channel c : Nat) : Prop := cx.publisher = publisher ∧ channel = c

instance : DecidablePred (On publisher cx channel) := fun _ => inferInstanceAs (Decidable (_ ∧ _))

/-- What has arrived of a publisher's snapshot groups once more messages have, on this channel. -/
abbrev heard (publisher : IpAddr) (hist : Nat → List (Piece (ℕ × ℕ) SnapshotLevel)) (cx : Ctx P S) (channel : Nat)
    (ms : List Message) : Nat → List (Piece (ℕ × ℕ) SnapshotLevel) :=
  hear hist (On publisher cx channel) (ms.filterMap Message.piece)

theorem heard_append (ms ms' : List Message) :
    heard publisher hist cx channel (ms ++ ms') = heard publisher (heard publisher hist cx channel ms) cx channel ms' := by
  unfold heard
  rw [List.filterMap_append, hear_append]

theorem heard_self (hist : Nat → List (Piece (ℕ × ℕ) SnapshotLevel)) (ms : List Message) :
    heard cx.publisher hist cx channel ms channel = hist channel ++ ms.filterMap Message.piece :=
  congrArg _ (if_pos ⟨rfl, rfl⟩)

theorem heard_one (hist : Nat → List (Piece (ℕ × ℕ) SnapshotLevel)) (m : Message) :
    Heard publisher (heard publisher hist cx channel [m]) cx channel (· = m) := by
  rintro rfl m' x rfl hx
  refine ⟨hist channel, ?_⟩
  rw [heard_self]
  simp [hx]

theorem heard_never : Heard publisher hist cx channel fun _ => False := fun _ _ _ hm => hm.elim

theorem Attributed.extend (h : Attributed publisher hist books) (ms : List Message) :
    Attributed publisher (heard publisher hist cx channel ms) books :=
  fun key b g hp hb hg => (h key b g hp hb hg).extend (Assembled.mono g) _

theorem Attributed.message (h : Header) (fresh : Bool) {f : Frame P S} (m : Message)
    (hf : Attributed publisher hist f.proc.books) :
    Attributed publisher (heard publisher hist cx h.channelId [m]) (f.onMessage rd cx h fresh m).proc.books := by
  have hsteps : Steps rd cx h.channelId (· = m) (fun _ _ => True) (f.view []) _ :=
    onMessage_steps [] h fresh f m rfl fun _ _ => trivial
  exact Steps.rule (I := fun v => Attributed publisher (heard publisher hist cx h.channelId [m]) v.books)
    (fun _ _ hm hv => hv.move (heard_one hist m) hm) hsteps (hf.extend [m])

theorem Attributed.messages (h : Header) (fresh : Bool) : ∀ (ms : List Message)
    {hist : Nat → List (Piece (ℕ × ℕ) SnapshotLevel)} {f : Frame P S}, Attributed publisher hist f.proc.books →
      Attributed publisher (heard publisher hist cx h.channelId ms) (ms.foldl (Frame.onMessage rd cx h fresh) f).proc.books
  | [], _, _, hf => hf.extend []
  | m :: ms, _, _, hf => by
    rw [show m :: ms = [m] ++ ms from rfl, heard_append]
    exact Attributed.messages h fresh ms (hf.message h fresh m)

theorem Attributed.steps {v v' : View P S} (hsteps : Steps rd cx channel (fun _ => False) (fun _ _ => True) v v')
    (h : Attributed publisher hist v.books) : Attributed publisher hist v'.books :=
  Steps.rule (I := fun v => Attributed publisher hist v.books) (fun _ _ hm hv => hv.move heard_never hm) hsteps h

theorem Attributed.begin {p : MbpProcessor} (h : Attributed publisher hist p.books) (header : Header) :
    Attributed publisher hist (begin rd cx header p).1.proc.books :=
  h.steps (v := p.view []) (begin_steps [] header p)

theorem Attributed.datagram {p : MbpProcessor} (h : Attributed publisher hist p.books) (d : Datagram) :
    Attributed publisher (heard publisher hist cx d.header.channelId d.messages) (onDatagram rd cx p d).proc.books := by
  unfold onDatagram
  simp only
  have hbegin : Attributed publisher hist (Mbp.begin rd cx d.header p).1.proc.books := h.begin d.header
  generalize Mbp.begin rd cx d.header p = x at hbegin ⊢
  have hmessages : Attributed publisher (heard publisher hist cx d.header.channelId d.messages)
      (d.messages.foldl (Frame.onMessage rd cx d.header x.2) x.1).proc.books :=
    Attributed.messages d.header x.2 d.messages hbegin
  generalize d.messages.foldl (Frame.onMessage rd cx d.header x.2) x.1 = f at hmessages ⊢
  have hsteps : Steps rd cx d.header.channelId (fun _ => False) (fun _ _ => True) (f.view []) _ :=
    enforceBufferBudget_steps [] f.proc.bufferedTotal f.toRun
  have hbudget := hmessages.steps hsteps
  exact hbudget.steps (v := Frame.view [] { f with toRun := Run.enforceBufferBudget rd cx f.proc.bufferedTotal f.toRun })
    (emitPass_steps [] { f with toRun := Run.enforceBufferBudget rd cx f.proc.bufferedTotal f.toRun })

/-! ## The groups that are installed -/

/-- Were this end to install a group in its book, each level of it would be a row that the publisher sent in that group
of that instrument. -/
def OwnRows (publisher : IpAddr) (channel : Nat) (groups : Nat → List SentGroup) (v : View P S) (e : SnapshotEnd) : Prop :=
  ∀ b, v.books.get ⟨publisher, channel, e.instrumentId⟩ = some b → (b.onSnapshotEnd e.anchorSeq e.snapshotId).2 = true →
    ∃ g, b.open = some g ∧
      ∃ G ∈ groups channel, G.key = (e.instrumentId, e.snapshotId) ∧ Assembled (· ∈ G.rows) g

theorem installs_id {b : PriceBook} {anchor id : Nat} (h : (b.onSnapshotEnd anchor id).2 = true) :
    ∃ g, b.open = some g ∧ g.snapshotId = id := by
  unfold PriceBook.onSnapshotEnd at h
  split at h
  · cases h
  · rename_i g hopen
    split at h
    · cases h
    · rename_i hin
      simp only [not_or, ne_eq, Decidable.not_not] at hin
      exact ⟨g, hopen, hin.1⟩

variable {groups : Nat → List SentGroup}

/-- **An end that arrives installs the rows of its group only.** -/
theorem Attributed.ownRows (horderly : Orderly groups) (h : Attributed publisher hist v.books) {e : SnapshotEnd}
    (hsent : (hist channel ++ [Piece.last (e.instrumentId, e.snapshotId)]).Sublist (stream (groups channel))) :
    OwnRows publisher channel groups v e := by
  intro b hb hinstalls
  obtain ⟨g, hopen, hid⟩ := installs_id hinstalls
  have hgathered := h _ b g rfl hb hopen
  rw [hid] at hgathered
  exact ⟨g, hopen, hgathered.own (horderly.nodup channel) (Assembled.mono g) hsent⟩

theorem ends_ownRows (horderly : Orderly groups) (h : Header) (fresh : Bool) : ∀ (ms : List Message)
    {hist : Nat → List (Piece (ℕ × ℕ) SnapshotLevel)} {f : Frame P S}, Attributed cx.publisher hist f.proc.books →
      (hist h.channelId ++ ms.filterMap Message.piece).Sublist (stream (groups h.channelId)) →
      EndsOk (OwnRows cx.publisher h.channelId groups) rd cx h fresh [] f ms
  | [], _, _, _, _ => trivial
  | m :: ms, hist, f, hf, hsent => by
    refine ⟨fun e he => ?_, ends_ownRows horderly h fresh ms (hf.message h fresh m) ?_⟩
    · have harrived : Attributed cx.publisher hist (f.view []).books := hf
      refine harrived.ownRows horderly (List.Sublist.trans ?_ hsent)
      rw [he]
      exact List.Sublist.append_left (List.Sublist.cons_cons _ (List.nil_sublist _)) _
    · rw [heard_self, List.append_assoc, ← List.filterMap_append]
      exact hsent

/-- A call in which every group of a publisher that is installed has its own rows only. -/
def Input.OwnRows (rd : Render P S) (publisher : IpAddr) (groups : Nat → List SentGroup) (p : MbpProcessor) :
    Input P S → Prop
  | .datagram cx d => cx.publisher = publisher →
      EndsOk (Mbp.OwnRows publisher d.header.channelId groups) rd cx d.header (begin rd cx d.header p).2 []
        (begin rd cx d.header p).1 d.messages
  | .tick _ _ => True

theorem delivered_append (is : List (Input P S)) (i : Input P S) (c : Nat) :
    delivered publisher (is ++ [i]) c = delivered publisher is c ++ i.pieces publisher c := by
  unfold delivered
  rw [List.flatMap_append, List.flatMap_singleton]

theorem Attributed.call {p : MbpProcessor} {is : List (Input P S)} (h : Attributed publisher (delivered publisher is) p.books)
    (i : Input P S) : Attributed publisher (delivered publisher (is ++ [i])) (stepWith rd p i).1.books := by
  cases i with
  | datagram cx d =>
    have hhist : delivered publisher (is ++ [.datagram cx d]) =
        heard publisher (delivered publisher is) cx d.header.channelId d.messages := by
      funext c
      exact delivered_append is _ c
    rw [hhist]
    exact h.datagram d
  | tick cx order =>
    have hhist : delivered publisher (is ++ [.tick cx order]) = delivered publisher is := by
      funext c
      rw [delivered_append]
      exact List.append_nil _
    rw [hhist]
    exact onTick_rule (I := fun v => Attributed publisher (delivered publisher is) v.books) (fun _ _ => True)
      (fun _ _ _ _ hm hv => hv.move heard_never hm) [] order p h

theorem Attributed.run (rd : Render P S) (publisher : IpAddr) (is : List (Input P S)) :
    Attributed publisher (delivered publisher is) (after rd is).books := by
  induction is using List.reverseRecOn with
  | nil => exact fun _ _ _ _ hb => by cases hb
  | append_singleton is i ih =>
    rw [after_append]
    exact ih.call i

/-- **Installed levels are a group's own.**  Each level of a group that is installed is a row that the publisher sent in
that group, whatever was lost and however its channels are interleaved. -/
theorem ownRows_run (rd : Render P S) (publisher : IpAddr) (horderly : Orderly groups) (is : List (Input P S))
    (hsent : ∀ c, (delivered publisher is c).Sublist (stream (groups c))) :
    (processor rd).Along (Input.OwnRows rd publisher groups) .new is := by
  induction is using List.reverseRecOn with
  | nil => trivial
  | append_singleton is i ih =>
    have hpast : ∀ c, (delivered publisher is c).Sublist (stream (groups c)) := fun c => by
      refine List.Sublist.trans ?_ (hsent c)
      rw [delivered_append]
      exact List.sublist_append_left _ _
    refine (Machine.along_append _ _ _ _ _).mpr ⟨ih hpast, ?_, trivial⟩
    cases i with
    | tick cx order => trivial
    | datagram cx d =>
      rintro rfl
      have hall := hsent d.header.channelId
      rw [delivered_append, show Input.pieces cx.publisher d.header.channelId (.datagram cx d) = _ from if_pos ⟨rfl, rfl⟩]
        at hall
      exact ends_ownRows horderly d.header _ d.messages ((Attributed.run rd cx.publisher is).begin d.header) hall

end Rows

end EdgeConnect.Mbp
