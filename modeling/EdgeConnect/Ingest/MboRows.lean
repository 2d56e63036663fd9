import EdgeConnect.Ingest.BookRecovery
import EdgeConnect.Ingest.BookRewind
import EdgeConnect.Ingest.MboSteps
import EdgeConnect.Ingest.MbpRows

/-!
# Where the orders of an installed order book were sent (`MboProcessor` in `src/ingest/processor.rs`)

A snapshot order carries no instrument, and goes to every book of its publisher that assembles a group of its id.

* `delivered` — the pieces of snapshot groups that a run receives of a publisher on a channel;
* `Attributed` — the orders of a book under assembly arrived after the begin of its group, on the channel of that begin;
  `Attributed.move` — every move keeps it, where a snapshot order finds books of its own channel only;
* `snapshot_rows_never_cross` — every group that is installed has only rows that were sent in it.
-/

set_option autoImplicit false

namespace EdgeConnect.MboFeed

open Ingest Framed
open Mbo (BookState DeltaOp)
open CodecMbo (Message SnapshotOrder SnapshotEnd)

/-! ## What arrives -/

/-- A group as its publisher sends it. -/
abbrev SentGroup := Framed.Group (ℕ × ℕ) SnapshotOrder

/-- A message of a snapshot group; a group is named by its instrument and its id. -/
def pieceOf : Message → Option (Piece (ℕ × ℕ) SnapshotOrder)
  | .snapshotBegin s => some (.first (s.instrumentId, s.snapshotId))
  | .snapshotOrder o => some (.row o)
  | .snapshotEnd e => some (.last (e.instrumentId, e.snapshotId))
  | _ => none

def Input.channel (i : Input) : Nat := i.datagram.header.channelId.toNat

def Input.pieces (publisher : IpAddr) (channel : Nat) (i : Input) : List (Piece (ℕ × ℕ) SnapshotOrder) :=
  if i.cx.publisher = publisher ∧ i.channel = channel then i.datagram.messages.filterMap pieceOf else []

/-- What a run receives of the snapshot groups of a publisher on a channel. -/
def delivered (publisher : IpAddr) (is : List Input) (channel : Nat) : List (Piece (ℕ × ℕ) SnapshotOrder) :=
  is.flatMap (Input.pieces publisher channel)

theorem delivered_append (publisher : IpAddr) (is : List Input) (i : Input) :
    delivered publisher (is ++ [i]) =
      hear (delivered publisher is) (fun c => i.cx.publisher = publisher ∧ i.channel = c)
        (i.datagram.messages.filterMap pieceOf) := by
  funext c
  unfold delivered
  rw [List.flatMap_append, List.flatMap_singleton]
  rfl

/-- The resting order that a row makes. -/
def resting (o : SnapshotOrder) : Mbo.RestingOrder := ⟨decide (o.side = SIDE_BID), o.priceRaw, o.qtyRaw⟩

/-- Every order of a group under assembly is that of a row. -/
def Assembled (rows : SnapshotOrder → Prop) (g : Mbo.Building) : Prop :=
  ∀ id o, g.orders.get id = some o → ∃ s, rows s ∧ s.orderId = id ∧ resting s = o

theorem Assembled.mono (g : Mbo.Building) : Monotone fun rows => Assembled rows g := by
  intro rows rows' hrows h id o ho
  obtain ⟨s, hs, hrest⟩ := h id o ho
  exact ⟨s, hrows s hs, hrest⟩

/-- The orders of every group that a publisher's books assemble arrived after its begin, on one channel. -/
def Attributed (publisher : IpAddr) (hist : Nat → List (Piece (ℕ × ℕ) SnapshotOrder))
    (books : FinMap OrderBookKey BookState) : Prop :=
  ∀ key b g, key.publisher = publisher → books.get key = some b → b.building = some g →
    ∃ channel, Gathered (hist channel) (key.instrumentId, g.snapshotId) fun rows => Assembled rows g

variable {publisher : IpAddr} {hist : Nat → List (Piece (ℕ × ℕ) SnapshotOrder)}
  {books books' : FinMap OrderBookKey BookState}

theorem Attributed.extend (h : Attributed publisher hist books) (on : Nat → Prop) [DecidablePred on]
    (new : List (Piece (ℕ × ℕ) SnapshotOrder)) : Attributed publisher (hear hist on new) books := by
  intro key b g hp hb hg
  obtain ⟨channel, hgathered⟩ := h key b g hp hb hg
  exact ⟨channel, hgathered.extend (Assembled.mono g) _⟩

/-- Books that assemble nothing but what they did. -/
theorem Attributed.of_building (h : Attributed publisher hist books)
    (hle : ∀ key b g, books'.get key = some b → b.building = some g →
      ∃ b', books.get key = some b' ∧ b'.building = some g) : Attributed publisher hist books' := by
  intro key b g hp hb hg
  obtain ⟨b', hb', hg'⟩ := hle key b g hb hg
  exact h key b' g hp hb' hg'

/-- One book is replaced: it assembles what it did, or what is accounted for. -/
theorem Attributed.insert (h : Attributed publisher hist books) (key : OrderBookKey) (b' : BookState)
    (hopen : ∀ g, b'.building = some g → (∃ b, books.get key = some b ∧ b.building = some g) ∨
      (key.publisher = publisher →
        ∃ channel, Gathered (hist channel) (key.instrumentId, g.snapshotId) fun rows => Assembled rows g)) :
    Attributed publisher hist (books.insert key b') := by
  intro k b g hp hb hg
  rw [FinMap.get_insert] at hb
  split at hb
  · rename_i hk
    subst hk
    cases hb
    rcases hopen g hg with ⟨b₀, hb₀, hg₀⟩ | hnew
    · exact h _ b₀ g hp hb₀ hg₀
    · exact hnew hp
  · exact h k b g hp hb hg

/-! ## The books -/

theorem onSnapshotBegin_building (b : BookState) (id anchor total last : Nat) (g : Mbo.Building)
    (h : (b.onSnapshotBegin id anchor total last).building = some g) : g.snapshotId = id ∧ g.orders = ∅ := by
  unfold BookState.onSnapshotBegin at h
  split at h
  · cases h
  · split at h
    · cases h
    · cases h
      exact ⟨rfl, rfl⟩

theorem installs_id {b : BookState} {anchor id : Nat} (h : (b.onSnapshotEnd anchor id).2 = true) :
    ∃ g, b.building = some g ∧ g.snapshotId = id := by
  unfold BookState.onSnapshotEnd at h
  split at h
  · cases h
  · rename_i g hopen
    split at h
    · cases h
    · rename_i hin
      simp only [not_or, ne_eq, Decidable.not_not] at hin
      exact ⟨g, hopen, hin.1⟩

/-- A row joins a group of its id, and no other. -/
theorem onSnapshotOrder_building (b : BookState) (o : SnapshotOrder) (g' : Mbo.Building)
    (h : (b.onSnapshotOrder o.snapshotId o.orderId (decide (o.side = SIDE_BID)) o.priceRaw o.qtyRaw).building = some g') :
    b.building = some g' ∨ ∃ g, b.building = some g ∧ g.snapshotId = o.snapshotId ∧ g'.snapshotId = g.snapshotId ∧
      ∀ rows : SnapshotOrder → Prop, rows o → Assembled rows g → Assembled rows g' := by
  unfold BookState.onSnapshotOrder at h
  split at h
  · exact .inl h
  · rename_i g hopen
    split at h
    · rename_i hin
      cases h
      refine .inr ⟨g, hopen, hin.1, rfl, fun rows ho hg id r hr => ?_⟩
      have hget : (g.orders.insert o.orderId (resting o)).get id = some r := hr
      rw [FinMap.get_insert] at hget
      split at hget
      · rename_i hid
        cases hget
        exact ⟨o, ho, hid.symm, rfl⟩
      · exact hg id r hget
    · exact .inl h

/-! ## The moves -/

/-- Every book that assembles a group of this row's id is of an instrument whose groups are sent on this channel. -/
def Aligned (groups : Nat → List SentGroup) (publisher : IpAddr) (channel : Nat) (books : FinMap OrderBookKey BookState)
    (o : SnapshotOrder) : Prop :=
  ∀ key b g, key.publisher = publisher → books.get key = some b → b.building = some g → g.snapshotId = o.snapshotId →
    ∃ G ∈ groups channel, G.key.1 = key.instrumentId

section Moves

variable {P S : Type} {rd : Render P S} {cx : Ctx} {R : Rules P S} {v v' : View P S} {groups : Nat → List SentGroup}

theorem books_reveal (v : View P S) (key : OrderBookKey) (sourceId : Nat) (d : InstrumentDefinition) (symbol : String) :
    (v.reveal rd cx key sourceId d symbol).books = v.books := by
  unfold View.reveal
  simp only
  split <;> rfl

theorem books_owe (v : View P S) (id : Nat) (due : Option Nat) : (v.owe cx id due).books = v.books := by
  unfold View.owe
  simp only
  split <;> rfl

/-- What a rule says of the messages of a channel: its pieces are the last to arrive, and its rows find books of the
channel only. -/
structure Attends (R : Rules P S) (cx : Ctx) (groups : Nat → List SentGroup) (hist : Nat → List (Piece (ℕ × ℕ) SnapshotOrder))
    (channel : Nat) : Prop where
  pieces : ∀ v m x, R.message v m → pieceOf m = some x → ∃ past, hist channel = past ++ [x]
  aligned : ∀ v o, R.message v (.snapshotOrder o) → Aligned groups cx.publisher channel v.books o

/-- A row joins the groups of its own channel. -/
theorem Attributed.rowed (horderly : Orderly groups) (hsent : ∀ c, (hist c).Sublist (stream (groups c))) {channel : Nat}
    (hattends : cx.publisher = publisher → Attends R cx groups hist channel) (h : Attributed publisher hist v.books)
    {o : SnapshotOrder} (hm : R.message v (.snapshotOrder o)) :
    Attributed publisher hist (v.snapshotOrder cx o).books := by
  intro key b' g' hp hb' hg'
  have hentry : (v.books.mapEntries fun k b =>
      if k.publisher = cx.publisher then
        b.onSnapshotOrder o.snapshotId o.orderId (decide (o.side = SIDE_BID)) o.priceRaw o.qtyRaw
      else b).get key = some b' := hb'
  rw [FinMap.get_mapEntries, Option.map_eq_some_iff] at hentry
  obtain ⟨b, hb, hentry⟩ := hentry
  split at hentry
  · rename_i hcx
    subst hentry
    rcases onSnapshotOrder_building b o g' hg' with hopen | ⟨g, hopen, hid, hid', hrows⟩
    · exact h key b g' hp hb hopen
    · obtain ⟨c, hgathered⟩ := h key b g hp hb hopen
      have hattends := hattends (hcx.symm.trans hp)
      -- the group was begun on the channel of its instrument, which is the row's
      obtain ⟨G, hG, hkey⟩ := hattends.aligned v o hm key b g hcx hb hopen hid
      obtain ⟨G', hG', hkey'⟩ := key_of_first_mem ((hsent c).subset hgathered.first_mem)
      have hchannel : c = channel := horderly.own c channel G' G hG' hG (by rw [hkey, hkey'])
      subst hchannel
      obtain ⟨past, hpast⟩ := hattends.pieces v _ _ hm rfl
      refine ⟨c, ?_⟩
      rw [hpast] at hgathered ⊢
      rw [hid']
      exact hgathered.row hrows
  · subst hentry
    exact h key b g' hp hb hg'

/-- **Every move keeps the attribution.** -/
theorem Attributed.move (horderly : Orderly groups) (hsent : ∀ c, (hist c).Sublist (stream (groups c))) {channel : Nat}
    (hattends : cx.publisher = publisher → Attends R cx groups hist channel) (hm : Move rd cx R v v')
    (h : Attributed publisher hist v.books) : Attributed publisher hist v'.books := by
  cases hm with
  | fresh id hd hb => exact h.insert _ _ nofun
  | drop key =>
    refine h.of_building fun k b g hb hg => ⟨b, ?_, hg⟩
    have herased : (v.books.erase key).get k = some b := hb
    rw [FinMap.get_erase] at herased
    split at herased
    · cases herased
    · exact herased
  | purgeBooks p hnone =>
    refine h.of_building fun k b g hb hg => ⟨b, ?_, hg⟩
    have hkept : (v.books.filter fun k _ => !decide (k.publisher = p)).get k = some b := hb
    rw [FinMap.get_filter, Option.filter_eq_some_iff] at hkept
    exact hkept.1
  | revealDefined v₀ d d' hm hbooks hrevealed sourceId hsource hd hnew symbol =>
    rw [books_reveal]
    exact h
  | reveal v₀ m hm id sourceId d hd hnew symbol due =>
    rw [books_owe, books_reveal]
    exact h
  | delta v₀ m hm id op b hb =>
    exact h.insert _ _ fun g hg => .inl ⟨b, hb, (Mbo.onDeltaReporting_building b op).symm.trans hg⟩
  | snapshotBegin v₀ s hm b hb =>
    refine h.insert _ _ fun g hg => .inr fun hp => ?_
    obtain ⟨hid, horders⟩ := onSnapshotBegin_building b _ _ _ _ g hg
    obtain ⟨past, hpast⟩ := (hattends hp).pieces v₀ _ _ hm rfl
    refine ⟨channel, ?_⟩
    rw [hpast, hid]
    exact .begun past fun id o ho => by
      rw [horders] at ho
      cases ho
  | snapshotOrder s hm => exact h.rowed horderly hsent hattends hm
  | snapshotEnd v₀ e hm b hb =>
    refine h.insert _ _ fun g hg => ?_
    rw [Mbo.onSnapshotEnd_building] at hg
    cases hg
  | endSession =>
    intro k b g hp hb hg
    have hended : (v.books.mapVals BookState.onEndOfSession).get k = some b := hb
    rw [FinMap.get_mapVals, Option.map_eq_some_iff] at hended
    obtain ⟨b₀, -, rfl⟩ := hended
    cases hg
  | resetBook id newAnchorSeq b hb => exact h.insert _ _ nofun
  | _ => exact h

end Moves

/-! ## A call -/

/-- The lane that a call hears of a publisher. -/
def On (publisher : IpAddr) (cx : Ctx) (channel c : Nat) : Prop := cx.publisher = publisher ∧ channel = c

instance (cx : Ctx) (channel : Nat) : DecidablePred (On publisher cx channel) :=
  fun _ => inferInstanceAs (Decidable (_ ∧ _))

/-- What has arrived of a publisher's snapshot groups once more messages have, on this channel. -/
abbrev heard (publisher : IpAddr) (hist : Nat → List (Piece (ℕ × ℕ) SnapshotOrder)) (cx : Ctx) (channel : Nat)
    (ms : List Message) : Nat → List (Piece (ℕ × ℕ) SnapshotOrder) :=
  hear hist (On publisher cx channel) (ms.filterMap pieceOf)

section Calls

variable {P S : Type} {rd : Render P S} {cx : Ctx} {channel : Nat} {groups : Nat → List SentGroup}

theorem heard_append (ms ms' : List Message) :
    heard publisher hist cx channel (ms ++ ms') = heard publisher (heard publisher hist cx channel ms) cx channel ms' := by
  unfold heard
  rw [List.filterMap_append, hear_append]

theorem heard_self (hp : cx.publisher = publisher) (ms : List Message) :
    heard publisher hist cx channel ms channel = hist channel ++ ms.filterMap pieceOf :=
  congrArg _ (if_pos ⟨hp, rfl⟩)

theorem heard_sublist (ms ms' : List Message) (c : Nat) :
    (heard publisher hist cx channel ms c).Sublist (heard publisher hist cx channel (ms ++ ms') c) := by
  rw [heard_append]
  exact List.sublist_append_left _ _

/-- A snapshot order, where it comes, finds books of its own channel only. -/
def RowAligned (publisher : IpAddr) (channel : Nat) (groups : Nat → List SentGroup) (v : View P S) (m : Message) : Prop :=
  ∀ o, m = .snapshotOrder o → Aligned groups publisher channel v.books o

/-- Were this end to install a group in its book, each order of it would be a row that the publisher sent in that group
of that instrument. -/
def EndOwns (publisher : IpAddr) (channel : Nat) (groups : Nat → List SentGroup) (v : View P S) (m : Message) : Prop :=
  ∀ e, m = .snapshotEnd e → ∀ b, v.books.get ⟨publisher, e.instrumentId⟩ = some b →
    (b.onSnapshotEnd e.anchorSeq e.snapshotId).2 = true → ∃ g, b.building = some g ∧
      ∃ G ∈ groups channel, G.key = (e.instrumentId, e.snapshotId) ∧ Assembled (· ∈ G.rows) g

theorem Attributed.message (horderly : Orderly groups) (h : CodecCommon.DatagramHeader) {f : Frame P S} (m : Message)
    (hsent : ∀ c, (heard publisher hist cx channel [m] c).Sublist (stream (groups c)))
    (haligned : cx.publisher = publisher → RowAligned publisher channel groups (f.view []) m)
    (hf : Attributed publisher hist f.proc.books) :
    Attributed publisher (heard publisher hist cx channel [m]) (f.onMessage rd cx h m).proc.books := by
  let R : Rules P S := ⟨fun v m' => m' = m ∧ (cx.publisher = publisher → RowAligned publisher channel groups v m),
    fun _ _ => True⟩
  have hsteps : Steps rd cx R (f.view []) _ := onMessage_steps h f m ⟨rfl, haligned⟩
  have hattends : cx.publisher = publisher → Attends R cx groups (heard publisher hist cx channel [m]) channel := by
    refine fun hp => ⟨?_, ?_⟩
    · rintro v m' x ⟨rfl, -⟩ hx
      refine ⟨hist channel, ?_⟩
      rw [heard_self hp]
      simp [hx]
    · rintro v o ⟨ho, hrow⟩
      rw [hp]
      exact hrow hp o ho.symm
  exact Steps.rule (I := fun v => Attributed publisher (heard publisher hist cx channel [m]) v.books)
    (fun _ _ hm hv => hv.move horderly hsent hattends hm) hsteps (hf.extend _ _)

/-- The rules of a call that nothing is asked of. -/
def idle (P S : Type) : Rules P S := ⟨fun _ _ => False, fun _ _ => True⟩

theorem Attributed.steps (horderly : Orderly groups) (hsent : ∀ c, (hist c).Sublist (stream (groups c)))
    {v v' : View P S} (hsteps : Steps rd cx (idle P S) v v') (h : Attributed publisher hist v.books) :
    Attributed publisher hist v'.books := by
  have hattends : cx.publisher = publisher → Attends (idle P S) cx groups hist 0 := fun _ =>
    ⟨fun _ _ _ hm => hm.elim, fun _ _ hm => hm.elim⟩
  exact Steps.rule (I := fun v => Attributed publisher hist v.books)
    (fun _ _ hm hv => hv.move horderly hsent hattends hm) hsteps h

theorem Attributed.begin (horderly : Orderly groups) (hsent : ∀ c, (hist c).Sublist (stream (groups c)))
    {p : MboProcessor} (h : Attributed publisher hist p.books) (header : CodecCommon.DatagramHeader) :
    Attributed publisher hist (begin rd cx header p).proc.books :=
  h.steps (v := p.view []) horderly hsent (begin_steps header p)

/-- **The messages of a call**: where its rows find books of the channel, its ends install rows of their own group. -/
theorem Attributed.messages (horderly : Orderly groups) (h : CodecCommon.DatagramHeader) : ∀ (ms : List Message)
    {hist : Nat → List (Piece (ℕ × ℕ) SnapshotOrder)} {f : Frame P S},
    (∀ c, (heard publisher hist cx channel ms c).Sublist (stream (groups c))) →
    (cx.publisher = publisher → Promised ⟨RowAligned publisher channel groups, fun _ _ => True⟩ rd cx h [] f ms) →
    Attributed publisher hist f.proc.books →
      (cx.publisher = publisher → Promised ⟨EndOwns publisher channel groups, fun _ _ => True⟩ rd cx h [] f ms) ∧
      Attributed publisher (heard publisher hist cx channel ms) (ms.foldl (Frame.onMessage rd cx h) f).proc.books
  | [], _, _, _, _, hf => ⟨fun _ _ _ => trivial, hf.extend _ _⟩
  | m :: ms, hist, f, hsent, haligned, hf => by
    have hone : ∀ c, (heard publisher hist cx channel [m] c).Sublist (stream (groups c)) := fun c =>
      (heard_sublist [m] ms c).trans (hsent c)
    have hmessage : Attributed publisher _ (f.onMessage rd cx h m).proc.books :=
      hf.message horderly h m hone fun hp => (haligned hp).1
    rw [show m :: ms = [m] ++ ms from rfl, heard_append] at hsent ⊢
    obtain ⟨hends, hrest⟩ := Attributed.messages horderly h ms hsent (fun hp => (haligned hp).2) hmessage
    refine ⟨fun hp => ⟨?_, hends hp⟩, hrest⟩
    rintro e rfl b hb hinstalls
    obtain ⟨g, hopen, hid⟩ := installs_id hinstalls
    obtain ⟨c, hgathered⟩ := hf ⟨publisher, e.instrumentId⟩ b g rfl hb hopen
    -- the group was begun on the channel of its instrument, which is the end's
    have hlast := hone channel
    rw [heard_self hp] at hlast
    obtain ⟨G, hG, hkey⟩ := key_of_last_mem (hlast.subset (List.mem_append_right _ (List.mem_singleton_self _)))
    have hfirst := (List.sublist_append_left _ _).trans (hone c)
    obtain ⟨G', hG', hkey'⟩ := key_of_first_mem (hfirst.subset hgathered.first_mem)
    have hchannel : c = channel := horderly.own c channel G' G hG' hG (by rw [hkey, hkey'])
    subst hchannel
    rw [hid] at hgathered
    exact ⟨g, hopen, hgathered.own (horderly.nodup c) (Assembled.mono g) hlast⟩

end Calls

section Runs

variable {P S : Type} {rd : Render P S} {groups : Nat → List SentGroup}

/-- Every message of a call meets `Q` where it comes. -/
def Input.Each (rd : Render P S) (Q : View P S → Message → Prop) (p : MboProcessor) (i : Input) : Prop :=
  Promised ⟨Q, fun _ _ => True⟩ rd i.cx i.datagram.header [] (begin rd i.cx i.datagram.header p) i.datagram.messages

/-- A call in which the rows of a publisher find books of their own channel only. -/
def Input.RowsAligned (rd : Render P S) (publisher : IpAddr) (groups : Nat → List SentGroup) (p : MboProcessor)
    (i : Input) : Prop :=
  i.cx.publisher = publisher → i.Each rd (RowAligned publisher i.channel groups) p

/-- A call in which every group of a publisher that is installed has its own rows only. -/
def Input.OwnRows (rd : Render P S) (publisher : IpAddr) (groups : Nat → List SentGroup) (p : MboProcessor)
    (i : Input) : Prop :=
  i.cx.publisher = publisher → i.Each rd (EndOwns publisher i.channel groups) p

theorem Attributed.call (horderly : Orderly groups) {p : MboProcessor} {is : List Input} (i : Input)
    (hsent : ∀ c, (delivered publisher (is ++ [i]) c).Sublist (stream (groups c)))
    (haligned : i.RowsAligned rd publisher groups p) (h : Attributed publisher (delivered publisher is) p.books) :
    i.OwnRows rd publisher groups p ∧
      Attributed publisher (delivered publisher (is ++ [i])) (stepWith rd p i).1.books := by
  have hpast : ∀ c, (delivered publisher is c).Sublist (stream (groups c)) := by
    intro c
    refine List.Sublist.trans ?_ (hsent c)
    rw [delivered_append]
    exact List.sublist_append_left _ _
  have hhist : delivered publisher (is ++ [i]) =
      heard publisher (delivered publisher is) i.cx i.channel i.datagram.messages := delivered_append publisher is i
  rw [hhist] at hsent ⊢
  have hbegin : Attributed publisher (delivered publisher is) (MboFeed.begin rd i.cx i.datagram.header p).proc.books :=
    h.begin horderly hpast i.datagram.header
  obtain ⟨hends, hmessages⟩ := Attributed.messages horderly i.datagram.header i.datagram.messages hsent haligned hbegin
  refine ⟨hends, ?_⟩
  show Attributed publisher _ (onDatagram rd i.cx p i.datagram).proc.books
  unfold onDatagram
  generalize i.datagram.messages.foldl (Frame.onMessage rd i.cx i.datagram.header) _ = f at hmessages ⊢
  have hemit : Steps rd i.cx (idle P S) (f.view []) _ := emitPass_steps f fun _ _ => trivial
  exact Attributed.steps horderly hsent hemit hmessages

theorem ownRows_run (rd : Render P S) (publisher : IpAddr) (horderly : Orderly groups) (is : List Input)
    (hsent : ∀ c, (delivered publisher is c).Sublist (stream (groups c)))
    (haligned : (processor rd).Along (Input.RowsAligned rd publisher groups) .new is) :
    (processor rd).Along (Input.OwnRows rd publisher groups) .new is ∧
      Attributed publisher (delivered publisher is) (after rd is).books := by
  induction is using List.reverseRecOn with
  | nil => exact ⟨trivial, fun _ _ _ _ hb => by cases hb⟩
  | append_singleton is i ih =>
    have hpast : ∀ c, (delivered publisher is c).Sublist (stream (groups c)) := by
      intro c
      refine List.Sublist.trans ?_ (hsent c)
      rw [delivered_append]
      exact List.sublist_append_left _ _
    obtain ⟨hbefore, hlast, -⟩ := (Machine.along_append _ _ _ _ _).mp haligned
    obtain ⟨howns, hrun⟩ := ih hpast hbefore
    obtain ⟨hown, hcall⟩ := hrun.call horderly i hsent hlast
    rw [after_append]
    exact ⟨(Machine.along_append _ _ _ _ _).mpr ⟨howns, hown, trivial⟩, hcall⟩

/-- **Snapshot rows never cross instruments.**  Whatever was lost of the groups that a publisher sends on its channels,
and however these are interleaved, a price book installs only levels that were sent in its own group; and so does an order
book its orders, in every run in which a row finds, of the books that assemble a group of its id, only those of
instruments of its own channel. -/
theorem snapshot_rows_never_cross (publisher : IpAddr) :
    (∀ (rd : Render P S) (groups : Nat → List Mbp.SentGroup), Orderly groups → ∀ is : List (Mbp.Input P S),
      (∀ c, (Mbp.delivered publisher is c).Sublist (stream (groups c))) →
      (Mbp.processor rd).Along (Mbp.Input.OwnRows rd publisher groups) .new is) ∧
    ∀ (rd : Render P S) (groups : Nat → List SentGroup), Orderly groups → ∀ is : List Input,
      (∀ c, (delivered publisher is c).Sublist (stream (groups c))) →
      (processor rd).Along (Input.RowsAligned rd publisher groups) .new is →
      (processor rd).Along (Input.OwnRows rd publisher groups) .new is :=
  ⟨fun rd _ horderly is hsent => Mbp.ownRows_run rd publisher horderly is hsent,
    fun rd _ horderly is hsent haligned => (ownRows_run rd publisher horderly is hsent haligned).1⟩

end Runs

/-! ## Two channels -/

instance (groups : Nat → List SentGroup) (publisher : IpAddr) (channel : Nat) (books : FinMap OrderBookKey BookState)
    (o : SnapshotOrder) : Decidable (Aligned groups publisher channel books o) :=
  decidable_of_iff
    (∀ key ∈ books.keys, key.publisher = publisher → ∀ g ∈ (books.get key).bind BookState.building,
      g.snapshotId = o.snapshotId → ∃ G ∈ groups channel, G.key.1 = key.instrumentId)
    ⟨fun h key b g hp hb hg => h key (FinMap.mem_keys_iff.mpr ⟨b, hb⟩) hp g (by rw [hb]; exact hg),
      fun h key _ hp g hg => by
        obtain ⟨b, hb, hg⟩ := Option.bind_eq_some_iff.mp hg
        exact h key b g hp hb hg⟩

def plainRender : Render Unit Unit := ⟨fun _ _ => (), fun _ _ => (), (), (), fun _ => ""⟩

/-- The group of instrument 7 on channel 0, of one row, and that of instrument 8, of this id, on channel 1. -/
def twoGroups {R : Type} (row row' : R) (snapshotId c : Nat) : List (Framed.Group (ℕ × ℕ) R) :=
  if c = 0 then [⟨(7, 5), [row]⟩] else if c = 1 then [⟨(8, snapshotId), [row']⟩] else []

theorem mem_twoGroups {R : Type} {row row' : R} {snapshotId c : Nat} {g : Framed.Group (ℕ × ℕ) R}
    (h : g ∈ twoGroups row row' snapshotId c) : (c = 0 ∧ g = ⟨(7, 5), [row]⟩) ∨ (c = 1 ∧ g.key.1 = 8) := by
  unfold twoGroups at h
  split at h
  · rename_i hc
    exact .inl ⟨hc, List.mem_singleton.mp h⟩
  · split at h
    · rename_i hc
      exact .inr ⟨hc, congrArg (fun g : Framed.Group (ℕ × ℕ) R => g.key.1) (List.mem_singleton.mp h)⟩
    · cases h

theorem twoGroups_orderly {R : Type} (row row' : R) (snapshotId : Nat) : Orderly (twoGroups row row' snapshotId) where
  rising c := by
    unfold twoGroups
    split
    · exact List.pairwise_singleton _ _
    · split
      · exact List.pairwise_singleton _ _
      · exact .nil
  own c c' g g' hg hg' hkey := by
    rcases mem_twoGroups hg with ⟨hc, rfl⟩ | ⟨hc, h⟩ <;> rcases mem_twoGroups hg' with ⟨hc', rfl⟩ | ⟨hc', h'⟩
    · exact hc.trans hc'.symm
    · cases hkey.trans h'
    · cases hkey.symm.trans h
    · exact hc.trans hc'.symm

def laneInput (channel : UInt8) (sequence : Nat) (messages : List Message) : Input :=
  ⟨⟨"c", 0, 1, .combined, 1, none, 0, false, []⟩, ⟨1, channel, sequence, 0, 0, 0, 0⟩, messages⟩

def twoDefinitions : List Message :=
  [.manifestSummary ⟨0, true, 1, 2, 0⟩, .instrumentDefinition ⟨7, none, "S", 0, 0, 1, 1⟩,
    .instrumentDefinition ⟨8, none, "T", 0, 0, 1, 1⟩]

def rowOf (snapshotId orderId : Nat) : SnapshotOrder := ⟨snapshotId, orderId, SIDE_BID, 0, 0, 10, 1⟩

/-- The two groups interleave under different ids. -/
def interleavedInputs : List Input :=
  [laneInput 0 1 (twoDefinitions ++ [.snapshotBegin ⟨7, 0, 1, 5, 0, 0⟩]),
    laneInput 1 1 [.snapshotBegin ⟨8, 0, 1, 6, 0, 0⟩, .snapshotOrder (rowOf 6 80), .snapshotEnd ⟨8, 0, 6⟩],
    laneInput 0 2 [.snapshotOrder (rowOf 5 70), .snapshotEnd ⟨7, 0, 5⟩]]

def crossedEnd : Input := laneInput 0 2 [.snapshotEnd ⟨7, 0, 5⟩]

/-- The two groups interleave under one id, and the row of the first is lost. -/
def crossedInputs : List Input :=
  [laneInput 0 1 (twoDefinitions ++ [.snapshotBegin ⟨7, 0, 1, 5, 0, 0⟩]),
    laneInput 1 1 [.snapshotBegin ⟨8, 0, 1, 5, 0, 0⟩, .snapshotOrder (rowOf 5 80)], crossedEnd]

theorem delivered_elsewhere {is : List Input} (h : ∀ i ∈ is, i.channel = 0 ∨ i.channel = 1) (publisher : IpAddr) (c : Nat) :
    delivered publisher is (c + 2) = [] := by
  refine List.flatMap_eq_nil_iff.mpr fun i hi => if_neg fun hon => ?_
  have hchannel := hon.2
  rcases h i hi with h | h <;> omega

theorem interleavedInputs_sent :
    ∀ c, (delivered 1 interleavedInputs c).Sublist (stream (twoGroups (rowOf 5 70) (rowOf 6 80) 6 c))
  | 0 => by decide
  | 1 => by decide
  | c + 2 => by
    rw [delivered_elsewhere (by decide)]
    exact List.nil_sublist _

theorem crossedInputs_sent :
    ∀ c, (delivered 1 crossedInputs c).Sublist (stream (twoGroups (rowOf 5 70) (rowOf 5 80) 5 c))
  | 0 => by decide
  | 1 => by decide
  | c + 2 => by
    rw [delivered_elsewhere (by decide)]
    exact List.nil_sublist _

theorem interleavedInputs_aligned :
    (processor plainRender).Along (Input.RowsAligned plainRender 1 (twoGroups (rowOf 5 70) (rowOf 6 80) 6)) .new
      interleavedInputs := by
  refine ⟨fun _ => ⟨nofun, nofun, nofun, nofun, fun _ _ => trivial⟩,
    fun _ => ⟨nofun, fun o ho => ?_, nofun, fun _ _ => trivial⟩, fun _ => ⟨fun o ho => ?_, nofun, fun _ _ => trivial⟩, trivial⟩
  · cases ho
    decide +kernel
  · cases ho
    decide +kernel

def levelOf (snapshotId : Nat) (price : Int) : Mbp.SnapshotLevel := ⟨snapshotId, price, 1, none, Mbp.SIDE_BID, 0⟩

def levelInput (channel sequence : Nat) (messages : List Mbp.Message) : Mbp.Input Unit Unit :=
  .datagram ⟨"c", 0, 1, .combined, 1, none, 0, false, [], fun _ _ => false⟩ ⟨⟨channel, sequence, 0⟩, messages⟩

/-- Two groups of levels interleave under one id. -/
def crossedLevels : List (Mbp.Input Unit Unit) :=
  [levelInput 0 1 [.manifestSummary true 1 2, .instrumentDefinition ⟨7, none, "S", 0, 0, 1, 1⟩,
      .instrumentDefinition ⟨8, none, "T", 0, 0, 1, 1⟩, .snapshotBegin ⟨7, 0, 1, 5, 0, 0⟩],
    levelInput 1 1 [.manifestSummary true 1 2, .snapshotBegin ⟨8, 0, 1, 5, 0, 0⟩, .snapshotLevel (levelOf 5 20)],
    levelInput 0 2 [.snapshotLevel (levelOf 5 10), .snapshotEnd ⟨7, 0, 5⟩], levelInput 1 2 [.snapshotEnd ⟨8, 0, 5⟩]]

theorem crossedLevels_sent :
    ∀ c, (Mbp.delivered 1 crossedLevels c).Sublist (stream (twoGroups (levelOf 5 10) (levelOf 5 20) 5 c))
  | 0 => by decide
  | 1 => by decide
  | c + 2 => by
    have hnone : Mbp.delivered 1 crossedLevels (c + 2) = [] := by
      simp [Mbp.delivered, crossedLevels, levelInput, Mbp.Input.pieces]
    rw [hnone]
    exact List.nil_sublist _

theorem snapshot_rows_never_cross_interleaved :
    (Mbp.processor plainRender).Along (Mbp.Input.OwnRows plainRender 1 (twoGroups (levelOf 5 10) (levelOf 5 20) 5)) .new
      crossedLevels ∧
    (processor plainRender).Along (Input.OwnRows plainRender 1 (twoGroups (rowOf 5 70) (rowOf 6 80) 6)) .new
      interleavedInputs :=
  ⟨(snapshot_rows_never_cross 1).1 plainRender _ (twoGroups_orderly _ _ _) crossedLevels crossedLevels_sent,
    (snapshot_rows_never_cross 1).2 plainRender _ (twoGroups_orderly _ _ _) interleavedInputs interleavedInputs_sent
      interleavedInputs_aligned⟩

/-- The row of instrument 8 completes the group of instrument 7, and is installed in its book. -/
theorem snapshot_rows_never_cross_crossedInputs :
    ¬ ∀ (rd : Render Unit Unit) (publisher : IpAddr) (groups : Nat → List SentGroup), Orderly groups →
      ∀ is : List Input, (∀ c, (delivered publisher is c).Sublist (stream (groups c))) →
        (processor rd).Along (Input.OwnRows rd publisher groups) .new is := by
  intro h
  obtain ⟨-, -, hend, -⟩ := h plainRender 1 _ (twoGroups_orderly (rowOf 5 70) (rowOf 5 80) 5) crossedInputs crossedInputs_sent
  have hown := (hend rfl).1 _ rfl
  have hread : ((begin plainRender crossedEnd.cx crossedEnd.datagram.header
      (after plainRender (crossedInputs.take 2))).proc.books.get ⟨1, 7⟩).map (fun b =>
        ((b.onSnapshotEnd 0 5).2, b.building.bind fun g => g.orders.get 80)) =
      some (true, some (resting (rowOf 5 80))) := by decide +kernel
  obtain ⟨b, hb, hbook⟩ := Option.map_eq_some_iff.mp hread
  obtain ⟨hinstalls, hrow⟩ := Prod.mk.inj hbook
  obtain ⟨g, hopen, G, hG, hkey, hassembled⟩ := hown b hb hinstalls
  rw [hopen] at hrow
  obtain ⟨s, hs, hid, -⟩ := hassembled 80 _ hrow
  rcases mem_twoGroups hG with ⟨-, rfl⟩ | ⟨hchannel, -⟩
  · rw [List.mem_singleton.mp hs] at hid
    cases hid
  · cases hchannel

end EdgeConnect.MboFeed
