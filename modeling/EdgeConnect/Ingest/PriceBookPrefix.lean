import EdgeConnect.Ingest.PriceBook

/-!
# A ready price book is a prefix of the publisher's history

The publisher's side is abstract: a `History` is the numbered list of deltas of one instrument, its
`book k` the book after the first `k` of them, and a `Group` a snapshot captured after one of them.
`Sent H G call` says that a call on the book carries one of these messages (or is one of the three
local operations); a run of such calls covers loss, duplication and reordering, since nothing ties
its calls to each other.

* `apply_cases` — a delta either overflows the level cap or is exactly `Sides.on`;
* `Inv` — a ready book is `H.book` of its sequence, a group under assembly holds part of a genuine
  snapshot and counts what it holds, the buffer holds genuine deltas;
* `ready_book_is_exact` — whenever the book is `Ready` it is `H.book` at its own sequence.
-/

set_option autoImplicit false

namespace EdgeConnect.Mbp

/-! ## The publisher -/

/-- The two sides of a price-level book. -/
@[ext]
structure Sides where
  bids : Levels
  asks : Levels

def Sides.empty : Sides := ⟨∅, ∅⟩

/-- The number of levels of both sides. -/
def Sides.size (s : Sides) : Nat := s.bids.size + s.asks.size

/-- The absolute quantity `qtyRaw` put at one price: `0` removes the level. -/
def setLevel (levels : Levels) (priceRaw : Int) (qtyRaw : Nat) (orderCount : Option Nat)
    (levelFlags : UInt8) : Levels :=
  if qtyRaw = 0 then levels.erase priceRaw
  else levels.insert priceRaw ⟨qtyRaw, orderCount, levelFlags⟩

/-- What a delta means for a book without a level cap. -/
def Sides.on (s : Sides) : BookDelta → Sides
  | .level side price qty count flags _ =>
    if side = SIDE_ASK then { s with asks := setLevel s.asks price qty count flags }
    else { s with bids := setLevel s.bids price qty count flags }
  | .clear clearSide scope fromPrice =>
    if clearSide = CLEAR_SIDE_BOTH ∧ scope ≠ SCOPE_ENTIRE_SIDE then s
    else
      { bids :=
          if clearSide = CLEAR_SIDE_BID ∨ clearSide = CLEAR_SIDE_BOTH then
            s.bids.filter fun p _ => survivesClear SIDE_BID scope fromPrice p
          else s.bids
        asks :=
          if clearSide = CLEAR_SIDE_ASK ∨ clearSide = CLEAR_SIDE_BOTH then
            s.asks.filter fun p _ => survivesClear SIDE_ASK scope fromPrice p
          else s.asks }

/-- A publisher's deltas for one instrument, numbered from `1` in `u32`. -/
structure History where
  deltas : List DeltaOp
  seq_eq : ∀ i (h : i < deltas.length), deltas[i].seq = i + 1
  mktdata_mono : deltas.Pairwise fun a b => a.mktdataSeq ≤ b.mktdataSeq
  bounded : deltas.length < 2 ^ 32

/-- The book after the first `k` deltas. -/
def History.book (H : History) (k : Nat) : Sides :=
  (H.deltas.take k).foldl (fun s op => s.on op.delta) Sides.empty

/-- A genuine snapshot group, captured after delta `lastInstrumentSeq`: its levels are those of the
book there and its anchor separates the deltas it contains from the later ones. -/
structure Group (H : History) where
  snapshotId : Nat
  anchorSeq : Nat
  lastInstrumentSeq : Nat
  depthBound : Nat
  captured : lastInstrumentSeq ≤ H.deltas.length
  anchored : ∀ i (h : i < H.deltas.length),
    H.deltas[i].mktdataSeq ≤ anchorSeq ↔ i < lastInstrumentSeq

def Group.book {H : History} (g : Group H) : Sides := H.book g.lastInstrumentSeq

def Group.totalLevels {H : History} (g : Group H) : Nat := g.book.size

/-- A call that carries a message of the history or of one of its snapshot groups, or is one of the
book's local operations. -/
def Sent (H : History) (G : Set (Group H)) : Call → Prop
  | .delta op => op ∈ H.deltas
  | .snapshotBegin id anchor total last depth _ => ∃ g ∈ G, id = g.snapshotId ∧
      anchor = g.anchorSeq ∧ total = g.totalLevels ∧ last = g.lastInstrumentSeq ∧
      depth = g.depthBound
  | .snapshotLevel id side price qty count flags => ∃ g ∈ G, id = g.snapshotId ∧
      ((side = SIDE_ASK ∧ g.book.asks.get price = some ⟨qty, count, flags⟩) ∨
       (side = SIDE_BID ∧ g.book.bids.get price = some ⟨qty, count, flags⟩))
  | .snapshotEnd anchor id => ∃ g ∈ G, anchor = g.anchorSeq ∧ id = g.snapshotId
  | .dropBuffer | .instrumentReset _ | .endOfSession => True

variable {H : History} {G : Set (Group H)} {b : PriceBook}

theorem History.book_succ {k : Nat} {op : DeltaOp} (hop : op ∈ H.deltas) (hseq : op.seq = k + 1) :
    k + 1 ≤ H.deltas.length ∧ H.book (k + 1) = (H.book k).on op.delta := by
  obtain ⟨i, hi, rfl⟩ := List.mem_iff_getElem.mp hop
  have hik : i = k := by have := H.seq_eq i hi; omega
  subst hik
  refine ⟨hi, ?_⟩
  unfold History.book
  rw [List.take_add_one, List.getElem?_eq_getElem hi, Option.toList_some, List.foldl_append]
  rfl

/-! ## One delta -/

/-- The two sides of the live book. -/
def PriceBook.sides (b : PriceBook) : Sides := ⟨b.bids, b.asks⟩

/-- **One in-sequence delta**: it overflows the level cap and discards the book, or it is
`Sides.on` with the trackers advanced and nothing else touched. -/
theorem apply_cases (b : PriceBook) (op : DeltaOp) (removed : List (UInt8 × Int)) :
    b.apply op removed = (b.overflow, removed, .overflow) ∨
    ∃ r d, b.apply op removed =
      ({ b.advance op.seq op.ts with
          bids := (b.sides.on op.delta).bids, asks := (b.sides.on op.delta).asks }, r, .applied d) := by
  obtain ⟨seq, mktdataSeq, ts, delta⟩ := op
  cases delta with
  | level side price qty count flags action =>
    unfold PriceBook.apply
    simp only
    generalize hp : (if side = SIDE_ASK then b.asks.contains price else b.bids.contains price) = p
    by_cases hcap : p = false ∧ qty ≠ 0 ∧ b.bids.size + b.asks.size ≥ MAX_LEVELS_PER_BOOK
    · rw [if_pos hcap]; exact Or.inl rfl
    · rw [if_neg hcap]
      refine Or.inr ⟨removed, divergence action qty p, ?_⟩
      by_cases hs : side = SIDE_ASK <;>
        simp [hs, Sides.on, PriceBook.sides, PriceBook.advance, setLevel]
  | clear clearSide scope fromPrice =>
    right
    unfold PriceBook.apply
    simp only
    split
    · rename_i hm
      exact ⟨removed, none, by simp [Sides.on, PriceBook.sides, PriceBook.advance, hm]⟩
    · rename_i hm
      simp only [Sides.on, if_neg hm, PriceBook.sides, PriceBook.advance, clearSideLevels]
      split <;> split <;> exact ⟨_, none, rfl⟩

/-! ## The invariant -/

/-- The group under assembly holds part of a genuine snapshot and counts what it holds. -/
def Assembles (G : Set (Group H)) (g : Building) : Prop :=
  ∃ grp ∈ G, g.snapshotId = grp.snapshotId ∧ g.totalLevels = grp.totalLevels ∧
    g.lastInstrumentSeq = grp.lastInstrumentSeq ∧ g.bids.Le grp.book.bids ∧
    g.asks.Le grp.book.asks ∧ g.receivedLevels = g.len

/-- What every call of a publisher's history preserves. -/
structure Inv (G : Set (Group H)) (b : PriceBook) : Prop where
  ready : b.status = .ready → b.lastAppliedInstrumentSeq ≤ H.deltas.length ∧
    b.sides = H.book b.lastAppliedInstrumentSeq
  group : ∀ g, b.open = some g → Assembles G g
  pending : ∀ op ∈ b.pending, op ∈ H.deltas

theorem Inv.new : Inv G PriceBook.new :=
  ⟨nofun, nofun, nofun⟩

/-- A book that is not ready owes nothing about its sides. -/
theorem Inv.of_not_ready {b' : PriceBook} (h : Inv G b) (hs : b'.status ≠ .ready)
    (ho : ∀ g, b'.open = some g → b.open = some g)
    (hp : ∀ op ∈ b'.pending, op ∈ H.deltas) : Inv G b' :=
  ⟨fun hr => absurd hr hs, fun g hg => h.group g (ho g hg), hp⟩

theorem Inv.buffer (h : Inv G b) (hs : b.status ≠ .ready) {op : DeltaOp} (hop : op ∈ H.deltas) :
    Inv G (b.buffer op).1 ∧ (b.buffer op).1.status ≠ .ready := by
  unfold PriceBook.buffer
  split
  · refine ⟨h.of_not_ready hs (fun g hg => hg) ?_, hs⟩
    intro o ho
    rcases List.mem_append.mp ho with ho | ho
    · exact h.pending o ho
    · rw [List.mem_singleton.mp ho]; exact hop
  · exact ⟨h.of_not_ready (by simp) (fun g hg => hg) (fun o ho => by cases ho), by simp⟩

theorem Inv.bufferAll : ∀ (ops : List DeltaOp) {b : PriceBook}, Inv G b → b.status ≠ .ready →
    (∀ op ∈ ops, op ∈ H.deltas) → Inv G (b.bufferAll ops)
  | [], _, h, _, _ => h
  | op :: ops, b, h, hs, hops => by
    obtain ⟨h', hs'⟩ := h.buffer hs (hops op List.mem_cons_self)
    exact Inv.bufferAll ops h' hs' fun o ho => hops o (List.mem_cons_of_mem _ ho)

/-- The next delta in sequence keeps the invariant; without an overflow the book stays ready. -/
theorem Inv.apply (h : Inv G b) (hr : b.status = .ready) {op : DeltaOp} (hop : op ∈ H.deltas)
    (hseq : op.seq = b.lastAppliedInstrumentSeq + 1) (removed : List (UInt8 × Int)) :
    Inv G (b.apply op removed).1 ∧
      ((b.apply op removed).2.2 ≠ .overflow → (b.apply op removed).1.status = .ready) := by
  rcases apply_cases b op removed with he | ⟨r, d, he⟩ <;> rw [he]
  · refine ⟨h.of_not_ready (by simp [PriceBook.overflow]) (fun g hg => hg) ?_, fun hne => ?_⟩
    · intro o ho; cases ho
    · exact absurd rfl hne
  · obtain ⟨hlen, hbook⟩ := History.book_succ hop hseq
    refine ⟨⟨fun _ => ?_, h.group, h.pending⟩, fun _ => hr⟩
    rw [← hseq, ← (h.ready hr).2] at hbook
    exact ⟨by simp only [PriceBook.advance]; omega, hbook.symm⟩

theorem Inv.replayOps : ∀ (ops : List DeltaOp) {b : PriceBook}, Inv G b → b.status = .ready →
    (∀ op ∈ ops, op ∈ H.deltas) → Inv G (b.replayOps ops)
  | [], _, h, _, _ => h
  | op :: ops, b, h, hr, hops => by
    have hop := hops op List.mem_cons_self
    have hrest : ∀ o ∈ ops, o ∈ H.deltas := fun o ho => hops o (List.mem_cons_of_mem _ ho)
    unfold PriceBook.replayOps
    split
    · exact Inv.replayOps ops h hr hrest
    · split
      · have hgap : Inv G { b with status := .gap } :=
          h.of_not_ready (by simp) (fun g hg => hg) h.pending
        obtain ⟨h', hs'⟩ := hgap.buffer (by simp) hop
        exact Inv.bufferAll ops h' hs' hrest
      · rename_i _ hseq
        obtain ⟨h', hr'⟩ := h.apply hr hop (by omega) []
        split
        · rename_i b' r he
          rw [he] at h'; exact h'
        · rename_i b' r out hne he
          rw [he] at h' hr'
          exact Inv.replayOps ops h' (hr' fun ho => hne (by rw [← ho])) hrest

theorem Inv.replay (h : Inv G b) (hr : b.status = .ready) (anchor : Nat) :
    Inv G (b.replay anchor) := by
  unfold PriceBook.replay
  refine Inv.replayOps _ ⟨h.ready, h.group, fun op ho => by cases ho⟩ hr ?_
  intro op ho
  rw [List.mem_insertionSort] at ho
  exact h.pending op (List.mem_of_mem_filter ho)

/-! ## One call -/

theorem Inv.onDelta (h : Inv G b) {op : DeltaOp} (hop : op ∈ H.deltas) :
    Inv G (b.onDelta op).1 := by
  unfold PriceBook.onDelta
  split
  · rename_i hs; exact (h.buffer hs hop).1
  · rename_i hs
    simp only [ne_eq, Decidable.not_not] at hs
    split
    · exact h
    · split
      · refine h.of_not_ready (by simp) (fun g hg => hg) fun o ho => ?_
        rw [List.mem_singleton.mp ho]; exact hop
      · exact (h.apply hs hop (by omega) []).1

theorem Inv.onSnapshotBegin (h : Inv G b) {grp : Group H} (hg : grp ∈ G) (now : Nat) :
    Inv G (b.onSnapshotBegin grp.snapshotId grp.anchorSeq grp.totalLevels grp.lastInstrumentSeq
      grp.depthBound now).1 := by
  unfold PriceBook.onSnapshotBegin
  split
  · exact h
  · split
    · split
      · exact h
      · simp only
        split
        · exact ⟨h.ready, h.group, h.pending⟩
        · split
          · exact h.of_not_ready (by simp [PriceBook.forceResync]) (fun g hg => hg) h.pending
          · exact ⟨h.ready, h.group, h.pending⟩
    · split
      · exact h
      · -- a fresh group holds nothing yet
        refine ⟨nofun, fun g hgo => ?_, h.pending⟩
        simp only [Option.some.injEq] at hgo
        subst hgo
        refine ⟨grp, hg, rfl, rfl, rfl, ?_, ?_, rfl⟩ <;>
          exact fun k v hv => by cases hv

/-- One genuine level extends the group by itself. -/
theorem Assembles.insert (hinj : ∀ g ∈ G, ∀ g' ∈ G, g.snapshotId = g'.snapshotId → g = g')
    {g : Building} (h : Assembles G g) {grp : Group H} (hg : grp ∈ G)
    (hid : g.snapshotId = grp.snapshotId) (price : Int) (l : LevelState) :
    (grp.book.asks.get price = some l → Assembles G
      { g with
        asks := g.asks.insert price l,
        receivedLevels := g.receivedLevels + if g.asks.contains price then 0 else 1 }) ∧
    (grp.book.bids.get price = some l → Assembles G
      { g with
        bids := g.bids.insert price l,
        receivedLevels := g.receivedLevels + if g.bids.contains price then 0 else 1 }) := by
  obtain ⟨grp', hg', hid', htot, hlast, hbids, hasks, hrecv⟩ := h
  obtain rfl : grp' = grp := hinj _ hg' _ hg (hid'.symm.trans hid)
  refine ⟨fun hl => ⟨grp', hg', hid', htot, hlast, hbids, hasks.insert hl, ?_⟩,
    fun hl => ⟨grp', hg', hid', htot, hlast, hbids.insert hl, hasks, ?_⟩⟩ <;>
  · simp only [Building.len, FinMap.size_insert] at hrecv ⊢
    split <;> omega

theorem Inv.onSnapshotLevel (hinj : ∀ g ∈ G, ∀ g' ∈ G, g.snapshotId = g'.snapshotId → g = g')
    (h : Inv G b) {grp : Group H} (hg : grp ∈ G) {side : UInt8} {price : Int} {qty : Nat}
    {count : Option Nat} {flags : UInt8}
    (hl : (side = SIDE_ASK ∧ grp.book.asks.get price = some ⟨qty, count, flags⟩) ∨
      (side = SIDE_BID ∧ grp.book.bids.get price = some ⟨qty, count, flags⟩)) :
    Inv G (b.onSnapshotLevel grp.snapshotId side price qty count flags) := by
  unfold PriceBook.onSnapshotLevel
  split
  · exact h
  · rename_i g hopen
    split
    · exact h
    · rename_i hid
      have hid' : g.snapshotId = grp.snapshotId := by
        by_contra hne; exact hid (Or.inl hne)
      have hins := (h.group g hopen).insert hinj hg hid' price ⟨qty, count, flags⟩
      refine ⟨h.ready, fun g' hg' => ?_, h.pending⟩
      simp only [Option.some.injEq] at hg'
      subst hg'
      rcases hl with ⟨rfl, hl⟩ | ⟨rfl, hl⟩
      · rw [if_pos rfl]; exact hins.1 hl
      · rw [if_neg (by decide)]; exact hins.2 hl

/-- **A complete group is the genuine book**: it holds part of it and as many levels. -/
theorem Assembles.complete {g : Building} (h : Assembles G g)
    (hfull : g.receivedLevels = g.totalLevels) :
    g.lastInstrumentSeq ≤ H.deltas.length ∧
      (⟨g.bids, g.asks⟩ : Sides) = H.book g.lastInstrumentSeq := by
  obtain ⟨grp, -, -, htot, hlast, hbids, hasks, hrecv⟩ := h
  have hb := Finset.card_le_card hbids.keys_subset
  have ha := Finset.card_le_card hasks.keys_subset
  have hsize : g.bids.size + g.asks.size = grp.book.bids.size + grp.book.asks.size := by
    simp only [Building.len] at hrecv
    simp only [Group.totalLevels, Sides.size] at htot
    omega
  unfold FinMap.size at hsize
  rw [hlast]
  refine ⟨grp.captured, ?_⟩
  rw [FinMap.eq_of_le_of_size hbids (by unfold FinMap.size; omega),
    FinMap.eq_of_le_of_size hasks (by unfold FinMap.size; omega)]
  rfl

theorem Inv.onSnapshotEnd (h : Inv G b) (anchor id : Nat) : Inv G (b.onSnapshotEnd anchor id).1 := by
  unfold PriceBook.onSnapshotEnd
  split
  · exact h
  · rename_i g hopen
    split
    · exact h.of_not_ready (by simp) (fun g' hg' => by cases hg') h.pending
    · rename_i hok
      have hbook := (h.group g hopen).complete (by by_contra hne; exact hok (Or.inr (Or.inr hne)))
      refine Inv.replay ?_ rfl _
      exact ⟨fun _ => hbook, fun g' hg' => (by cases hg'), h.pending⟩

theorem Inv.onInstrumentReset (h : Inv G b) (s : Nat) : Inv G (b.onInstrumentReset s) := by
  unfold PriceBook.onInstrumentReset
  refine ⟨fun hr => ?_, fun g hg => ?_, fun op ho => h.pending op (List.mem_of_mem_filter ho)⟩
  · simp only at hr; split at hr <;> cases hr
  · simp only [Option.map_eq_some_iff, Option.filter_eq_some_iff] at hg
    obtain ⟨g', ⟨hopen, -⟩, rfl⟩ := hg
    exact h.group g' hopen

theorem Inv.step (hinj : ∀ g ∈ G, ∀ g' ∈ G, g.snapshotId = g'.snapshotId → g = g')
    (h : Inv G b) {c : Call} (hc : Sent H G c) : Inv G (step b c).1 := by
  cases c with
  | delta op => exact h.onDelta hc
  | snapshotBegin id anchor total last depth now =>
    obtain ⟨g, hg, rfl, rfl, rfl, rfl, rfl⟩ := hc
    exact h.onSnapshotBegin hg now
  | snapshotLevel id side price qty count flags =>
    obtain ⟨g, hg, rfl, hl⟩ := hc
    exact h.onSnapshotLevel hinj hg hl
  | snapshotEnd anchor id => exact h.onSnapshotEnd anchor id
  | dropBuffer =>
    exact h.of_not_ready (by simp [Mbp.step, PriceBook.dropBuffer]) (fun g hg => hg)
      fun op ho => by cases ho
  | instrumentReset s => exact h.onInstrumentReset s
  | endOfSession =>
    exact h.of_not_ready (by simp [Mbp.step, PriceBook.onEndOfSession])
      (fun g hg => by cases hg) fun op ho => by cases ho

/-! ## Every run -/

/-- **The exact-prefix law.** Whatever part of a publisher's messages reaches the book, in whatever
order and how often, and whenever it is reset or drops its buffer: a ready book rests exactly the
levels of the first `last_applied_instrument_seq` deltas. -/
theorem ready_book_is_exact (H : History) (G : Set (Group H))
    (hids : ∀ g ∈ G, ∀ g' ∈ G, g.snapshotId = g'.snapshotId → g = g')
    (calls : List Call) (hsent : ∀ c ∈ calls, Sent H G c)
    (hready : (machine.exec PriceBook.new calls).status = .ready) :
    (machine.exec PriceBook.new calls).lastAppliedInstrumentSeq ≤ H.deltas.length ∧
    (machine.exec PriceBook.new calls).bids =
      (H.book (machine.exec PriceBook.new calls).lastAppliedInstrumentSeq).bids ∧
    (machine.exec PriceBook.new calls).asks =
      (H.book (machine.exec PriceBook.new calls).lastAppliedInstrumentSeq).asks := by
  suffices hinv : Inv G (machine.exec PriceBook.new calls) by
    obtain ⟨hlen, hsides⟩ := hinv.ready hready
    exact ⟨hlen, congrArg Sides.bids hsides, congrArg Sides.asks hsides⟩
  exact Machine.along_rule (fun _ _ hc h => h.step hids hc) calls _
    (Machine.along_of_forall calls _ hsent) Inv.new

/-- Two deltas of one instrument: a bid appears, then shrinks. -/
def twoDeltas : History where
  deltas := [⟨1, 10, 50, .level SIDE_BID 6200 150 (some 1) 0 ACTION_NEW⟩,
    ⟨2, 12, 60, .level SIDE_BID 6200 90 (some 1) 0 ACTION_CHANGE⟩]
  seq_eq := by decide
  mktdata_mono := by decide
  bounded := by decide

/-- The snapshot captured between the two deltas. -/
def midGroup : Group twoDeltas where
  snapshotId := 7
  anchorSeq := 11
  lastInstrumentSeq := 1
  depthBound := 0
  captured := by decide
  anchored := by decide

/-- The snapshot installed with its level duplicated, then the second delta, delivered twice. -/
def midCalls : List Call :=
  [.snapshotBegin 7 11 1 1 0 0, .snapshotLevel 7 SIDE_BID 6200 150 (some 1) 0,
    .snapshotLevel 7 SIDE_BID 6200 150 (some 1) 0, .snapshotEnd 11 7,
    .delta ⟨2, 12, 60, .level SIDE_BID 6200 90 (some 1) 0 ACTION_CHANGE⟩,
    .delta ⟨2, 12, 60, .level SIDE_BID 6200 90 (some 1) 0 ACTION_CHANGE⟩]

theorem ready_book_is_exact_midCalls :
    (machine.exec PriceBook.new midCalls).status = .ready ∧
    (machine.exec PriceBook.new midCalls).lastAppliedInstrumentSeq = 2 ∧
    (machine.exec PriceBook.new midCalls).bids = (twoDeltas.book 2).bids := by
  have hr : (machine.exec PriceBook.new midCalls).status = .ready := by decide
  have hk : (machine.exec PriceBook.new midCalls).lastAppliedInstrumentSeq = 2 := by decide
  have hids : ∀ g ∈ ({midGroup} : Set (Group twoDeltas)), ∀ g' ∈ ({midGroup} : Set (Group twoDeltas)),
      g.snapshotId = g'.snapshotId → g = g' := by
    rintro g rfl g' rfl _; rfl
  have hsent : ∀ c ∈ midCalls, Sent twoDeltas {midGroup} c := by
    intro c hc
    simp only [midCalls, List.mem_cons, List.not_mem_nil, or_false] at hc
    rcases hc with rfl | rfl | rfl | rfl | rfl | rfl
    · exact ⟨midGroup, rfl, rfl, rfl, by decide, rfl, rfl⟩
    · exact ⟨midGroup, rfl, rfl, Or.inr ⟨rfl, by decide⟩⟩
    · exact ⟨midGroup, rfl, rfl, Or.inr ⟨rfl, by decide⟩⟩
    · exact ⟨midGroup, rfl, rfl, rfl⟩
    · exact List.mem_cons_of_mem _ List.mem_cons_self
    · exact List.mem_cons_of_mem _ List.mem_cons_self
  refine ⟨hr, hk, ?_⟩
  have h := (ready_book_is_exact twoDeltas {midGroup} hids midCalls hsent hr).2.1
  rwa [hk] at h

end EdgeConnect.Mbp
